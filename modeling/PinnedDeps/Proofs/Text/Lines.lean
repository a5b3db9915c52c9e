import PinnedDeps.Text.Lines
import PinnedDeps.Proofs.Text.Pieces
import PinnedDeps.Proofs.Text.Returns

/-! The lines of a text, told by what ends them. A text falls into lines in one way only. Where no
carriage return is part of a line, it makes no difference to the lines which of the two endings
they have, nor whether the last of them has one. -/

namespace PinnedDeps.Text

/-- The text consists of the lines. Each ends in a line feed, with a carriage return in front of it
or without, and the last one, if it is not empty, may end with the text. -/
inductive Lined : List Char → List (List Char) → Prop
  | none : Lined [] []
  | unended {line} : '\n' ∉ line → line ≠ [] → Lined line [line]
  | fed {line rest found} : '\n' ∉ line → line.getLast? ≠ some '\r' → Lined rest found →
      Lined (line ++ '\n' :: rest) (line :: found)
  | returned {line rest found} : '\n' ∉ line → Lined rest found →
      Lined (line ++ '\r' :: '\n' :: rest) (line :: found)

variable {cs line rest ending : List Char} {found : List (List Char)}

/-! ### The lines that are read -/

theorem withoutReturn_of_getLast? (h : line.getLast? ≠ some '\r') : withoutReturn line = line :=
  if_neg h

theorem withoutReturn_concat (line : List Char) : withoutReturn (line ++ ['\r']) = line := by
  rw [withoutReturn, if_pos List.getLast?_concat, List.dropLast_concat]

theorem linesOfPieces_cons {more : List (List Char)} (h : more ≠ []) :
    linesOfPieces (line :: more) = withoutReturn line :: linesOfPieces more := by
  cases more with
  | nil => exact absurd rfl h
  | cons next more => rfl

theorem lines_of_unended (hline : '\n' ∉ line) (hne : line ≠ []) : lines line = [line] := by
  rw [lines, pieces_eq_splitOn, List.splitOn_eq_singleton hline]
  exact if_neg hne

theorem lines_line (hline : '\n' ∉ line) (rest : List Char) :
    lines (line ++ '\n' :: rest) = withoutReturn line :: lines rest := by
  rw [lines, pieces_eq_splitOn, splitOn_line hline, linesOfPieces_cons (List.splitOn_ne_nil _ _),
    lines, pieces_eq_splitOn]

theorem lined_lines (cs : List Char) : Lined cs (lines cs) := by
  induction cs using lines_induction with
  | last line hline =>
    by_cases hne : line = []
    · subst hne
      exact .none
    · rw [lines_of_unended hline hne]
      exact .unended hline hne
  | more line rest hline ih =>
    rw [lines_line hline]
    by_cases hlast : line.getLast? = some '\r'
    · obtain ⟨line, rfl⟩ := List.getLast?_eq_some_iff.mp hlast
      rw [withoutReturn_concat, List.append_assoc]
      exact .returned (fun hmem => hline (List.mem_append_left _ hmem)) ih
    · rw [withoutReturn_of_getLast? hlast]
      exact .fed hline hlast ih

theorem Lined.eq_lines (h : Lined cs found) : found = lines cs := by
  induction h with
  | none => rfl
  | unended hline hne => exact (lines_of_unended hline hne).symm
  | fed hline hlast _ ih => rw [lines_line hline, withoutReturn_of_getLast? hlast, ih]
  | @returned line rest _ hline _ ih =>
    -- the carriage return belongs to the piece in front of the line feed
    have hline' : '\n' ∉ line ++ ['\r'] := by simp [hline]
    have hcs : line ++ '\r' :: '\n' :: rest = (line ++ ['\r']) ++ '\n' :: rest := by simp
    rw [hcs, lines_line hline', withoutReturn_concat, ih]

/-- Every text falls into lines, and in one way. -/
theorem existsUnique_lined (cs : List Char) : ∃! found, Lined cs found :=
  ⟨lines cs, lined_lines cs, fun _ h => h.eq_lines⟩

theorem Lined.not_mem (h : Lined cs found) : ∀ line ∈ found, '\n' ∉ line := by
  induction h with
  | none => simp
  | unended hline _ => simpa using hline
  | fed hline _ _ ih => simpa using ⟨hline, ih⟩
  | returned hline _ ih => simpa using ⟨hline, ih⟩

/-! ### Other endings -/

/-- What may end a line. -/
def IsEnding (ending : List Char) : Prop := ending = ['\n'] ∨ ending = ['\r', '\n']

theorem returns_of_not_mem (hline : '\n' ∉ line) :
    (line.flatMap fun c => if c = '\n' then ['\r', '\n'] else [c]) = line := by
  induction line with
  | nil => rfl
  | cons c line ih =>
    rw [List.mem_cons, not_or] at hline
    rw [List.flatMap_cons, ih hline.2, if_neg (Ne.symm hline.1), List.singleton_append]

theorem Lined.withReturns {text : String} (h : Lined text.toList found)
    (hreturn : '\r' ∉ text.toList) : Lined (withReturns text).toList found := by
  rw [Text.withReturns, String.toList_ofList]
  generalize text.toList = cs at h hreturn
  induction h with
  | none => exact .none
  | unended hline hne =>
    rw [returns_of_not_mem hline]
    exact .unended hline hne
  | fed hline _ _ ih =>
    rw [List.flatMap_append, List.flatMap_cons, returns_of_not_mem hline]
    refine .returned hline (ih fun hmem => hreturn ?_)
    simp [hmem]
  | returned => simp at hreturn

theorem getLast?_withReturns (text : String) :
    (Text.withReturns text).toList.getLast? = text.toList.getLast? := by
  rw [Text.withReturns, String.toList_ofList]
  rcases List.eq_nil_or_concat text.toList with h | ⟨front, c, h⟩
  · rw [h]
    rfl
  · rw [h, List.concat_eq_append, List.flatMap_append, List.flatMap_singleton,
      List.getLast?_concat]
    split
    · next hc => simp [hc]
    · exact List.getLast?_concat

theorem getLast?_behind {c : Char} (h : (line ++ '\n' :: rest).getLast? = some c) (hc : c ≠ '\n') :
    rest.getLast? = some c := by
  cases rest with
  | nil =>
    rw [List.getLast?_concat] at h
    exact absurd (Option.some.inj h).symm hc
  | cons d rest => simpa using h

/-- To end the last line adds no line. -/
theorem Lined.append_ending {c : Char} (h : Lined cs found) (hlast : cs.getLast? = some c)
    (hfeed : c ≠ '\n') (hreturn : c ≠ '\r') (hending : IsEnding ending) :
    Lined (cs ++ ending) found := by
  induction h with
  | none => cases hlast
  | unended hline _ =>
    rcases hending with rfl | rfl
    · refine .fed hline ?_ .none
      rw [hlast]
      exact fun h => hreturn (Option.some.inj h)
    · exact .returned hline .none
  | fed hline hkept _ ih =>
    rw [List.append_assoc, List.cons_append]
    exact .fed hline hkept (ih (getLast?_behind hlast hfeed))
  | @returned line rest _ hline _ ih =>
    have hbehind : ((line ++ ['\r']) ++ '\n' :: rest).getLast? = some c := by simpa using hlast
    rw [List.append_assoc, List.cons_append, List.cons_append]
    exact .returned hline (ih (getLast?_behind hbehind hfeed))

end PinnedDeps.Text
