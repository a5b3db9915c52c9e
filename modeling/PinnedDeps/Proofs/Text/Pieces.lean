import PinnedDeps.Text.Cut
import Mathlib.Data.List.TakeWhile

/-! Texts cut at every place of a character, which is the library's `List.splitOn`. Pieces put
together again with that character between them are cut at the same places, and at those inside the
pieces. -/

namespace PinnedDeps.Text

theorem piecesOnto_eq_splitOnPPrepend (c : Char) (piece cs : List Char) :
    piecesOnto c piece cs = cs.splitOnPPrepend (· == c) piece := by
  induction cs generalizing piece with
  | nil => rw [piecesOnto, List.splitOnPPrepend_nil]
  | cons d cs ih =>
    rw [piecesOnto, List.splitOnPPrepend_cons_eq_if, ih, ih]
    simp

theorem pieces_eq_splitOn (c : Char) (cs : List Char) : pieces c cs = cs.splitOn c :=
  piecesOnto_eq_splitOnPPrepend c [] cs

theorem not_mem_of_mem_piecesOnto {c : Char} {piece cs found : List Char} (hp : c ∉ piece)
    (h : found ∈ piecesOnto c piece cs) : c ∉ found := by
  induction cs generalizing piece with
  | nil =>
    rw [piecesOnto, List.mem_singleton] at h
    simpa [h] using hp
  | cons d cs ih =>
    rw [piecesOnto] at h
    by_cases hd : d = c
    · rw [if_pos hd, List.mem_cons] at h
      rcases h with rfl | h
      · simpa using hp
      · exact ih List.not_mem_nil h
    · rw [if_neg hd] at h
      refine ih ?_ h
      simp [hp, Ne.symm hd]

theorem not_mem_of_mem_splitOn {c : Char} {cs piece : List Char} (h : piece ∈ cs.splitOn c) :
    c ∉ piece := by
  rw [← pieces_eq_splitOn] at h
  exact not_mem_of_mem_piecesOnto List.not_mem_nil h

theorem splitOn_intercalate (c : Char) {pieces : List (List Char)} (h : pieces ≠ []) :
    ([c].intercalate pieces).splitOn c = pieces.flatMap fun piece => piece.splitOn c := by
  induction pieces with
  | nil => exact absurd rfl h
  | cons first rest ih =>
    cases rest with
    | nil => simp
    | cons second rest =>
      rw [List.intercalate_cons_cons, List.append_assoc, List.singleton_append,
        List.splitOn_append_cons_self, ih (List.cons_ne_nil second rest)]
      simp only [List.flatMap_cons]

/-! ### Lines -/

/-- A text is one line or has a line feed behind its first. -/
theorem lines_induction {P : List Char → Prop} (last : ∀ line, '\n' ∉ line → P line)
    (more : ∀ line rest, '\n' ∉ line → P rest → P (line ++ '\n' :: rest)) (cs : List Char) :
    P cs := by
  induction hn : cs.length using Nat.strongRecOn generalizing cs with
  | ind n ih =>
    cases hcut : cutFirst '\n' cs with
    | none => exact last cs (cutFirst_eq_none hcut)
    | some cut =>
      obtain ⟨line, rest⟩ := cut
      obtain ⟨rfl, hline⟩ := cutFirst_eq_some hcut
      have hlt : rest.length < n := by
        rw [← hn, List.length_append, List.length_cons]
        omega
      exact more line rest hline (ih rest.length hlt rest rfl)

theorem splitOn_line {line : List Char} (hline : '\n' ∉ line) (rest : List Char) :
    (line ++ '\n' :: rest).splitOn '\n' = line :: rest.splitOn '\n' := by
  rw [List.splitOn_append_cons_self, List.splitOn_eq_singleton hline, List.singleton_append]

end PinnedDeps.Text
