import PinnedDeps.CommitNote
import PinnedDeps.Proofs.Text.Pieces

/-! What stands in brackets. A search for `[`, characters other than line feeds and `]` takes the
first place at which they stand, and from there as many characters as it can. No match goes over a
line feed, so it lies in one of the pieces between them, the first that has any; and inside a piece
the earliest start is its first `[`, the latest end its last `]`. -/

namespace PinnedDeps.CommitNote

variable {cs before inside after front back rest piece : List Char}

/-! ### Matches -/

/-- The text is `before`, a bracket pair around `inside`, and `after`. -/
def Encloses (cs before inside after : List Char) : Prop :=
  cs = before ++ '[' :: (inside ++ ']' :: after)

/-- The brackets stand on one line. -/
def Matches (cs before inside after : List Char) : Prop :=
  Encloses cs before inside after ∧ '\n' ∉ inside

/-- No match starts earlier, and none that starts there is longer. -/
def LeftmostGreedy (cs before inside after : List Char) : Prop :=
  Matches cs before inside after ∧
    (∀ before' inside' after', Matches cs before' inside' after' → before.length ≤ before'.length) ∧
    ∀ inside' after', Matches cs before inside' after' → inside'.length ≤ inside.length

/-- Somewhere a `[` stands in front of a `]`. -/
def HasSpan (cs : List Char) : Prop := ∃ before inside after, Encloses cs before inside after

/-! ### Two cuts of a text -/

section

variable {c d : Char}

/-- Of two characters of a text one is the earlier, unless they are the same. -/
theorem cut_cases (h : front ++ c :: back = before ++ d :: after) :
    (front = before ∧ c = d ∧ back = after) ∨
      (∃ between, before = front ++ c :: between ∧ back = between ++ d :: after) ∨
        ∃ between, front = before ++ d :: between ∧ after = between ++ c :: back := by
  rcases List.append_eq_append_iff.mp h with ⟨x, rfl, hx⟩ | ⟨x, rfl, hx⟩
  · cases x with
    | nil => exact .inl ⟨by simp, List.cons.inj hx⟩
    | cons e between =>
      obtain ⟨rfl, rfl⟩ := List.cons.inj hx
      exact .inr (.inl ⟨between, rfl, rfl⟩)
  · cases x with
    | nil =>
      obtain ⟨rfl, rfl⟩ := List.cons.inj hx
      exact .inl ⟨by simp, rfl, rfl⟩
    | cons e between =>
      obtain ⟨rfl, rfl⟩ := List.cons.inj hx
      exact .inr (.inr ⟨between, rfl, rfl⟩)

theorem length_le_of_first (h : front ++ c :: back = before ++ c :: after) (hfront : c ∉ front) :
    front.length ≤ before.length := by
  rcases cut_cases h with ⟨rfl, -⟩ | ⟨between, rfl, -⟩ | ⟨between, rfl, -⟩
  · exact Nat.le_refl _
  · simp
  · simp at hfront

theorem length_le_of_last (h : front ++ c :: back = before ++ c :: after) (hback : c ∉ back) :
    before.length ≤ front.length := by
  rcases cut_cases h with ⟨rfl, -⟩ | ⟨between, -, rfl⟩ | ⟨between, rfl, -⟩
  · exact Nat.le_refl _
  · simp at hback
  · simp

end

/-! ### One line -/

theorem hasSpan_iff (hline : '\n' ∉ cs) :
    HasSpan cs ↔ ∃ before inside after, Matches cs before inside after := by
  constructor
  · rintro ⟨before, inside, after, rfl⟩
    exact ⟨before, inside, after, rfl, fun hmem => hline (by simp [hmem])⟩
  · rintro ⟨before, inside, after, h, -⟩
    exact ⟨before, inside, after, h⟩

/-- Of what is in brackets, that which begins at the first `[` and ends at the last `]`. -/
theorem widestSpan_eq_some_iff :
    widestSpan cs = some inside ↔
      ∃ front back, Encloses cs front inside back ∧ '[' ∉ front ∧ ']' ∉ back := by
  constructor
  · intro h
    obtain ⟨⟨front, behind⟩, hfirst, h⟩ := Option.bind_eq_some_iff.mp h
    obtain ⟨⟨found, back⟩, hlast, h⟩ := Option.bind_eq_some_iff.mp h
    obtain rfl : found = inside := Option.some.inj h
    obtain ⟨rfl, hfront⟩ := Text.cutFirst_eq_some hfirst
    obtain ⟨rfl, hback⟩ := Text.cutLast_eq_some hlast
    exact ⟨front, back, rfl, hfront, hback⟩
  · rintro ⟨front, back, rfl, hfront, hback⟩
    unfold widestSpan
    rw [Text.cutFirst_append_cons hfront]
    show (Text.cutLast ']' (inside ++ ']' :: back) >>= _) = _
    rw [Text.cutLast_append_cons hback]
    rfl

theorem widestSpan_eq_none_iff : widestSpan cs = none ↔ ¬HasSpan cs := by
  constructor
  · rintro h ⟨before, inside, after, rfl⟩
    cases hfirst : Text.cutFirst '[' (before ++ '[' :: (inside ++ ']' :: after)) with
    | none => exact Text.cutFirst_eq_none hfirst (by simp)
    | some cut =>
      obtain ⟨front, behind⟩ := cut
      obtain ⟨heq, hfront⟩ := Text.cutFirst_eq_some hfirst
      -- the first `[` is not behind this one, so this `]` is behind it
      have hclose : ']' ∈ behind := by
        rcases cut_cases heq with ⟨-, -, rfl⟩ | ⟨between, rfl, -⟩ | ⟨between, -, rfl⟩
        · simp
        · simp at hfront
        · simp
      cases hlast : Text.cutLast ']' behind with
      | none => exact Text.cutLast_eq_none hlast hclose
      | some cut =>
        obtain ⟨inside', back⟩ := cut
        obtain ⟨rfl, hback⟩ := Text.cutLast_eq_some hlast
        rw [widestSpan_eq_some_iff.mpr ⟨front, back, heq, hfront, hback⟩] at h
        cases h
  · intro h
    cases hspan : widestSpan cs with
    | none => rfl
    | some inside =>
      obtain ⟨front, back, hcs, -⟩ := widestSpan_eq_some_iff.mp hspan
      exact absurd ⟨front, inside, back, hcs⟩ h

/-- The widest span of a line is what the search finds there. -/
theorem leftmostGreedy_of_widest (hline : '\n' ∉ cs) (h : Encloses cs front inside back)
    (hfront : '[' ∉ front) (hback : ']' ∉ back) : LeftmostGreedy cs front inside back := by
  refine ⟨⟨h, fun hmem => hline ?_⟩, fun before' inside' after' h' => ?_,
    fun inside' after' h' => ?_⟩
  · rw [h]
    simp [hmem]
  · exact length_le_of_first (h.symm.trans h'.1) hfront
  · have hbehind : inside ++ ']' :: back = inside' ++ ']' :: after' := by
      simpa [Encloses] using h.symm.trans h'.1
    exact length_le_of_last hbehind hback

/-! ### Several lines -/

/-- A match lies in front of a line feed or behind it. -/
theorem matches_append_iff (hpiece : '\n' ∉ piece) :
    Matches (piece ++ '\n' :: rest) before inside after ↔
      (∃ back, Matches piece before inside back ∧ after = back ++ '\n' :: rest) ∨
        ∃ front, before = piece ++ '\n' :: front ∧ Matches rest front inside after := by
  constructor
  · rintro ⟨h, hline⟩
    rcases cut_cases h with ⟨-, heq, -⟩ | ⟨front, rfl, hfront⟩ | ⟨behind, rfl, hbehind⟩
    · exact absurd heq (by decide)
    · exact .inr ⟨front, rfl, hfront, hline⟩
    · rcases cut_cases hbehind with ⟨-, heq, -⟩ | ⟨back, rfl, rfl⟩ | ⟨between, rfl, -⟩
      · exact absurd heq (by decide)
      · exact .inl ⟨back, ⟨rfl, hline⟩, rfl⟩
      · simp at hline
  · rintro (⟨back, ⟨rfl, hline⟩, rfl⟩ | ⟨front, rfl, rfl, hline⟩)
    · exact ⟨by simp [Encloses], hline⟩
    · exact ⟨by simp [Encloses], hline⟩

theorem LeftmostGreedy.append (h : LeftmostGreedy piece before inside after)
    (hpiece : '\n' ∉ piece) (rest : List Char) :
    LeftmostGreedy (piece ++ '\n' :: rest) before inside (after ++ '\n' :: rest) := by
  obtain ⟨hmatch, hleft, hgreedy⟩ := h
  have hlength : before.length < piece.length := by
    rw [hmatch.1]
    simp
  refine ⟨(matches_append_iff hpiece).mpr (.inl ⟨after, hmatch, rfl⟩),
    fun before' inside' after' h' => ?_, fun inside' after' h' => ?_⟩
  · rcases (matches_append_iff hpiece).mp h' with ⟨back, h', -⟩ | ⟨front, rfl, -⟩
    · exact hleft before' inside' back h'
    · rw [List.length_append]
      omega
  · rcases (matches_append_iff hpiece).mp h' with ⟨back, h', -⟩ | ⟨front, rfl, -⟩
    · exact hgreedy inside' back h'
    · rw [List.length_append] at hlength
      omega

theorem LeftmostGreedy.behind (h : LeftmostGreedy rest before inside after) (hpiece : '\n' ∉ piece)
    (hspan : ¬HasSpan piece) :
    LeftmostGreedy (piece ++ '\n' :: rest) (piece ++ '\n' :: before) inside after := by
  obtain ⟨hmatch, hleft, hgreedy⟩ := h
  have hmatches {before' inside' after'}
      (h' : Matches (piece ++ '\n' :: rest) before' inside' after') :
      ∃ front, before' = piece ++ '\n' :: front ∧ Matches rest front inside' after' := by
    rcases (matches_append_iff hpiece).mp h' with ⟨back, h', -⟩ | h'
    · exact absurd ⟨before', inside', back, h'.1⟩ hspan
    · exact h'
  refine ⟨(matches_append_iff hpiece).mpr (.inr ⟨before, rfl, hmatch⟩),
    fun before' inside' after' h' => ?_, fun inside' after' h' => ?_⟩
  · obtain ⟨front, rfl, hrest⟩ := hmatches h'
    simpa using hleft front inside' after' hrest
  · obtain ⟨front, heq, hrest⟩ := hmatches h'
    obtain rfl : before = front := by simpa using heq
    exact hgreedy inside' after' hrest

/-! ### The first line that has one -/

theorem bracketed_eq (cs : List Char) :
    bracketed cs = (cs.splitOn '\n').findSome? widestSpan := by
  rw [bracketed, Text.pieces_eq_splitOn]

theorem exists_matches_iff (cs : List Char) :
    (∃ before inside after, Matches cs before inside after) ↔
      ∃ piece ∈ cs.splitOn '\n', HasSpan piece := by
  induction cs using Text.lines_induction with
  | last line hline =>
    rw [List.splitOn_eq_singleton hline]
    simp only [List.mem_singleton, exists_eq_left]
    exact (hasSpan_iff hline).symm
  | more line rest hline ih =>
    rw [Text.splitOn_line hline]
    simp only [List.mem_cons, exists_eq_or_imp]
    rw [← ih, hasSpan_iff hline]
    constructor
    · rintro ⟨before, inside, after, h⟩
      rcases (matches_append_iff hline).mp h with ⟨back, h, -⟩ | ⟨front, -, h⟩
      · exact .inl ⟨before, inside, back, h⟩
      · exact .inr ⟨front, inside, after, h⟩
    · rintro (⟨before, inside, back, h⟩ | ⟨front, inside, after, h⟩)
      · exact ⟨before, inside, _, (matches_append_iff hline).mpr (.inl ⟨back, h, rfl⟩)⟩
      · exact ⟨_, inside, after, (matches_append_iff hline).mpr (.inr ⟨front, rfl, h⟩)⟩

theorem exists_leftmostGreedy (h : bracketed cs = some inside) :
    ∃ before after, LeftmostGreedy cs before inside after := by
  rw [bracketed_eq] at h
  induction cs using Text.lines_induction with
  | last line hline =>
    rw [List.splitOn_eq_singleton hline] at h
    obtain ⟨front, back, hencloses, hfront, hback⟩ := widestSpan_eq_some_iff.mp (by simpa using h)
    exact ⟨front, back, leftmostGreedy_of_widest hline hencloses hfront hback⟩
  | more line rest hline ih =>
    rw [Text.splitOn_line hline, List.findSome?_cons] at h
    cases hspan : widestSpan line with
    | some found =>
      rw [hspan] at h
      obtain rfl : found = inside := Option.some.inj h
      obtain ⟨front, back, hencloses, hfront, hback⟩ := widestSpan_eq_some_iff.mp hspan
      have hfound := leftmostGreedy_of_widest hline hencloses hfront hback
      exact ⟨front, _, hfound.append hline rest⟩
    | none =>
      rw [hspan] at h
      obtain ⟨before, after, hfound⟩ := ih h
      exact ⟨_, after, hfound.behind hline (widestSpan_eq_none_iff.mp hspan)⟩

theorem bracketed_eq_none_iff :
    bracketed cs = none ↔ ∀ piece ∈ cs.splitOn '\n', ¬HasSpan piece := by
  rw [bracketed_eq, List.findSome?_eq_none_iff]
  simp only [widestSpan_eq_none_iff]

theorem LeftmostGreedy.unique {before' inside' after' : List Char}
    (h : LeftmostGreedy cs before inside after) (h' : LeftmostGreedy cs before' inside' after') :
    inside = inside' := by
  have hlength : before.length = before'.length :=
    Nat.le_antisymm (h.2.1 _ _ _ h'.1) (h'.2.1 _ _ _ h.1)
  obtain ⟨rfl, hbehind⟩ := List.append_inj (h.1.1.symm.trans h'.1.1) hlength
  have hlength : inside.length = inside'.length :=
    Nat.le_antisymm (h'.2.2 _ _ h.1) (h.2.2 _ _ h'.1)
  exact (List.append_inj (List.cons.inj hbehind).2 hlength).1

theorem bracketed_eq_some_iff :
    bracketed cs = some inside ↔ ∃ before after, LeftmostGreedy cs before inside after := by
  refine ⟨exists_leftmostGreedy, fun ⟨before, after, h⟩ => ?_⟩
  cases hfound : bracketed cs with
  | none =>
    obtain ⟨piece, hpiece, hspan⟩ := (exists_matches_iff cs).mp ⟨before, inside, after, h.1⟩
    exact absurd hspan (bracketed_eq_none_iff.mp hfound piece hpiece)
  | some found =>
    obtain ⟨_, _, h'⟩ := exists_leftmostGreedy hfound
    rw [h'.unique h]

/-- What is found in brackets is what a search finds that starts as early and takes as much as it
can. It is found in the first line in which a `[` stands in front of a `]`, from behind its first
`[` up to its last `]`. -/
theorem bracketed_finds_widest_span (cs : List Char) :
    (∀ inside, bracketed cs = some inside ↔
        ∃ before after, LeftmostGreedy cs before inside after) ∧
      (bracketed cs = none ↔ ∀ before inside after, ¬Matches cs before inside after) ∧
      (bracketed cs = none ↔ ∀ piece ∈ cs.splitOn '\n', ¬HasSpan piece) ∧
      (∀ earlier piece later, cs.splitOn '\n' = earlier ++ piece :: later →
        (∀ p ∈ earlier, ¬HasSpan p) → HasSpan piece →
          ∃ front inside back, Encloses piece front inside back ∧ '[' ∉ front ∧ ']' ∉ back ∧
            bracketed cs = some inside) ∧
      ('\n' ∉ cs →
        (∀ inside, bracketed cs = some inside ↔
          ∃ front back, Encloses cs front inside back ∧ '[' ∉ front ∧ ']' ∉ back) ∧
        (bracketed cs = none ↔ ¬HasSpan cs)) := by
  refine ⟨fun _ => bracketed_eq_some_iff, ?_, bracketed_eq_none_iff, ?_, fun hline => ?_⟩
  · rw [bracketed_eq_none_iff]
    have h := not_congr (exists_matches_iff cs)
    simpa only [not_exists, not_and] using h.symm
  · intro earlier piece later hsplit hearlier hpiece
    cases hspan : widestSpan piece with
    | none => exact absurd hpiece (widestSpan_eq_none_iff.mp hspan)
    | some inside =>
      obtain ⟨front, back, hencloses, hfront, hback⟩ := widestSpan_eq_some_iff.mp hspan
      have hnone : earlier.findSome? widestSpan = none :=
        List.findSome?_eq_none_iff.mpr fun p hp => widestSpan_eq_none_iff.mpr (hearlier p hp)
      refine ⟨front, inside, back, hencloses, hfront, hback, ?_⟩
      rw [bracketed_eq, hsplit, List.findSome?_append, hnone, List.findSome?_cons, hspan]
      rfl
  · have hcs : bracketed cs = widestSpan cs := by
      rw [bracketed_eq, List.splitOn_eq_singleton hline]
      simp
    rw [hcs]
    exact ⟨fun _ => widestSpan_eq_some_iff, widestSpan_eq_none_iff⟩

theorem bracketed_finds_widest_span_lines :
    let line := "a] [b] [c] d".toList
    let lines := "] [\n(x [y] z\n[w]".toList
    '\n' ∉ line ∧ bracketed line = some "b] [c".toList ∧
      lines.splitOn '\n' = ["] [".toList, "(x [y] z".toList, "[w]".toList] ∧
      ¬HasSpan "] [".toList ∧ HasSpan "(x [y] z".toList ∧
      ∃ front inside back, Encloses "(x [y] z".toList front inside back ∧ '[' ∉ front ∧
        ']' ∉ back ∧ bracketed lines = some inside := by
  intro line lines
  have hline : '\n' ∉ line := by decide
  have hsplit : lines.splitOn '\n' = ["] [".toList, "(x [y] z".toList, "[w]".toList] := by decide
  have hearlier : ¬HasSpan "] [".toList := widestSpan_eq_none_iff.mp (by decide)
  have hspan : HasSpan "(x [y] z".toList := ⟨"(x ".toList, ['y'], " z".toList, rfl⟩
  obtain ⟨-, -, -, -, hone⟩ := bracketed_finds_widest_span line
  obtain ⟨-, -, -, hmany, -⟩ := bracketed_finds_widest_span lines
  refine ⟨hline, ((hone hline).1 _).mpr ?_, hsplit, hearlier, hspan, ?_⟩
  · exact ⟨"a] ".toList, " d".toList, rfl, by decide, by decide⟩
  · exact hmany ["] [".toList] _ ["[w]".toList] hsplit (by simpa using hearlier) hspan

end PinnedDeps.CommitNote
