import Mathlib.Data.List.Basic

/-! The two ways to end a line. Two readers that collect a text character by character, one from
lines that end in a line feed and one from the same lines with a carriage return before each line
feed, are compared by the texts they hold when both have lost the carriage returns before line
feeds. Once the second reader has kept a backslash or a carriage return that the first has not,
nothing that comes later makes the two equal again. -/

namespace PinnedDeps.Text

/-- A text with a carriage return before every line feed. -/
def withReturns (text : String) : String :=
  String.ofList (text.toList.flatMap fun c => if c = '\n' then ['\r', '\n'] else [c])

/-- Characters with every carriage return directly before a line feed taken out. -/
def withoutReturns : List Char → List Char
  | '\r' :: '\n' :: cs => '\n' :: withoutReturns cs
  | c :: cs => c :: withoutReturns cs
  | [] => []

theorem withoutReturns_cons {c : Char} {cs : List Char}
    (h : c ≠ '\r' ∨ cs.head? ≠ some '\n') : withoutReturns (c :: cs) = c :: withoutReturns cs := by
  rw [withoutReturns.eq_def]
  split
  · next heq =>
    cases heq
    simp at h
  · next heq =>
    cases heq
    rfl
  · next heq => cases heq

/-- No line ending lies across the seam of two texts. -/
theorem withoutReturns_append {a b : List Char}
    (h : a.getLast? ≠ some '\r' ∨ b.head? ≠ some '\n') :
    withoutReturns (a ++ b) = withoutReturns a ++ withoutReturns b := by
  fun_induction withoutReturns a with
  | case1 cs ih =>
    simp only [List.cons_append, withoutReturns]
    rw [ih]
    refine h.imp_left fun hlast heq => hlast ?_
    simp [List.getLast?_cons, heq]
  | case2 c cs hc ih =>
    rw [List.cons_append, withoutReturns_cons, List.cons_append, ih]
    · refine h.imp_left fun hlast heq => hlast ?_
      simp [List.getLast?_cons, heq]
    · by_contra hbad
      push Not at hbad
      obtain ⟨rfl, hhead⟩ := hbad
      cases cs with
      | nil => exact h.elim (fun h => h rfl) fun h => h hhead
      | cons d cs =>
        cases hhead
        exact hc cs rfl rfl
  | case3 => rfl

/-! ### A text collected from its end -/

/-- The characters collected in `done`, the last one first, without the carriage returns. -/
def settled (done : List Char) : List Char := withoutReturns done.reverse

theorem settled_push {c : Char} {done : List Char} (h : c ≠ '\n' ∨ done.head? ≠ some '\r') :
    settled (c :: done) = settled done ++ [c] := by
  have hone : withoutReturns [c] = [c] := withoutReturns_cons (.inr (by simp))
  rw [settled, List.reverse_cons, withoutReturns_append, settled, hone]
  rw [List.getLast?_reverse]
  exact h.symm.imp_right fun h => by simpa using h

theorem settled_line (done : List Char) :
    settled ('\n' :: '\r' :: done) = settled done ++ ['\n'] := by
  rw [settled, List.reverse_cons, List.reverse_cons, List.append_assoc, withoutReturns_append,
    settled]
  · rfl
  · exact .inr (by decide)

/-- Whether a character completes a line ending of two characters. -/
abbrev EndsPair (c : Char) (done : List Char) : Prop := c = '\n' ∧ done.head? = some '\r'

/-- A line feed takes the place of a carriage return that stands last. -/
theorem settled_cons (c : Char) (done : List Char) :
    settled (c :: done) =
      (if EndsPair c done then (settled done).dropLast else settled done) ++ [c] := by
  split
  · next h =>
    obtain ⟨rfl, hhead⟩ := h
    obtain ⟨done, rfl⟩ := List.head?_eq_some_iff.mp hhead
    rw [settled_line, settled_push (.inl (by decide)), List.dropLast_concat]
  · next h => exact settled_push (not_and_or.mp h)

/-- How many characters are kept that only one of two readers may have met. -/
def kept (done : List Char) : Nat := (settled done).countP fun c => c = '\\' || c = '\r'

theorem kept_push {c : Char} {done : List Char} (h : c ≠ '\n' ∨ done.head? ≠ some '\r') :
    kept (c :: done) = kept done + if c = '\\' ∨ c = '\r' then 1 else 0 := by
  rw [kept, settled_push h, List.countP_append, List.countP_singleton, kept]
  simp

theorem kept_line (done : List Char) : kept ('\n' :: '\r' :: done) = kept done := by
  rw [kept, settled_line, List.countP_append, kept]
  rfl

theorem kept_cons (c : Char) (done : List Char) :
    kept (c :: done) + (if EndsPair c done then 1 else 0) =
      kept done + if c = '\\' ∨ c = '\r' then 1 else 0 := by
  split
  · next h =>
    obtain ⟨rfl, hhead⟩ := h
    obtain ⟨done, rfl⟩ := List.head?_eq_some_iff.mp hhead
    rw [kept_line, kept_push (.inl (by decide))]
    rfl
  · next h => rw [kept_push (not_and_or.mp h), Nat.add_zero]

/-- What the reader of the lines with carriage returns holds, `done'`, beside what the reader of the
same lines without them holds. Either the two are alike, also for what comes next, or `done'` has
kept more. -/
structure Follows (alike : Prop) (done done' : List Char) : Prop where
  same : alike → done.head? = done'.head? ∧ settled done = settled done'
  more : ¬alike → kept done < kept done'
  head : done'.head? = some '\r' → done.head? = some '\r'

namespace Follows

variable {alike : Prop} {done done' : List Char}

theorem nil : Follows True [] [] := ⟨fun _ => ⟨rfl, rfl⟩, fun h => absurd trivial h, id⟩

theorem settled_iff (h : Follows alike done done') : settled done = settled done' ↔ alike := by
  refine ⟨fun heq => ?_, fun ha => (h.same ha).2⟩
  by_contra ha
  have hlt := h.more ha
  rw [kept, kept, heq] at hlt
  exact Nat.lt_irrefl _ hlt

theorem kept_le (h : Follows alike done done') : kept done ≤ kept done' := by
  by_cases ha : alike
  · exact Nat.le_of_eq (by rw [kept, kept, (h.same ha).2])
  · exact Nat.le_of_lt (h.more ha)

/-- Both readers go on with the same character. -/
theorem push (h : Follows alike done done') (c : Char) :
    Follows alike (c :: done) (c :: done') where
  same ha := by
    obtain ⟨hhead, hsettled⟩ := h.same ha
    simp only [settled_cons, EndsPair, hhead, hsettled, List.head?_cons, and_self]
  more ha := by
    have hlt := h.more ha
    have hkept := kept_cons c done
    have hkept' := kept_cons c done'
    -- a line feed never takes away a carriage return of the second reader alone
    by_cases hpair : EndsPair c done'
    · rw [if_pos hpair] at hkept'
      rw [if_pos ⟨hpair.1, h.head hpair.2⟩] at hkept
      omega
    · rw [if_neg hpair] at hkept'
      split at hkept <;> omega
  head := id

theorem append (h : Follows alike done done') (cs : List Char) :
    Follows alike (cs ++ done) (cs ++ done') := by
  induction cs with
  | nil => exact h
  | cons c cs ih => exact ih.push c

/-- Both readers come to the end of a line. They stay alike unless the carriage return of one of
them is taken for the other's own last character. -/
theorem line (h : Follows alike done done') :
    Follows (alike ∧ done.head? ≠ some '\r') ('\n' :: done) ('\n' :: '\r' :: done') where
  same ha := by
    rw [settled_push (.inr ha.2), settled_line, (h.same ha.1).2]
    exact ⟨rfl, rfl⟩
  more hb := by
    have hother : ¬('\n' = '\\' ∨ '\n' = '\r') := by decide
    have hkept := kept_cons '\n' done
    rw [if_neg hother] at hkept
    rw [kept_line]
    by_cases ha : alike
    · have hle := h.kept_le
      rw [if_pos ⟨rfl, not_not.mp fun hd => hb ⟨ha, hd⟩⟩] at hkept
      omega
    · have hlt := h.more ha
      omega
  head hd := absurd hd (by simp)

/-- Only the reader of the carriage returns keeps a backslash and the end of a line. -/
theorem joined (h : Follows alike done done') :
    Follows False done ('\n' :: '\r' :: '\\' :: done') where
  same hf := hf.elim
  more _ := by
    have hle := h.kept_le
    rw [kept_line, kept_push (.inl (by decide)), if_pos (.inl rfl)]
    omega
  head hd := absurd hd (by simp)

end Follows

end PinnedDeps.Text
