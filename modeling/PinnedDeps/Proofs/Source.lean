import PinnedDeps.Source
import Mathlib.Data.List.Induction

/-! Lines and columns by counting. The places that are handed from one character to the next are
those that one gets by counting, in what stands before a character, the line feeds and the
characters behind the last of them. -/

namespace PinnedDeps.Source

/-- The line and the column, both counted from one, at an offset in a text: one more than the line
feeds before it, and one more than the characters since the last of these. -/
def placeAt (cs : List Char) (offset : Nat) : Position where
  line := 1 + (cs.take offset).count '\n'
  column := 1 + ((cs.take offset).reverse.takeWhile (· ≠ '\n')).length

theorem afterAll_append (p : Position) (front behind : List Char) :
    p.afterAll (front ++ behind) = (p.afterAll front).afterAll behind := List.foldl_append

/-- By the last character: a line feed starts a new line, any other moves on in the same one. -/
theorem afterAll_eq_placeAt (cs : List Char) :
    Position.start.afterAll cs = placeAt cs cs.length := by
  unfold placeAt
  rw [List.take_length]
  induction cs using List.reverseRecOn with
  | nil => rfl
  | append_singleton cs c ih =>
    have hlast : Position.start.afterAll (cs ++ [c]) = (Position.start.afterAll cs).after c :=
      afterAll_append _ cs [c]
    rw [hlast, ih, Position.after]
    by_cases hc : c = '\n'
    · simp [hc, Nat.add_assoc]
    · simp [hc, Nat.add_comm 1]

theorem placeAt_append (front behind : List Char) :
    placeAt (front ++ behind) front.length = Position.start.afterAll front := by
  rw [afterAll_eq_placeAt, placeAt, placeAt, List.take_left, List.take_length]

/-- Every character of a text stands at an offset in it. -/
theorem exists_offset_of_mem_locate {cs : List Char} {c : Located Char} {p : Position}
    (h : c ∈ locate p cs) : ∃ k < cs.length, c.pos = p.afterAll (cs.take k) := by
  induction cs generalizing p with
  | nil => cases h
  | cons d cs ih =>
    rw [locate_cons] at h
    rcases List.mem_cons.mp h with rfl | h
    · exact ⟨0, Nat.succ_pos _, rfl⟩
    · obtain ⟨k, hk, hpos⟩ := ih h
      exact ⟨k + 1, Nat.succ_lt_succ hk, hpos⟩

/-- Line feeds, the characters between them, and the end. -/
example : (List.range 6).map (placeAt ['a', '\n', '\n', 'b', 'c']) =
    [⟨1, 1⟩, ⟨1, 2⟩, ⟨2, 1⟩, ⟨3, 1⟩, ⟨3, 2⟩, ⟨3, 3⟩] := by
  decide

end PinnedDeps.Source
