/-! Cutting texts at a character: at its first place, at its last place, or at every place. -/

namespace PinnedDeps.Text

/-- What stands before and after the first `c`. -/
def cutFirst (c : Char) (cs : List Char) : Option (List Char × List Char) :=
  match cs.dropWhile (· ≠ c) with
  | [] => none
  | _ :: after => some (cs.takeWhile (· ≠ c), after)

/-- What stands before and after the last `c`. -/
def cutLast (c : Char) (cs : List Char) : Option (List Char × List Char) :=
  (cutFirst c cs.reverse).map fun (after, before) => (before.reverse, after.reverse)

/-- The pieces between the places of `c`, of which there is one more than places; `piece` is the
reverse of what the first piece starts with. -/
def piecesOnto (c : Char) (piece : List Char) : List Char → List (List Char)
  | [] => [piece.reverse]
  | d :: rest =>
    if d = c then piece.reverse :: piecesOnto c [] rest else piecesOnto c (d :: piece) rest

def pieces (c : Char) (cs : List Char) : List (List Char) := piecesOnto c [] cs

theorem cutFirst_nil (c : Char) : cutFirst c [] = none := rfl

theorem cutFirst_cons (c d : Char) (cs : List Char) :
    cutFirst c (d :: cs) =
      if d = c then some ([], cs) else (cutFirst c cs).map fun (b, a) => (d :: b, a) := by
  by_cases h : d = c
  · simp [cutFirst, h]
  · simp only [cutFirst, h, List.dropWhile_cons, List.takeWhile_cons, ne_eq, not_false_eq_true,
      decide_true, if_true, if_false]
    split <;> rfl

theorem cutFirst_eq_some {c : Char} {cs before after : List Char}
    (h : cutFirst c cs = some (before, after)) : cs = before ++ c :: after ∧ c ∉ before := by
  induction cs generalizing before with
  | nil => simp [cutFirst_nil] at h
  | cons d cs ih =>
    rw [cutFirst_cons] at h
    split at h
    · simp_all
    · next hd =>
      simp only [Option.map_eq_some_iff] at h
      obtain ⟨⟨b, a⟩, hb, heq⟩ := h
      simp only [Prod.mk.injEq] at heq
      obtain ⟨rfl, rfl⟩ := heq
      obtain ⟨rfl, hn⟩ := ih hb
      exact ⟨rfl, by simp [hn, Ne.symm hd]⟩

theorem cutFirst_append_cons {c : Char} {before : List Char} (h : c ∉ before) (after : List Char) :
    cutFirst c (before ++ c :: after) = some (before, after) := by
  induction before with
  | nil => rw [List.nil_append, cutFirst_cons, if_pos rfl]
  | cons d before ih =>
    rw [List.mem_cons, not_or] at h
    rw [List.cons_append, cutFirst_cons, if_neg (Ne.symm h.1), ih h.2]
    rfl

theorem cutFirst_eq_none {c : Char} {cs : List Char} (h : cutFirst c cs = none) : c ∉ cs := by
  induction cs with
  | nil => exact List.not_mem_nil
  | cons d cs ih =>
    rw [cutFirst_cons] at h
    split at h
    · cases h
    · next hd => simp [Ne.symm hd, ih (Option.map_eq_none_iff.mp h)]

theorem cutFirst_of_not_mem {c : Char} {cs : List Char} (h : c ∉ cs) : cutFirst c cs = none := by
  cases hc : cutFirst c cs with
  | none => rfl
  | some cut =>
    obtain ⟨hcs, -⟩ := cutFirst_eq_some hc
    exact absurd (hcs ▸ List.mem_append_right _ List.mem_cons_self) h

theorem cutLast_eq_some {c : Char} {cs before after : List Char}
    (h : cutLast c cs = some (before, after)) : cs = before ++ c :: after ∧ c ∉ after := by
  simp only [cutLast, Option.map_eq_some_iff] at h
  obtain ⟨⟨a, b⟩, hab, heq⟩ := h
  obtain ⟨hcs, hn⟩ := cutFirst_eq_some hab
  simp only [Prod.mk.injEq] at heq
  obtain ⟨rfl, rfl⟩ := heq
  refine ⟨?_, by simpa using hn⟩
  rw [← List.reverse_reverse cs, hcs]; simp

theorem cutLast_append_cons {c : Char} {after : List Char} (h : c ∉ after) (before : List Char) :
    cutLast c (before ++ c :: after) = some (before, after) := by
  have hr : (before ++ c :: after).reverse = after.reverse ++ c :: before.reverse := by simp
  rw [cutLast, hr, cutFirst_append_cons (by simpa using h)]
  simp

theorem cutLast_eq_none {c : Char} {cs : List Char} (h : cutLast c cs = none) : c ∉ cs := by
  have hr : c ∉ cs.reverse := cutFirst_eq_none (Option.map_eq_none_iff.mp h)
  simpa using hr

theorem cutLast_of_not_mem {c : Char} {cs : List Char} (h : c ∉ cs) : cutLast c cs = none := by
  rw [cutLast, cutFirst_of_not_mem (by simpa using h)]
  rfl

end PinnedDeps.Text
