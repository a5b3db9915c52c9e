import PinnedDeps.Dict

/-! Mappings in ascending order of their keys. What is bound is told by look-up alone: two such
mappings with the same look-ups are equal, so everything that is said of them is said of `get?`. -/

namespace PinnedDeps.Dict

variable {α : Type} {d e : Dict α} {key k : String} {value v : α}

/-- The keys stand in ascending order, each once. -/
def Ascending (d : Dict α) : Prop := d.Pairwise fun a b => a.1 < b.1

theorem ascending_nil : Ascending ([] : Dict α) := List.Pairwise.nil

theorem ascending_cons : Ascending ((k, v) :: d) ↔ (∀ pair ∈ d, k < pair.1) ∧ Ascending d :=
  List.pairwise_cons

/-! ### Binding -/

theorem mem_insert {pair : String × α} (h : pair ∈ d.insert key value) :
    pair = (key, value) ∨ pair ∈ d := by
  induction d with
  | nil => simpa [insert] using h
  | cons first rest ih =>
    obtain ⟨k, v⟩ := first
    rw [insert] at h
    split at h
    · simpa using h
    · split at h
      · rcases List.mem_cons.mp h with h | h
        · exact .inl h
        · exact .inr (List.mem_cons_of_mem _ h)
      · rcases List.mem_cons.mp h with h | h
        · exact .inr (h ▸ List.mem_cons_self)
        · rcases ih h with h | h
          · exact .inl h
          · exact .inr (List.mem_cons_of_mem _ h)

theorem lt_of_not_lt_of_ne {a b : String} (h : ¬a < b) (hne : a ≠ b) : b < a := by
  by_cases hb : b < a
  · exact hb
  · exact absurd (String.le_antisymm (String.not_lt.mp hb) (String.not_lt.mp h)) hne

theorem ascending_insert (h : Ascending d) (key : String) (value : α) :
    Ascending (d.insert key value) := by
  induction d with
  | nil => exact List.pairwise_singleton _ _
  | cons first rest ih =>
    obtain ⟨k, v⟩ := first
    obtain ⟨hk, hrest⟩ := ascending_cons.mp h
    rw [insert]
    split
    · next hlt =>
      refine ascending_cons.mpr ⟨?_, h⟩
      intro pair hp
      rcases List.mem_cons.mp hp with rfl | hp
      · exact hlt
      · exact String.lt_trans hlt (hk pair hp)
    · next hlt =>
      split
      · next heq =>
        subst heq
        exact ascending_cons.mpr ⟨hk, hrest⟩
      · next hne =>
        refine ascending_cons.mpr ⟨?_, ih hrest⟩
        intro pair hp
        rcases mem_insert hp with rfl | hp
        · exact lt_of_not_lt_of_ne hlt hne
        · exact hk pair hp

theorem ascending_foldl_insert (pairs : List (String × α)) (h : Ascending d) :
    Ascending (pairs.foldl (fun d pair => d.insert pair.1 pair.2) d) := by
  induction pairs generalizing d with
  | nil => exact h
  | cons pair pairs ih => exact ih (ascending_insert h pair.1 pair.2)

theorem ascending_ofPairs (pairs : List (String × α)) : Ascending (ofPairs pairs) :=
  ascending_foldl_insert pairs ascending_nil

theorem get?_append (d e : Dict α) (key : String) :
    get? (d ++ e) key = (d.get? key).or (e.get? key) := by
  induction d with
  | nil => rfl
  | cons first rest ih =>
    obtain ⟨k, v⟩ := first
    rw [List.cons_append, get?, get?, ih]
    split <;> rfl

theorem get?_foldl_insert (pairs : List (String × α)) (d : Dict α) (key : String) :
    get? (pairs.foldl (fun d pair => d.insert pair.1 pair.2) d) key =
      (get? pairs.reverse key).or (d.get? key) := by
  induction pairs generalizing d with
  | nil => rfl
  | cons pair pairs ih =>
    rw [List.foldl_cons, ih, get?_insert, List.reverse_cons, get?_append, Option.or_assoc]
    congr 1
    by_cases h : key = pair.1 <;> simp [get?, h]

/-- A key is bound to its last entry. -/
theorem get?_ofPairs (pairs : List (String × α)) (key : String) :
    (ofPairs pairs).get? key = get? pairs.reverse key := by
  rw [ofPairs, get?_foldl_insert]
  exact Option.or_none

/-! ### Unbinding -/

theorem get?_erase (d : Dict α) (key x : String) :
    (d.erase key).get? x = if x = key then none else d.get? x := by
  induction d with
  | nil => simp [erase, get?]
  | cons first rest ih =>
    obtain ⟨k, v⟩ := first
    rw [erase] at ih ⊢
    by_cases hk : k = key
    · rw [List.filter_cons_of_neg (by simpa using hk), ih, get?]
      by_cases hx : x = key
      · simp [hx]
      · rw [if_neg hx, if_neg hx, if_neg (hk ▸ hx)]
    · rw [List.filter_cons_of_pos (by simpa using hk), get?, get?, ih]
      by_cases hx : x = k
      · rw [if_pos hx, if_pos hx, if_neg (hx ▸ hk)]
      · rw [if_neg hx, if_neg hx]

theorem ascending_erase (h : Ascending d) (key : String) : Ascending (d.erase key) :=
  List.Pairwise.filter _ h

/-! ### Look-up tells all -/

theorem get?_of_forall_lt (h : ∀ pair ∈ d, key < pair.1) : d.get? key = none := by
  induction d with
  | nil => rfl
  | cons first rest ih =>
    obtain ⟨k, v⟩ := first
    have hk : key < k := h (k, v) List.mem_cons_self
    have hne : key ≠ k := by
      rintro rfl
      exact String.lt_irrefl key hk
    rw [get?, if_neg hne]
    exact ih fun pair hp => h pair (List.mem_cons_of_mem _ hp)

theorem mem_of_get? (h : d.get? key = some value) : (key, value) ∈ d := by
  induction d with
  | nil => cases h
  | cons first rest ih =>
    obtain ⟨k, v⟩ := first
    rw [get?] at h
    split at h
    · next hk =>
      obtain rfl := Option.some.inj h
      exact hk ▸ List.mem_cons_self
    · exact List.mem_cons_of_mem _ (ih h)

theorem get?_of_mem {pair : String × α} (hd : Ascending d) (h : pair ∈ d) :
    d.get? pair.1 = some pair.2 := by
  induction d with
  | nil => cases h
  | cons first rest ih =>
    obtain ⟨k, v⟩ := first
    obtain ⟨hk, hrest⟩ := ascending_cons.mp hd
    rw [get?]
    rcases List.mem_cons.mp h with rfl | h
    · exact if_pos rfl
    · have hne : pair.1 ≠ k := fun heq => String.lt_irrefl k (heq ▸ hk pair h)
      rw [if_neg hne]
      exact ih hrest h

theorem mem_keys_iff : key ∈ d.keys ↔ ∃ value, d.get? key = some value := by
  induction d with
  | nil => simp [keys, get?]
  | cons first rest ih =>
    obtain ⟨k, v⟩ := first
    rw [keys] at ih ⊢
    rw [List.map_cons, List.mem_cons, ih, get?]
    by_cases hk : key = k <;> simp [hk]

theorem Ascending.ext (hd : Ascending d) (he : Ascending e)
    (h : ∀ key, d.get? key = e.get? key) : d = e := by
  induction d generalizing e with
  | nil =>
    cases e with
    | nil => rfl
    | cons second others =>
      have := h second.1
      simp [get?] at this
  | cons first rest ih =>
    obtain ⟨k, v⟩ := first
    obtain ⟨hk, hrest⟩ := ascending_cons.mp hd
    cases e with
    | nil =>
      have := h k
      simp [get?] at this
    | cons second others =>
      obtain ⟨k', v'⟩ := second
      obtain ⟨hk', hothers⟩ := ascending_cons.mp he
      -- each first key is bound on the other side, so neither comes before the other
      have hkk : k = k' := by
        refine Classical.byContradiction fun hne => ?_
        have h₁ : get? others k = some v := by
          have := h k
          rwa [get?, if_pos rfl, get?, if_neg hne, eq_comm] at this
        have h₂ : get? rest k' = some v' := by
          have := h k'
          rwa [get?, if_neg (Ne.symm hne), get?, if_pos rfl] at this
        exact String.lt_asymm (hk' _ (mem_of_get? h₁)) (hk _ (mem_of_get? h₂))
      subst hkk
      have hv : v = v' := by
        have := h k
        simpa [get?] using this
      have hr : rest = others := by
        refine ih hrest hothers fun key => ?_
        by_cases hkey : key = k
        · rw [hkey, get?_of_forall_lt hk, get?_of_forall_lt hk']
        · have := h key
          rwa [get?, get?, if_neg hkey, if_neg hkey] at this
      rw [hv, hr]

/-- Different keys may be bound in either order. -/
theorem insert_comm (hd : Ascending d) (hne : key ≠ k) (value v : α) :
    (d.insert key value).insert k v = (d.insert k v).insert key value := by
  have hleft := ascending_insert (ascending_insert hd key value) k v
  have hright := ascending_insert (ascending_insert hd k v) key value
  refine hleft.ext hright fun x => ?_
  rw [get?_insert, get?_insert, get?_insert, get?_insert]
  by_cases hk : x = k
  · rw [if_pos hk, if_pos hk, if_neg fun hx => hne (hx.symm.trans hk)]
  · rw [if_neg hk, if_neg hk]

/-! ### Ascending pairs -/

theorem insert_of_forall_lt (h : ∀ pair ∈ d, pair.1 < key) (value : α) :
    d.insert key value = d ++ [(key, value)] := by
  induction d with
  | nil => rfl
  | cons first rest ih =>
    obtain ⟨k, v⟩ := first
    have hk : k < key := h (k, v) List.mem_cons_self
    have hne : key ≠ k := by
      rintro rfl
      exact String.lt_irrefl key hk
    rw [insert, if_neg (String.lt_asymm hk), if_neg hne,
      ih fun pair hp => h pair (List.mem_cons_of_mem _ hp)]
    rfl

theorem foldl_insert_of_ascending {pairs : List (String × α)} (h : Ascending (d ++ pairs)) :
    pairs.foldl (fun d pair => d.insert pair.1 pair.2) d = d ++ pairs := by
  induction pairs generalizing d with
  | nil => simp
  | cons pair pairs ih =>
    have hlast : ∀ other ∈ d, other.1 < pair.1 := fun other ho =>
      (List.pairwise_append.mp h).2.2 other ho pair List.mem_cons_self
    rw [List.foldl_cons, insert_of_forall_lt hlast, ih (by simpa using h)]
    simp

/-- Pairs that stand in order already are a mapping as they are. -/
theorem ofPairs_of_ascending {pairs : List (String × α)} (h : Ascending pairs) :
    ofPairs pairs = pairs :=
  foldl_insert_of_ascending h

end PinnedDeps.Dict
