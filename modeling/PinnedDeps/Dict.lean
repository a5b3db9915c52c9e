/-! Mappings from strings, kept as a list of pairs in ascending order of their keys, each key
once. Strings compare by code points. -/

namespace PinnedDeps

abbrev Dict (α : Type) := List (String × α)

namespace Dict

variable {α : Type}

/-- What the key is bound to. -/
def get? : Dict α → String → Option α
  | [], _ => none
  | (k, v) :: rest, key => if key = k then some v else get? rest key

def keys (d : Dict α) : List String := d.map Prod.fst

def values (d : Dict α) : List α := d.map Prod.snd

/-- Binds `key`, in place of what it was bound to. -/
def insert (key : String) (value : α) : Dict α → Dict α
  | [] => [(key, value)]
  | (k, v) :: rest =>
    if key < k then (key, value) :: (k, v) :: rest
    else if key = k then (key, value) :: rest
    else (k, v) :: insert key value rest

/-- Unbinds `key`. -/
def erase (d : Dict α) (key : String) : Dict α := d.filter fun pair => pair.1 ≠ key

/-- The mapping of a list of pairs, in which a later pair replaces an earlier one. -/
def ofPairs (pairs : List (String × α)) : Dict α :=
  pairs.foldl (fun d pair => d.insert pair.1 pair.2) []

theorem get?_insert (d : Dict α) (key : String) (value : α) (x : String) :
    (d.insert key value).get? x = if x = key then some value else d.get? x := by
  induction d with
  | nil => simp [insert, get?]
  | cons pair rest ih =>
    simp only [insert]
    split
    · simp [get?]
    · split
      · next hk => subst hk; by_cases h : x = pair.1 <;> simp [get?, h]
      · next hk =>
        simp only [get?, ih]
        by_cases h : x = pair.1
        · rw [if_pos h, if_neg (h ▸ Ne.symm hk), if_pos h]
        · rw [if_neg h, if_neg h]

end Dict

end PinnedDeps
