import PinnedDeps.Value

/-! Values seen as trees: how deep lists and mappings are nested in them, and what holds of all the
values in one. -/

namespace PinnedDeps.Value

mutual

/-- How many lists and mappings stand in each other, the value itself included. -/
def nesting : Value → Nat
  | .list items => nestingItems items + 1
  | .map entries => nestingEntries entries + 1
  | _ => 0

def nestingItems : List Value → Nat
  | [] => 0
  | item :: rest => max item.nesting (nestingItems rest)

def nestingEntries : List (String × Value) → Nat
  | [] => 0
  | (_, value) :: rest => max value.nesting (nestingEntries rest)

end

mutual

/-- The property holds of the value and of all values in it. -/
def Everywhere (P : Value → Prop) : Value → Prop
  | .list items => P (.list items) ∧ EverywhereItems P items
  | .map entries => P (.map entries) ∧ EverywhereEntries P entries
  | value => P value

def EverywhereItems (P : Value → Prop) : List Value → Prop
  | [] => True
  | item :: rest => item.Everywhere P ∧ EverywhereItems P rest

def EverywhereEntries (P : Value → Prop) : List (String × Value) → Prop
  | [] => True
  | (_, value) :: rest => value.Everywhere P ∧ EverywhereEntries P rest

end

theorem displayItems_eq_map (items : List Value) : displayItems items = items.map display := by
  induction items with
  | nil => rfl
  | cons item rest ih => rw [displayItems, ih, List.map_cons]

theorem displayEntries_eq_map (entries : List (String × Value)) :
    displayEntries entries =
      entries.map fun entry => quoted entry.1 ++ ": " ++ entry.2.display := by
  induction entries with
  | nil => rfl
  | cons entry rest ih => rw [displayEntries, ih, List.map_cons]

end PinnedDeps.Value
