import PinnedDeps.Proofs.Grammar.Soundness

/-! How deep expressions nest. An expression nests as its brackets do, and no token stands behind
more open brackets than may be open; so no value of a statement that is parsed nests deeper. -/

namespace PinnedDeps

mutual

/-- How many brackets of the expression stand in each other. Those of a look-up count; parentheses
around an expression leave no trace and do not. -/
def Expr.nesting : Expr → Nat
  | .list _ items => nestingItems items + 1
  | .map _ entries => nestingEntries entries + 1
  | .sum _ first rest => max first.nesting (nestingOperands rest)
  | .var _ argument => argument.nesting + 1
  | _ => 0

def Expr.nestingItems : List Expr → Nat
  | [] => 0
  | item :: rest => max item.nesting (nestingItems rest)

def Expr.nestingEntries : List (Expr × Expr) → Nat
  | [] => 0
  | (key, value) :: rest => max (max key.nesting value.nesting) (nestingEntries rest)

def Expr.nestingOperands : List (Position × Expr) → Nat
  | [] => 0
  | (_, operand) :: rest => max operand.nesting (nestingOperands rest)

end

namespace Grammar

theorem nesting_sumTree (first : Expr) (rest : List (Position × Expr)) :
    (sumTree first rest).nesting = max first.nesting (Expr.nestingOperands rest) := by
  cases rest with
  | nil => simp [sumTree, Expr.nestingOperands]
  | cons operand rest =>
    obtain ⟨plus, operand⟩ := operand
    rw [sumTree, Expr.nesting]

mutual

/-- Behind so many open brackets, an operand nests as deep as is still allowed. -/
theorem Primary.nesting_tree (p : Primary) {depth : Nat} (h : NestedWithin depth p.tokens) :
    depth + p.tree.nesting ≤ maxNesting := by
  cases p with
  | strings pos text more => exact h.1
  | integer pos value => exact h.1
  | constant pos constant => cases constant <;> exact h.1
  | map opening entries closing =>
    rw [Primary.tokens, nestedWithin_cons, nestedWithin_append] at h
    simp only [Lexeme.depthAfter] at h
    have hinner := entries.nesting_trees h.2.1 h.1
    rw [Primary.tree, Expr.nesting]
    omega
  | list opening items closing =>
    rw [Primary.tokens, nestedWithin_cons, nestedWithin_append] at h
    simp only [Lexeme.depthAfter] at h
    have hinner := items.nesting_trees h.2.1 h.1
    rw [Primary.tree, Expr.nesting]
    omega
  | paren opening inner closing =>
    rw [Primary.tokens, nestedWithin_cons, nestedWithin_append] at h
    simp only [Lexeme.depthAfter] at h
    have hinner := inner.nesting_tree h.2.1
    rw [Primary.tree]
    omega
  | var name opening argument closing =>
    rw [Primary.tokens, nestedWithin_cons, nestedWithin_cons, nestedWithin_append] at h
    simp only [Lexeme.depthAfter] at h
    have hinner := argument.nesting_tree h.2.2.1
    rw [Primary.tree, Expr.nesting]
    omega

theorem Expression.nesting_tree (x : Expression) {depth : Nat} (h : NestedWithin depth x.tokens) :
    depth + x.tree.nesting ≤ maxNesting := by
  obtain ⟨first, rest⟩ := x
  rw [Expression.tokens, nestedWithin_append, first.depthBehind_tokens] at h
  have hfirst := first.nesting_tree h.1
  have hrest := rest.nesting_trees h.2 (by omega)
  rw [Expression.tree, nesting_sumTree]
  omega

theorem Summands.nesting_trees (s : Summands) {depth : Nat} (h : NestedWithin depth s.tokens)
    (hd : depth ≤ maxNesting) : depth + Expr.nestingOperands s.trees ≤ maxNesting := by
  cases s with
  | done => exact hd
  | plus pos operand rest =>
    rw [Summands.tokens, nestedWithin_cons, nestedWithin_append, operand.depthBehind_tokens] at h
    simp only [Lexeme.depthAfter] at h
    have hoperand := operand.nesting_tree h.2.1
    have hrest := rest.nesting_trees h.2.2 hd
    rw [Summands.trees, Expr.nestingOperands]
    omega

theorem Items.nesting_trees (items : Items) {depth : Nat} (h : NestedWithin depth items.tokens)
    (hd : depth ≤ maxNesting) : depth + Expr.nestingItems items.trees ≤ maxNesting := by
  cases items with
  | empty => exact hd
  | first item rest =>
    rw [Items.tokens, nestedWithin_append, item.depthBehind_tokens] at h
    have hitem := item.nesting_tree h.1
    have hrest := rest.nesting_trees h.2 hd
    rw [Items.trees, Expr.nestingItems]
    omega

theorem MoreItems.nesting_trees (items : MoreItems) {depth : Nat}
    (h : NestedWithin depth items.tokens) (hd : depth ≤ maxNesting) :
    depth + Expr.nestingItems items.trees ≤ maxNesting := by
  cases items with
  | done => exact hd
  | comma pos => exact hd
  | next comma item rest =>
    rw [MoreItems.tokens, nestedWithin_cons, nestedWithin_append, item.depthBehind_tokens] at h
    simp only [Lexeme.depthAfter] at h
    have hitem := item.nesting_tree h.2.1
    have hrest := rest.nesting_trees h.2.2 hd
    rw [MoreItems.trees, Expr.nestingItems]
    omega

theorem Entries.nesting_trees (entries : Entries) {depth : Nat}
    (h : NestedWithin depth entries.tokens) (hd : depth ≤ maxNesting) :
    depth + Expr.nestingEntries entries.trees ≤ maxNesting := by
  cases entries with
  | empty => exact hd
  | first key colon value rest =>
    rw [Entries.tokens, nestedWithin_append, nestedWithin_cons, nestedWithin_append,
      key.depthBehind_tokens] at h
    obtain ⟨hkey, -, hvalue, hrest⟩ := h
    simp only [Lexeme.depthAfter, value.depthBehind_tokens] at hvalue hrest
    have hkey := key.nesting_tree hkey
    have hvalue := value.nesting_tree hvalue
    have hrest := rest.nesting_trees hrest hd
    rw [Entries.trees, Expr.nestingEntries]
    omega

theorem MoreEntries.nesting_trees (entries : MoreEntries) {depth : Nat}
    (h : NestedWithin depth entries.tokens) (hd : depth ≤ maxNesting) :
    depth + Expr.nestingEntries entries.trees ≤ maxNesting := by
  cases entries with
  | done => exact hd
  | comma pos => exact hd
  | next comma key colon value rest =>
    rw [MoreEntries.tokens, nestedWithin_cons, nestedWithin_append, nestedWithin_cons,
      nestedWithin_append, key.depthBehind_tokens] at h
    obtain ⟨-, hkey, -, hvalue, hrest⟩ := h
    simp only [Lexeme.depthAfter, value.depthBehind_tokens] at hkey hvalue hrest
    have hkey := key.nesting_tree hkey
    have hvalue := value.nesting_tree hvalue
    have hrest := rest.nesting_trees hrest hd
    rw [MoreEntries.trees, Expr.nestingEntries]
    omega

end

theorem Assignment.nesting_tree (a : Assignment) (h : NestedWithin 0 a.tokens) :
    a.tree.value.nesting ≤ maxNesting := by
  rw [Assignment.tokens, nestedWithin_cons, nestedWithin_cons] at h
  simp only [Lexeme.depthAfter] at h
  have hvalue := a.value.nesting_tree h.2.2
  rwa [Nat.zero_add] at hvalue

theorem Program.nesting_statements (d : Program) (h : NestedWithin 0 d.tokens) :
    ∀ s ∈ d.statements, s.value.nesting ≤ maxNesting := by
  induction d with
  | stop pos => simp [Program.statements]
  | blank separator rest ih =>
    rw [Program.tokens] at h
    exact ih ((separator.nestedWithin_cons_token 0 _).mp h).2
  | statement assignment separator rest ih =>
    rw [Program.tokens, nestedWithin_append, assignment.depthBehind_tokens] at h
    exact List.forall_mem_cons.mpr ⟨assignment.nesting_tree h.1,
      ih ((separator.nestedWithin_cons_token 0 _).mp h.2).2⟩
  | last assignment pos =>
    rw [Program.tokens, nestedWithin_append] at h
    exact List.forall_mem_singleton.mpr (assignment.nesting_tree h.1)

end Grammar

open Reader Grammar

/-- The values of statements that are parsed nest no deeper than brackets may. -/
theorem nesting_of_parse {body : List Token} {stop : Position} {program : List Statement}
    (hb : ∀ t ∈ body, t.item ≠ .eof) (h : parse (body ++ [⟨stop, .eof⟩]) = .ok program) :
    ∀ s ∈ program, s.value.nesting ≤ maxNesting := by
  obtain ⟨r, hr, rfl⟩ := exists_of_map_eq_ok h
  obtain ⟨d, hd, hs⟩ := Partial.readAll_sound ⟨.start, .outside⟩ hb hr
  have hn : NestedWithin 0 (body ++ [⟨stop, .eof⟩]) :=
    nestedWithin_of_readAll hb hr (Nat.zero_le _)
  have htokens : d.tokens = body ++ [⟨stop, .eof⟩] := hd
  rw [← htokens] at hn
  rw [← hs, List.reverse_reverse]
  exact d.nesting_statements hn

end PinnedDeps
