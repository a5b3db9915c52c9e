import PinnedDeps.Proofs.Evaluation.Lines
import PinnedDeps.Proofs.Syntax.Nesting

/-! How deep evaluated values nest. The limit on open brackets bounds what a text writes out, but a
look-up stands for a value that was built before: each assignment of `vars` can put what the last
one gave two brackets short of the limit deeper. So the bound grows with the number of these
assignments, and for every number there is a text that reaches it. -/

namespace PinnedDeps

namespace Value

theorem nestingItems_append (a b : List Value) :
    nestingItems (a ++ b) = max (nestingItems a) (nestingItems b) := by
  induction a with
  | nil => simp [nestingItems]
  | cons item a ih => rw [List.cons_append, nestingItems, nestingItems, ih, Nat.max_assoc]

theorem nestingEntries_le_iff {entries : List (String × Value)} {n : Nat} :
    nestingEntries entries ≤ n ↔ ∀ entry ∈ entries, entry.2.nesting ≤ n := by
  induction entries with
  | nil => simp [nestingEntries]
  | cons entry entries ih => rw [nestingEntries, Nat.max_le, ih, List.forall_mem_cons]

end Value

namespace Evaluation

open Value

variable {platform : Platform} {vars : Dict Value} {more : Nat}

mutual

/-- A look-up counts as one bracket, so where the variables nest at most one and `more` deep, a
value nests at most `more` deeper than its expression. -/
theorem Evaluates.yields_nesting (hvars : nestingEntries vars ≤ more + 1) {e : Expr}
    {outcome : Except EvalError Value} :
    Evaluates platform vars e outcome → Yields (fun v => v.nesting ≤ e.nesting + more) outcome
  | .str => yields_ok (Nat.zero_le _)
  | .int => yields_ok (Nat.zero_le _)
  | .bool => yields_ok (Nat.zero_le _)
  | .none => yields_ok (Nat.zero_le _)
  | .list h => (h.yields_nesting hvars).map fun items hi => by
    rw [Value.nesting, Expr.nesting]
    omega
  | .map h ha hg => by
    have hp := nestingEntries_le_iff.mp (h.yields_nesting hvars _ rfl)
    refine yields_ok ?_
    rw [Value.nesting, Expr.nesting, Nat.add_right_comm, Nat.add_le_add_iff_right,
      nestingEntries_le_iff]
    intro entry he
    have hget := Dict.get?_of_mem ha he
    rw [hg] at hget
    exact hp entry (List.mem_reverse.mp (Dict.mem_of_get? hget))
  | .mapFails _ => yields_error
  | .sum h hs => by
    have hfirst := h.yields_nesting hvars _ rfl
    intro value hvalue
    have hsum := hs.yields_nesting hvars value hvalue
    rw [Expr.nesting]
    omega
  | .sumFails _ => yields_error
  | .varBound _ hv => by
    have hvalue := nestingEntries_le_iff.mp hvars _ (Dict.mem_of_get? hv)
    refine yields_ok (Nat.le_trans hvalue ?_)
    rw [Expr.nesting]
    omega
  | .varOfPlatform _ _ _ => yields_ok (Nat.zero_le _)
  | .varUndefined _ _ _ => yields_error
  | .varKind _ _ => yields_error
  | .varFails _ => yields_error

theorem EvaluatesItems.yields_nesting (hvars : nestingEntries vars ≤ more + 1) {items : List Expr}
    {outcome : Except EvalError (List Value)} :
    EvaluatesItems platform vars items outcome →
      Yields (fun values => nestingItems values ≤ Expr.nestingItems items + more) outcome
  | .nil => yields_ok (Nat.zero_le _)
  | .cons h hr => (hr.yields_nesting hvars).map fun values hvalues => by
    have hvalue := h.yields_nesting hvars _ rfl
    rw [Value.nestingItems, Expr.nestingItems]
    omega
  | .fails _ => yields_error

theorem EvaluatesEntries.yields_nesting (hvars : nestingEntries vars ≤ more + 1)
    {entries : List (Expr × Expr)} {outcome : Except EvalError (List (String × Value))} :
    EvaluatesEntries platform vars entries outcome →
      Yields (fun pairs => nestingEntries pairs ≤ Expr.nestingEntries entries + more) outcome
  | .nil => yields_ok (Nat.zero_le _)
  | .cons _ hv hr => (hr.yields_nesting hvars).map fun pairs hpairs => by
    have hvalue := hv.yields_nesting hvars _ rfl
    rw [Value.nestingEntries, Expr.nestingEntries]
    omega
  | .keyFails _ => yields_error
  | .keyKind _ _ => yields_error
  | .valueFails _ _ => yields_error

theorem EvaluatesSum.yields_nesting (hvars : nestingEntries vars ≤ more + 1) {left : Value}
    {rest : List (Position × Expr)} {outcome : Except EvalError Value} :
    EvaluatesSum platform vars left rest outcome →
      Yields (fun v => v.nesting ≤ max left.nesting (Expr.nestingOperands rest + more)) outcome
  | .nil => yields_ok (Nat.le_max_left _ _)
  | .strings _ hr => by
    intro value hvalue
    have hsum := hr.yields_nesting hvars value hvalue
    rw [Expr.nestingOperands]
    simp only [Value.nesting] at hsum ⊢
    omega
  | .lists h hr => by
    have hoperand := h.yields_nesting hvars _ rfl
    intro value hvalue
    have hsum := hr.yields_nesting hvars value hvalue
    rw [Expr.nestingOperands]
    simp only [Value.nesting, nestingItems_append] at hoperand hsum ⊢
    omega
  | .kinds _ _ => yields_error
  | .fails _ => yields_error

end

/-! ### Runs -/

/-- How many of the statements assign the variables. -/
def rebindings (program : List Statement) : Nat := program.countP fun s => s.target = "vars"

/-- How deep the variables nest at most after so many assignments of them. -/
def growth (rebindings : Nat) : Nat := (maxNesting - 2) * rebindings

theorem rebindings_append (a b : List Statement) :
    rebindings (a ++ b) = rebindings a + rebindings b := List.countP_append

theorem growth_succ (n : Nat) : growth (n + 1) = growth n + (maxNesting - 2) := Nat.mul_succ _ _

theorem growth_mono {m n : Nat} (h : m ≤ n) : growth m ≤ growth n := Nat.mul_le_mul_left _ h

/-- In a valid history, the values nest at most `growth` deeper than brackets may, and the variables
one less, the mapping around them left out. -/
theorem History.Valid.nesting {h : History} (hv : h.Valid platform)
    (hs : ∀ entry ∈ h, entry.1.value.nesting ≤ maxNesting) :
    (∀ entry ∈ h, entry.2.nesting ≤ maxNesting + growth (rebindings (h.map Prod.fst))) ∧
      ∀ vars, h.Binds "vars" vars →
        nestingEntries vars ≤ growth (rebindings (h.map Prod.fst)) + 1 := by
  induction h using List.reverseRecOn with
  | nil =>
    refine ⟨by simp, fun vars hb => ?_⟩
    rcases hb with hb | ⟨-, rfl⟩
    · cases hb
    · exact Nat.zero_le _
  | append_singleton h last ih =>
    obtain ⟨s, value⟩ := last
    obtain ⟨hvalues, hbound⟩ := ih hv.of_append fun entry he => hs entry (List.mem_append_left _ he)
    obtain ⟨vars, hb, he, -⟩ := hv h s value [] rfl
    have hlast : value.nesting ≤ maxNesting + growth (rebindings (h.map Prod.fst)) := by
      have hvalue := he.yields_nesting (hbound vars hb) value rfl
      have hexpr : s.value.nesting ≤ maxNesting := hs (s, value) (by simp)
      omega
    rw [List.map_append, rebindings_append]
    have hmono := growth_mono (Nat.le_add_right (rebindings (h.map Prod.fst))
      (rebindings ([(s, value)].map Prod.fst)))
    refine ⟨fun entry hentry => ?_, fun vars' hb' => ?_⟩
    · rcases List.mem_append.mp hentry with hentry | hentry
      · exact Nat.le_trans (hvalues entry hentry) (Nat.add_le_add_left hmono _)
      · obtain rfl := List.mem_singleton.mp hentry
        exact Nat.le_trans hlast (Nat.add_le_add_left hmono _)
    · unfold History.Binds at hb'
      rw [last?_append_singleton] at hb'
      by_cases ht : "vars" = s.target
      · -- the new variables are the value of this statement without the mapping around them
        simp only [if_pos ht] at hb'
        obtain rfl : value = .map vars' := by simpa using hb'
        rw [Value.nesting] at hlast
        have hone : rebindings ([(s, Value.map vars')].map Prod.fst) = 1 := by
          simp [rebindings, ← ht]
        rw [hone, growth_succ]
        have hmax : maxNesting = 100 := rfl
        omega
      · simp only [if_neg ht] at hb'
        exact Nat.le_trans (hbound vars' hb') (Nat.add_le_add_right hmono 1)

theorem nesting_of_run {program : List Statement} {d : DepsFile}
    (hs : ∀ s ∈ program, s.value.nesting ≤ maxNesting)
    (h : (run platform program).outcome = .ok d) :
    ∀ binding ∈ d.bindings, binding.2.nesting ≤ maxNesting + growth (rebindings program) := by
  obtain ⟨history, rfl, hv, hd⟩ := exists_history_of_run h
  have hvalues := (hv.nesting fun entry he => hs entry.1 (List.mem_map_of_mem he)).1
  have hempty : (Value.map []).nesting ≤ maxNesting := by decide
  exact hd.forall_bindings (P := fun v => v.nesting ≤ _)
    (Nat.le_trans hempty (Nat.le_add_right _ _)) hvalues

theorem nesting_of_statementsOf {text : String} {program : List Statement}
    (h : statementsOf text = .ok program) : ∀ s ∈ program, s.value.nesting ≤ maxNesting := by
  obtain ⟨tokens, htokens, hp⟩ := exists_of_bind_eq_ok h
  obtain ⟨done, rfl, he, -⟩ := Lexer.exists_tokensFrom_append htokens rfl (by simp)
  exact nesting_of_parse (fun t ht => he t (List.mem_reverse.mp ht)) hp

/-- Where a text evaluates, its values nest at most two brackets short of the limit deeper for each
assignment of `vars`. -/
theorem nesting_of_evaluate {source text : String} {program : List Statement} {d : DepsFile}
    (hp : statementsOf text = .ok program)
    (h : (evaluate platform source text).outcome = .ok d) :
    ∀ binding ∈ d.bindings, binding.2.nesting ≤ maxNesting + growth (rebindings program) := by
  rw [Lines.outcome_evaluate_eq, hp] at h
  exact nesting_of_run (nesting_of_statementsOf hp) h

end Evaluation

end PinnedDeps
