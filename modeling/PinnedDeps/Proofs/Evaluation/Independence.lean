import PinnedDeps.Proofs.Evaluation.Moved

/-! Which assignments count for which. A statement reads nothing but the variables in effect, so the
last value of a name depends on the statements that assign it and on those that assign `vars`; all
others may be left out. For the same reason neighbours that assign different names, neither of them
`vars`, may change places. -/

namespace PinnedDeps

namespace Evaluation

variable {platform : Platform} {vars scope scope' other : Dict Value} {s t : Statement}
  {names : List String}

/-! ### One statement -/

/-- With these variables in effect, the statement has the value, and its target takes it. -/
def Gives (platform : Platform) (vars : Dict Value) (s : Statement) (value : Value) : Prop :=
  (eval platform vars s.value).outcome = .ok value ∧ checkTarget s value = .ok ()

theorem step_eq_ok_iff :
    (step platform scope s).outcome = .ok scope' ↔
      ∃ value, Gives platform (varsOf scope) s value ∧ scope' = scope.insert s.target value := by
  rw [outcome_step, bind_eq_ok_iff]
  refine exists_congr fun value => ?_
  rw [bind_eq_ok_iff, Gives, and_assoc]
  refine and_congr_right fun _ => ?_
  constructor
  · rintro ⟨⟨⟩, hcheck, h⟩
    exact ⟨hcheck, (Except.ok.inj h).symm⟩
  · rintro ⟨hcheck, rfl⟩
    exact ⟨(), hcheck, rfl⟩

theorem runFrom_cons_eq_ok_iff {program : List Statement} :
    (runFrom platform (pure scope) (s :: program)).outcome = .ok scope' ↔
      ∃ value, Gives platform (varsOf scope) s value ∧
        (runFrom platform (pure (scope.insert s.target value)) program).outcome = .ok scope' := by
  rw [runFrom, outcome_runFrom_bind, Traced.outcome_bind, Traced.outcome_pure, ok_bind,
    bind_eq_ok_iff]
  constructor
  · rintro ⟨next, hstep, hrest⟩
    obtain ⟨value, hgives, rfl⟩ := step_eq_ok_iff.mp hstep
    exact ⟨value, hgives, hrest⟩
  · rintro ⟨value, hgives, hrest⟩
    exact ⟨_, step_eq_ok_iff.mpr ⟨value, hgives, rfl⟩, hrest⟩

theorem mappingOf_congr {name : String} (h : scope.get? name = other.get? name) :
    mappingOf scope name = mappingOf other name := by
  rw [mappingOf, mappingOf, h]

theorem varsOf_insert {name : String} (h : name ≠ "vars") (value : Value) :
    varsOf (scope.insert name value) = varsOf scope := by
  refine mappingOf_congr ?_
  rw [Dict.get?_insert, if_neg h.symm]

/-! ### Assignments that are left out -/

/-- The names are bound alike. -/
def Agree (names : List String) (scope other : Dict Value) : Prop :=
  ∀ name ∈ names, scope.get? name = other.get? name

theorem Agree.varsOf_eq (h : Agree names scope other) (hvars : "vars" ∈ names) :
    varsOf scope = varsOf other :=
  mappingOf_congr (h "vars" hvars)

theorem Agree.insert (h : Agree names scope other) (target : String) (value : Value) :
    Agree names (scope.insert target value) (other.insert target value) := by
  intro name hname
  rw [Dict.get?_insert, Dict.get?_insert, h name hname]

theorem Agree.insert_of_notMem (h : Agree names scope other) {target : String}
    (ht : target ∉ names) (value : Value) : Agree names (scope.insert target value) other := by
  intro name hname
  have hne : name ≠ target := fun heq => ht (heq ▸ hname)
  rw [Dict.get?_insert, if_neg hne, h name hname]

/-- The statements that assign one of the names. -/
def assigning (names : List String) (program : List Statement) : List Statement :=
  program.filter fun s => s.target ∈ names

/-- A run may leave out what assigns other names: the names are bound as they would have been. -/
theorem exists_runFrom_assigning {program : List Statement} (hvars : "vars" ∈ names)
    (hagree : Agree names scope other)
    (hrun : (runFrom platform (pure scope) program).outcome = .ok scope') :
    ∃ other', (runFrom platform (pure other) (assigning names program)).outcome = .ok other' ∧
      Agree names scope' other' := by
  induction program generalizing scope other with
  | nil =>
    obtain rfl : scope = scope' := Except.ok.inj hrun
    exact ⟨other, rfl, hagree⟩
  | cons s program ih =>
    obtain ⟨value, hgives, hrest⟩ := runFrom_cons_eq_ok_iff.mp hrun
    -- a statement that stays sees the same variables; one that goes binds none of the names
    by_cases hs : s.target ∈ names
    · obtain ⟨other', hother, hagree'⟩ := ih (hagree.insert s.target value) hrest
      rw [hagree.varsOf_eq hvars] at hgives
      refine ⟨other', ?_, hagree'⟩
      rw [assigning, List.filter_cons_of_pos (by simpa using hs)]
      exact runFrom_cons_eq_ok_iff.mpr ⟨value, hgives, hother⟩
    · obtain ⟨other', hother, hagree'⟩ := ih (hagree.insert_of_notMem hs value) hrest
      refine ⟨other', ?_, hagree'⟩
      rw [assigning, List.filter_cons_of_neg (by simpa using hs)]
      exact hother

/-- The statements with their places forgotten: only targets and expressions are left. -/
def placeless (program : List Statement) : List Statement :=
  program.map (·.moved fun _ => .start)

theorem runFrom_placeless {program : List Statement}
    (h : (runFrom platform (pure scope) program).outcome = .ok scope') :
    (runFrom platform (pure scope) (placeless program)).outcome = .ok scope' := by
  rw [placeless, outcome_runFrom_moved, h]
  rfl

/-- Two runs bind the names alike if they assign them, and `vars`, alike. -/
theorem agree_of_assigning {program program' : List Statement} (hvars : "vars" ∈ names)
    (h : placeless (assigning names program) = placeless (assigning names program'))
    (hrun : (runFrom platform (pure []) program).outcome = .ok scope)
    (hrun' : (runFrom platform (pure []) program').outcome = .ok scope') :
    Agree names scope scope' := by
  have hstart : Agree names [] [] := fun _ _ => rfl
  obtain ⟨kept, hkept, hagree⟩ := exists_runFrom_assigning hvars hstart hrun
  obtain ⟨kept', hkept', hagree'⟩ := exists_runFrom_assigning hvars hstart hrun'
  have hsame := runFrom_placeless hkept
  rw [h, runFrom_placeless hkept'] at hsame
  obtain rfl : kept' = kept := Except.ok.inj hsame
  intro name hname
  rw [hagree name hname, hagree' name hname]

theorem run_eq_ok_iff {program : List Statement} {file : DepsFile} :
    (run platform program).outcome = .ok file ↔
      ∃ scope, (runFrom platform (pure []) program).outcome = .ok scope ∧
        DepsFile.ofScope scope = file := by
  rw [outcome_run, bind_eq_ok_iff]
  simp only [Except.ok.injEq]

/-! ### Neighbours that change places -/

theorem ascending_runFrom {program : List Statement} (h : Dict.Ascending scope)
    (hrun : (runFrom platform (pure scope) program).outcome = .ok scope') :
    Dict.Ascending scope' := by
  induction program generalizing scope with
  | nil =>
    obtain rfl : scope = scope' := Except.ok.inj hrun
    exact h
  | cons s program ih =>
    obtain ⟨value, -, hrest⟩ := runFrom_cons_eq_ok_iff.mp hrun
    exact ih (Dict.ascending_insert h s.target value) hrest

theorem runFrom_append_eq_ok_iff {program more : List Statement} :
    (runFrom platform (pure scope) (program ++ more)).outcome = .ok scope' ↔
      ∃ between, (runFrom platform (pure scope) program).outcome = .ok between ∧
        (runFrom platform (pure between) more).outcome = .ok scope' := by
  rw [runFrom_append, outcome_runFrom_bind, bind_eq_ok_iff]

/-- Neither statement sees the other, and their targets are bound alike either way. -/
theorem runFrom_swap {program : List Statement} (h : Dict.Ascending scope)
    (hne : s.target ≠ t.target) (hs : s.target ≠ "vars") (ht : t.target ≠ "vars")
    (hrun : (runFrom platform (pure scope) (s :: t :: program)).outcome = .ok scope') :
    (runFrom platform (pure scope) (t :: s :: program)).outcome = .ok scope' := by
  obtain ⟨v, hv, hrest⟩ := runFrom_cons_eq_ok_iff.mp hrun
  obtain ⟨w, hw, hrest⟩ := runFrom_cons_eq_ok_iff.mp hrest
  rw [varsOf_insert hs] at hw
  refine runFrom_cons_eq_ok_iff.mpr ⟨w, hw, runFrom_cons_eq_ok_iff.mpr ⟨v, ?_, ?_⟩⟩
  · rw [varsOf_insert ht]
    exact hv
  · rw [Dict.insert_comm h hne.symm]
    exact hrest

theorem run_swap {before after : List Statement} {file : DepsFile} (hne : s.target ≠ t.target)
    (hs : s.target ≠ "vars") (ht : t.target ≠ "vars")
    (hrun : (run platform (before ++ s :: t :: after)).outcome = .ok file) :
    (run platform (before ++ t :: s :: after)).outcome = .ok file := by
  obtain ⟨scope, hscope, rfl⟩ := run_eq_ok_iff.mp hrun
  obtain ⟨between, hbetween, hrest⟩ := runFrom_append_eq_ok_iff.mp hscope
  have hasc : Dict.Ascending between := ascending_runFrom Dict.ascending_nil hbetween
  have hswap := runFrom_swap hasc hne hs ht hrest
  exact run_eq_ok_iff.mpr ⟨scope, runFrom_append_eq_ok_iff.mpr ⟨between, hbetween, hswap⟩, rfl⟩

end Evaluation

end PinnedDeps
