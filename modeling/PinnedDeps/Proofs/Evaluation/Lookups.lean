import PinnedDeps.Proofs.Evaluation.Program

/-! The names that an evaluation comes to look up, told by rules beside those of its outcome. What a
look-up gives goes to the reports, so the rules are checked against these: the reports of a run name
just the look-ups that succeed. -/

namespace PinnedDeps

theorem Traced.mem_events_bind {ε α β : Type} {event : Event} {x : Traced ε α}
    {f : α → Traced ε β} :
    event ∈ (x >>= f).events ↔
      event ∈ x.events ∨ ∃ a, x.outcome = .ok a ∧ event ∈ (f a).events := by
  obtain ⟨events, e | a⟩ := x
  · show event ∈ events ↔ _
    simp
  · show event ∈ events ++ (f a).events ↔ _
    simp

@[simp]
theorem Traced.not_mem_events_pure {ε α : Type} {event : Event} (a : α) :
    event ∉ (pure a : Traced ε α).events := Array.not_mem_empty event

@[simp]
theorem Traced.not_mem_events_ofExcept {ε α : Type} {event : Event} (outcome : Except ε α) :
    event ∉ (Traced.ofExcept outcome).events := Array.not_mem_empty event

@[simp]
theorem Traced.mem_events_report {ε : Type} {event other : Event} :
    event ∈ (Traced.report other : Traced ε Unit).events ↔ event = other := Array.mem_singleton

namespace Evaluation

variable {platform : Platform} {vars : Dict Value}

section

variable (platform : Platform) (vars : Dict Value)

mutual

/-- Evaluation of the expression comes to look the name up. It goes from left to right, so what
stands further left has a value. -/
inductive LooksUp : Expr → String → Prop where
  | name {pos argument name} :
      Evaluates platform vars argument (.ok (.str name)) → LooksUp (.var pos argument) name
  | argument {pos argument name} : LooksUp argument name → LooksUp (.var pos argument) name
  | list {pos items name} : LooksUpItems items name → LooksUp (.list pos items) name
  | map {pos entries name} : LooksUpEntries entries name → LooksUp (.map pos entries) name
  | first {pos first rest name} : LooksUp first name → LooksUp (.sum pos first rest) name
  | rest {pos first rest left name} :
      Evaluates platform vars first (.ok left) → LooksUpOperands left rest name →
      LooksUp (.sum pos first rest) name

inductive LooksUpItems : List Expr → String → Prop where
  | head {item rest name} : LooksUp item name → LooksUpItems (item :: rest) name
  | tail {item rest value name} :
      Evaluates platform vars item (.ok value) → LooksUpItems rest name →
      LooksUpItems (item :: rest) name

inductive LooksUpEntries : List (Expr × Expr) → String → Prop where
  | key {key value rest name} : LooksUp key name → LooksUpEntries ((key, value) :: rest) name
  | value {key value rest k name} :
      Evaluates platform vars key (.ok (.str k)) → LooksUp value name →
      LooksUpEntries ((key, value) :: rest) name
  | tail {key value rest k v name} :
      Evaluates platform vars key (.ok (.str k)) → Evaluates platform vars value (.ok v) →
      LooksUpEntries rest name → LooksUpEntries ((key, value) :: rest) name

/-- Operands that are added to a value, one after the other. -/
inductive LooksUpOperands : Value → List (Position × Expr) → String → Prop where
  | head {left plus operand rest name} :
      LooksUp operand name → LooksUpOperands left ((plus, operand) :: rest) name
  | tail {left plus operand rest right sum name} :
      Evaluates platform vars operand (.ok right) → add plus left right = .ok sum →
      LooksUpOperands sum rest name → LooksUpOperands left ((plus, operand) :: rest) name

end

end

/-- A run from the scope comes to look the name up, these variables being in effect. -/
inductive RunLooksUp (platform : Platform) :
    Dict Value → List Statement → Dict Value → String → Prop where
  | head {scope s rest name} :
      LooksUp platform (varsOf scope) s.value name →
      RunLooksUp platform scope (s :: rest) (varsOf scope) name
  | tail {scope scope' s rest vars name} :
      (step platform scope s).outcome = .ok scope' → RunLooksUp platform scope' rest vars name →
      RunLooksUp platform scope (s :: rest) vars name

/-! ### Inversion -/

variable {name : String} {value : Value}

theorem looksUp_list_iff {pos : Position} {items : List Expr} :
    LooksUp platform vars (.list pos items) name ↔ LooksUpItems platform vars items name :=
  ⟨fun | .list h => h, .list⟩

theorem looksUp_map_iff {pos : Position} {entries : List (Expr × Expr)} :
    LooksUp platform vars (.map pos entries) name ↔ LooksUpEntries platform vars entries name :=
  ⟨fun | .map h => h, .map⟩

theorem looksUp_sum_iff {pos : Position} {first : Expr} {rest : List (Position × Expr)} :
    LooksUp platform vars (.sum pos first rest) name ↔
      LooksUp platform vars first name ∨
        ∃ left, (eval platform vars first).outcome = .ok left ∧
          LooksUpOperands platform vars left rest name := by
  constructor
  · rintro (_ | _ | _ | _ | h | ⟨hleft, h⟩)
    · exact .inl h
    · exact .inr ⟨_, hleft.outcome_eval, h⟩
  · rintro (h | ⟨left, hleft, h⟩)
    · exact .first h
    · exact .rest (evaluates_iff.mpr hleft) h

theorem looksUp_var_iff {pos : Position} {argument : Expr} :
    LooksUp platform vars (.var pos argument) name ↔
      LooksUp platform vars argument name ∨
        (eval platform vars argument).outcome = .ok (.str name) := by
  constructor
  · rintro (h | h)
    · exact .inr h.outcome_eval
    · exact .inl h
  · rintro (h | h)
    · exact .argument h
    · exact .name (evaluates_iff.mpr h)

theorem looksUpItems_cons_iff {item : Expr} {rest : List Expr} :
    LooksUpItems platform vars (item :: rest) name ↔
      LooksUp platform vars item name ∨
        (∃ value, (eval platform vars item).outcome = .ok value) ∧
          LooksUpItems platform vars rest name := by
  constructor
  · rintro (h | ⟨hitem, h⟩)
    · exact .inl h
    · exact .inr ⟨⟨_, hitem.outcome_eval⟩, h⟩
  · rintro (h | ⟨⟨value, hitem⟩, h⟩)
    · exact .head h
    · exact .tail (evaluates_iff.mpr hitem) h

theorem looksUpEntries_cons_iff {key value : Expr} {rest : List (Expr × Expr)} :
    LooksUpEntries platform vars ((key, value) :: rest) name ↔
      LooksUp platform vars key name ∨
        ∃ k, (eval platform vars key).outcome = .ok (.str k) ∧
          (LooksUp platform vars value name ∨
            (∃ v, (eval platform vars value).outcome = .ok v) ∧
              LooksUpEntries platform vars rest name) := by
  constructor
  · rintro (h | ⟨hkey, h⟩ | ⟨hkey, hvalue, h⟩)
    · exact .inl h
    · exact .inr ⟨_, hkey.outcome_eval, .inl h⟩
    · exact .inr ⟨_, hkey.outcome_eval, .inr ⟨⟨_, hvalue.outcome_eval⟩, h⟩⟩
  · rintro (h | ⟨k, hkey, h | ⟨⟨v, hvalue⟩, h⟩⟩)
    · exact .key h
    · exact .value (evaluates_iff.mpr hkey) h
    · exact .tail (evaluates_iff.mpr hkey) (evaluates_iff.mpr hvalue) h

theorem looksUpOperands_cons_iff {left : Value} {plus : Position} {operand : Expr}
    {rest : List (Position × Expr)} :
    LooksUpOperands platform vars left ((plus, operand) :: rest) name ↔
      LooksUp platform vars operand name ∨
        ∃ sum, operandOutcome platform vars left (plus, operand) = .ok sum ∧
          LooksUpOperands platform vars sum rest name := by
  constructor
  · rintro (h | ⟨hoperand, hsum, h⟩)
    · exact .inl h
    · refine .inr ⟨_, ?_, h⟩
      rw [operandOutcome, hoperand.outcome_eval, ok_bind, hsum]
  · rintro (h | ⟨sum, hsum, h⟩)
    · exact .head h
    · obtain ⟨right, hoperand, hsum⟩ := exists_of_bind_eq_ok hsum
      exact .tail (evaluates_iff.mpr hoperand) hsum h

/-! ### The reports name them -/

theorem nameText_eq_ok_iff {pos : Position} {value : Value} {name : String} :
    nameText pos value = .ok name ↔ value = .str name := by
  cases value <;> simp [nameText]

theorem keyText_eq_ok_iff {pos : Position} {value : Value} {name : String} :
    keyText pos value = .ok name ↔ value = .str name := by
  cases value <;> simp [keyText]

mutual

/-- An evaluation reports just the look-ups that succeed, with what they give. -/
theorem resolved_eval : (e : Expr) →
    (.resolved name value ∈ (eval platform vars e).events ↔
      LooksUp platform vars e name ∧ lookup platform vars name = .ok value)
  | .str _ _ => by
    refine iff_of_false (Traced.not_mem_events_pure _) ?_
    rintro ⟨h, -⟩
    cases h
  | .int _ _ => by
    refine iff_of_false (Traced.not_mem_events_pure _) ?_
    rintro ⟨h, -⟩
    cases h
  | .bool _ _ => by
    refine iff_of_false (Traced.not_mem_events_pure _) ?_
    rintro ⟨h, -⟩
    cases h
  | .none _ => by
    refine iff_of_false (Traced.not_mem_events_pure _) ?_
    rintro ⟨h, -⟩
    cases h
  | .list pos items => by
    rw [eval, Traced.mem_events_bind, resolved_evalItems, looksUp_list_iff]
    simp
  | .map pos entries => by
    rw [eval, Traced.mem_events_bind, resolved_evalEntries, looksUp_map_iff]
    simp
  | .sum pos first rest => by
    rw [eval, resolved_evalSum, resolved_eval first, looksUp_sum_iff, or_and_right]
    simp only [← exists_and_right, and_assoc]
  | .var pos argument => by
    rw [eval, Traced.mem_events_bind, resolved_eval argument, looksUp_var_iff, or_and_right]
    simp [Traced.mem_events_bind, nameText_eq_ok_iff]

theorem resolved_evalItems (done : Eval (List Value)) : (items : List Expr) →
    (.resolved name value ∈ (evalItems platform vars done items).events ↔
      .resolved name value ∈ done.events ∨ (∃ values, done.outcome = .ok values) ∧
        LooksUpItems platform vars items name ∧ lookup platform vars name = .ok value)
  | [] => by
    refine (or_iff_left ?_).symm
    rintro ⟨-, h, -⟩
    cases h
  | item :: rest => by
    rw [evalItems, resolved_evalItems _ rest, looksUpItems_cons_iff]
    simp only [Traced.mem_events_bind, resolved_eval item, Traced.outcome_bind, bind_eq_ok_iff,
      Traced.outcome_pure, Traced.not_mem_events_pure, Except.ok.injEq, ↓existsAndEq, and_true,
      and_false, exists_false, or_false, exists_and_right, exists_and_left]
    grind

theorem resolved_evalEntries (done : Eval (List (String × Value))) :
    (entries : List (Expr × Expr)) →
    (.resolved name value ∈ (evalEntries platform vars done entries).events ↔
      .resolved name value ∈ done.events ∨ (∃ pairs, done.outcome = .ok pairs) ∧
        LooksUpEntries platform vars entries name ∧ lookup platform vars name = .ok value)
  | [] => by
    refine (or_iff_left ?_).symm
    rintro ⟨-, h, -⟩
    cases h
  | (key, v) :: rest => by
    rw [evalEntries, resolved_evalEntries _ rest, looksUpEntries_cons_iff]
    simp only [Traced.mem_events_bind, resolved_eval key, resolved_eval v, Traced.outcome_bind,
      bind_eq_ok_iff, Traced.outcome_ofExcept, Traced.not_mem_events_ofExcept, keyText_eq_ok_iff,
      Traced.outcome_pure, Traced.not_mem_events_pure, Except.ok.injEq, ↓existsAndEq, true_and,
      and_true, and_false, exists_false, or_false, false_or, exists_and_right, exists_and_left]
    grind

theorem resolved_evalSum (done : Eval Value) : (rest : List (Position × Expr)) →
    (.resolved name value ∈ (evalSum platform vars done rest).events ↔
      .resolved name value ∈ done.events ∨
        ∃ left, done.outcome = .ok left ∧ LooksUpOperands platform vars left rest name ∧
          lookup platform vars name = .ok value)
  | [] => by
    refine (or_iff_left ?_).symm
    rintro ⟨left, -, h, -⟩
    cases h
  | (plus, operand) :: rest => by
    rw [evalSum, resolved_evalSum _ rest, Traced.mem_events_bind, or_assoc]
    simp only [Traced.mem_events_bind, resolved_eval operand, Traced.outcome_bind, bind_eq_ok_iff,
      Traced.outcome_ofExcept, Traced.not_mem_events_ofExcept, looksUpOperands_cons_iff,
      operandOutcome, and_false, exists_false, or_false, exists_and_right]
    grind

end

theorem resolved_step {scope : Dict Value} {s : Statement} :
    .resolved name value ∈ (step platform scope s).events ↔
      LooksUp platform (varsOf scope) s.value name ∧
        lookup platform (varsOf scope) name = .ok value := by
  simp [step, Traced.mem_events_bind, resolved_eval]

theorem runLooksUp_cons_iff {scope : Dict Value} {s : Statement} {rest : List Statement} :
    RunLooksUp platform scope (s :: rest) vars name ↔
      vars = varsOf scope ∧ LooksUp platform (varsOf scope) s.value name ∨
        ∃ scope', (step platform scope s).outcome = .ok scope' ∧
          RunLooksUp platform scope' rest vars name := by
  constructor
  · rintro (h | ⟨hstep, h⟩)
    · exact .inl ⟨rfl, h⟩
    · exact .inr ⟨_, hstep, h⟩
  · rintro (⟨rfl, h⟩ | ⟨scope', hstep, h⟩)
    · exact .head h
    · exact .tail hstep h

theorem resolved_runFrom (done : Eval (Dict Value)) (program : List Statement) :
    .resolved name value ∈ (runFrom platform done program).events ↔
      .resolved name value ∈ done.events ∨
        ∃ scope, done.outcome = .ok scope ∧
          ∃ vars, RunLooksUp platform scope program vars name ∧
            lookup platform vars name = .ok value := by
  induction program generalizing done with
  | nil =>
    refine (or_iff_left ?_).symm
    rintro ⟨scope, -, vars, h, -⟩
    cases h
  | cons s rest ih =>
    rw [runFrom, ih, Traced.mem_events_bind, or_assoc]
    simp only [Traced.outcome_bind, bind_eq_ok_iff, resolved_step, runLooksUp_cons_iff]
    grind

/-- The reports of a run name just the look-ups that succeed, with what they give. -/
theorem resolved_run (program : List Statement) :
    .resolved name value ∈ (run platform program).events ↔
      ∃ vars, RunLooksUp platform [] program vars name ∧
        lookup platform vars name = .ok value := by
  simp [run, Traced.mem_events_bind, resolved_runFrom]

end Evaluation

end PinnedDeps
