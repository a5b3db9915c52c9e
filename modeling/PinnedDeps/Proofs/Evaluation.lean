import PinnedDeps.Evaluation
import PinnedDeps.Proofs.Dict

/-! What an expression means, told by rules: `Evaluates` relates an expression to its value or to
the error that evaluation meets first, from left to right. The evaluator collects items in reverse
onto what it has, so its outcome is first brought into the form of plain folds over lists. -/

namespace PinnedDeps.Evaluation

variable {platform : Platform} {vars : Dict Value}

/-! ### Rules -/

section

variable (platform : Platform) (vars : Dict Value)

mutual

/-- The outcome of an expression, variables being those of `vars` and, for other names, of the
platform. -/
inductive Evaluates : Expr → Except EvalError Value → Prop where
  | str {pos text} : Evaluates (.str pos text) (.ok (.str text))
  | int {pos value} : Evaluates (.int pos value) (.ok (.int value))
  | bool {pos value} : Evaluates (.bool pos value) (.ok (.bool value))
  | none {pos} : Evaluates (.none pos) (.ok .none)
  | list {pos items outcome} :
      EvaluatesItems items outcome → Evaluates (.list pos items) (outcome.map .list)
  /-- Each key is bound to the last entry with that key. -/
  | map {pos entries pairs d} :
      EvaluatesEntries entries (.ok pairs) → Dict.Ascending d →
      (∀ key, Dict.get? d key = Dict.get? pairs.reverse key) →
      Evaluates (.map pos entries) (.ok (.map d))
  | mapFails {pos entries e} :
      EvaluatesEntries entries (.error e) → Evaluates (.map pos entries) (.error e)
  | sum {pos first rest left outcome} :
      Evaluates first (.ok left) → EvaluatesSum left rest outcome →
      Evaluates (.sum pos first rest) outcome
  | sumFails {pos first rest e} :
      Evaluates first (.error e) → Evaluates (.sum pos first rest) (.error e)
  | varBound {pos argument name value} :
      Evaluates argument (.ok (.str name)) → vars.get? name = some value →
      Evaluates (.var pos argument) (.ok value)
  | varOfPlatform {pos argument name text} :
      Evaluates argument (.ok (.str name)) → vars.get? name = Option.none →
      platform.get? name = some text → Evaluates (.var pos argument) (.ok (.str text))
  | varUndefined {pos argument name} :
      Evaluates argument (.ok (.str name)) → vars.get? name = Option.none →
      platform.get? name = Option.none → Evaluates (.var pos argument) (.error (.undefined name))
  | varKind {pos argument value} :
      Evaluates argument (.ok value) → value.kind ≠ .str →
      Evaluates (.var pos argument)
        (.error (.malformed ⟨argument.pos, .varNotString value.kind⟩))
  | varFails {pos argument e} :
      Evaluates argument (.error e) → Evaluates (.var pos argument) (.error e)

inductive EvaluatesItems : List Expr → Except EvalError (List Value) → Prop where
  | nil : EvaluatesItems [] (.ok [])
  | cons {item rest value outcome} :
      Evaluates item (.ok value) → EvaluatesItems rest outcome →
      EvaluatesItems (item :: rest) (outcome.map (value :: ·))
  | fails {item rest e} : Evaluates item (.error e) → EvaluatesItems (item :: rest) (.error e)

inductive EvaluatesEntries :
    List (Expr × Expr) → Except EvalError (List (String × Value)) → Prop where
  | nil : EvaluatesEntries [] (.ok [])
  | cons {key value rest name v outcome} :
      Evaluates key (.ok (.str name)) → Evaluates value (.ok v) → EvaluatesEntries rest outcome →
      EvaluatesEntries ((key, value) :: rest) (outcome.map ((name, v) :: ·))
  | keyFails {key value rest e} :
      Evaluates key (.error e) → EvaluatesEntries ((key, value) :: rest) (.error e)
  | keyKind {key value rest k} :
      Evaluates key (.ok k) → k.kind ≠ .str →
      EvaluatesEntries ((key, value) :: rest)
        (.error (.malformed ⟨key.pos, .keyNotString k.kind⟩))
  | valueFails {key value rest name e} :
      Evaluates key (.ok (.str name)) → Evaluates value (.error e) →
      EvaluatesEntries ((key, value) :: rest) (.error e)

/-- The outcome of adding operands to a value, one after the other. -/
inductive EvaluatesSum : Value → List (Position × Expr) → Except EvalError Value → Prop where
  | nil {left} : EvaluatesSum left [] (.ok left)
  | strings {a b plus operand rest outcome} :
      Evaluates operand (.ok (.str b)) → EvaluatesSum (.str (a ++ b)) rest outcome →
      EvaluatesSum (.str a) ((plus, operand) :: rest) outcome
  | lists {a b plus operand rest outcome} :
      Evaluates operand (.ok (.list b)) → EvaluatesSum (.list (a ++ b)) rest outcome →
      EvaluatesSum (.list a) ((plus, operand) :: rest) outcome
  | kinds {a b plus operand rest} :
      Evaluates operand (.ok b) → (a.kind = b.kind → a.kind ≠ .str ∧ a.kind ≠ .list) →
      EvaluatesSum a ((plus, operand) :: rest)
        (.error (.malformed ⟨plus, .unsupportedSum a.kind b.kind⟩))
  | fails {left plus operand rest e} :
      Evaluates operand (.error e) → EvaluatesSum left ((plus, operand) :: rest) (.error e)

end

end

/-! ### Outcomes as folds -/

/-- The pair of a mapping entry. -/
def entryOutcome (platform : Platform) (vars : Dict Value) (entry : Expr × Expr) :
    Except EvalError (String × Value) := do
  let name ← keyText entry.1.pos (← (eval platform vars entry.1).outcome)
  pure (name, ← (eval platform vars entry.2).outcome)

/-- A value with one more operand. -/
def operandOutcome (platform : Platform) (vars : Dict Value) (left : Value)
    (operand : Position × Expr) : Except EvalError Value := do
  add operand.1 left (← (eval platform vars operand.2).outcome)

theorem ok_bind {ε α β : Type} (a : α) (f : α → Except ε β) : (Except.ok a >>= f) = f a := rfl

theorem error_bind {ε α β : Type} (e : ε) (f : α → Except ε β) :
    (Except.error e >>= f) = .error e := rfl

theorem bind_eq_ok_iff {ε α β : Type} {x : Except ε α} {f : α → Except ε β} {b : β} :
    (x >>= f) = .ok b ↔ ∃ a, x = .ok a ∧ f a = .ok b := by
  cases x <;> simp [ok_bind, error_bind]

theorem exists_of_bind_eq_ok {ε α β : Type} {x : Except ε α} {f : α → Except ε β} {b : β}
    (h : (x >>= f) = .ok b) : ∃ a, x = .ok a ∧ f a = .ok b :=
  bind_eq_ok_iff.mp h

theorem bind_ok {ε α β : Type} (x : Except ε α) (f : α → β) :
    (x >>= fun a => .ok (f a)) = f <$> x := by
  cases x <;> rfl

theorem outcome_evalItems (done : Eval (List Value)) (items : List Expr) :
    (evalItems platform vars done items).outcome =
      done.outcome >>= fun values =>
        (items.mapM fun item => (eval platform vars item).outcome) >>= fun more =>
          pure (more.reverse ++ values) := by
  induction items generalizing done with
  | nil => simp [evalItems]
  | cons item rest ih =>
    rw [evalItems, ih]
    simp [ok_bind]

theorem outcome_evalEntries (done : Eval (List (String × Value))) (entries : List (Expr × Expr)) :
    (evalEntries platform vars done entries).outcome =
      done.outcome >>= fun pairs =>
        entries.mapM (entryOutcome platform vars) >>= fun more =>
          pure (more.reverse ++ pairs) := by
  induction entries generalizing done with
  | nil => simp [evalEntries]
  | cons entry rest ih =>
    obtain ⟨key, value⟩ := entry
    rw [evalEntries, ih]
    simp [entryOutcome, ok_bind]

theorem outcome_evalSum (done : Eval Value) (rest : List (Position × Expr)) :
    (evalSum platform vars done rest).outcome =
      done.outcome >>= fun left => rest.foldlM (operandOutcome platform vars) left := by
  induction rest generalizing done with
  | nil => simp [evalSum]
  | cons operand rest ih =>
    obtain ⟨plus, operand⟩ := operand
    rw [evalSum, ih]
    simp [operandOutcome]

theorem outcome_list (pos : Position) (items : List Expr) :
    (eval platform vars (.list pos items)).outcome =
      (items.mapM fun item => (eval platform vars item).outcome) >>= fun values =>
        pure (.list values) := by
  rw [eval, Traced.outcome_bind, outcome_evalItems]
  simp [ok_bind, bind_ok]

theorem outcome_map (pos : Position) (entries : List (Expr × Expr)) :
    (eval platform vars (.map pos entries)).outcome =
      entries.mapM (entryOutcome platform vars) >>= fun pairs =>
        pure (.map (Dict.ofPairs pairs)) := by
  rw [eval, Traced.outcome_bind, outcome_evalEntries]
  simp [ok_bind, bind_ok]

theorem outcome_sum (pos : Position) (first : Expr) (rest : List (Position × Expr)) :
    (eval platform vars (.sum pos first rest)).outcome =
      (eval platform vars first).outcome >>= fun left =>
        rest.foldlM (operandOutcome platform vars) left := by
  rw [eval, outcome_evalSum]

theorem outcome_var (pos : Position) (argument : Expr) :
    (eval platform vars (.var pos argument)).outcome =
      (eval platform vars argument).outcome >>= fun value =>
        nameText argument.pos value >>= fun name => lookup platform vars name := by
  have hpure : ∀ x : Except EvalError Value, (x >>= fun value => Except.ok value) = x := by
    intro x
    cases x <;> rfl
  rw [eval]
  simp [ok_bind, hpure]

/-! ### The rules hold of the evaluator -/

theorem add_of_kinds {plus : Position} {a b : Value}
    (h : a.kind = b.kind → a.kind ≠ .str ∧ a.kind ≠ .list) :
    add plus a b = .error (.malformed ⟨plus, .unsupportedSum a.kind b.kind⟩) := by
  cases a <;> cases b <;> simp_all [add, Value.kind]

theorem keyText_of_kind {pos : Position} {value : Value} (h : value.kind ≠ .str) :
    keyText pos value = .error (.malformed ⟨pos, .keyNotString value.kind⟩) := by
  cases value <;> simp_all [keyText, Value.kind]

theorem nameText_of_kind {pos : Position} {value : Value} (h : value.kind ≠ .str) :
    nameText pos value = .error (.malformed ⟨pos, .varNotString value.kind⟩) := by
  cases value <;> simp_all [nameText, Value.kind]

mutual

theorem evaluates_eval : (e : Expr) → Evaluates platform vars e (eval platform vars e).outcome
  | .str _ _ => .str
  | .int _ _ => .int
  | .bool _ _ => .bool
  | .none _ => .none
  | .list pos items => by
    rw [outcome_list]
    have h := evaluatesItems_mapM items
    cases hm : items.mapM fun item => (eval platform vars item).outcome with
    | error e =>
      rw [hm] at h
      exact .list h
    | ok values =>
      rw [hm] at h
      exact .list h
  | .map pos entries => by
    rw [outcome_map]
    have h := evaluatesEntries_mapM entries
    cases hm : entries.mapM (entryOutcome platform vars) with
    | error e =>
      rw [hm] at h
      exact .mapFails h
    | ok pairs =>
      rw [hm] at h
      exact .map h (Dict.ascending_ofPairs pairs) (Dict.get?_ofPairs pairs)
  | .sum pos first rest => by
    rw [outcome_sum]
    have h := evaluates_eval first
    cases hf : (eval platform vars first).outcome with
    | error e =>
      rw [hf] at h
      exact .sumFails h
    | ok left =>
      rw [hf] at h
      exact .sum h (evaluatesSum_foldlM left rest)
  | .var pos argument => by
    rw [outcome_var]
    have h := evaluates_eval argument
    cases ha : (eval platform vars argument).outcome with
    | error e =>
      rw [ha] at h
      exact .varFails h
    | ok value =>
      rw [ha] at h
      rw [ok_bind]
      by_cases hk : value.kind = .str
      · cases value with
        | str name =>
          rw [nameText, ok_bind, lookup]
          split
          · next value hv => exact .varBound h hv
          · next hv =>
            split
            · next text hp => exact .varOfPlatform h hv hp
            · next hp => exact .varUndefined h hv hp
        | _ => cases hk
      · rw [nameText_of_kind hk]
        exact .varKind h hk

theorem evaluatesItems_mapM : (items : List Expr) →
    EvaluatesItems platform vars items (items.mapM fun item => (eval platform vars item).outcome)
  | [] => .nil
  | item :: rest => by
    rw [List.mapM_cons]
    have h := evaluates_eval item
    have hrest := evaluatesItems_mapM rest
    cases hi : (eval platform vars item).outcome with
    | error e =>
      rw [hi] at h
      exact .fails h
    | ok value =>
      rw [hi] at h
      rw [ok_bind]
      exact .cons h hrest

theorem evaluatesEntries_mapM : (entries : List (Expr × Expr)) →
    EvaluatesEntries platform vars entries (entries.mapM (entryOutcome platform vars))
  | [] => .nil
  | (key, value) :: rest => by
    rw [List.mapM_cons]
    have hkey := evaluates_eval key
    have hvalue := evaluates_eval value
    have hrest := evaluatesEntries_mapM rest
    unfold entryOutcome
    cases hk : (eval platform vars key).outcome with
    | error e =>
      rw [hk] at hkey
      exact .keyFails hkey
    | ok k =>
      rw [hk] at hkey
      by_cases hkind : k.kind = .str
      · cases k with
        | str name =>
          cases hv : (eval platform vars value).outcome with
          | error e =>
            rw [hv] at hvalue
            exact .valueFails hkey hvalue
          | ok v =>
            rw [hv] at hvalue
            exact .cons hkey hvalue hrest
        | _ => cases hkind
      · rw [ok_bind, keyText_of_kind hkind]
        exact .keyKind hkey hkind

theorem evaluatesSum_foldlM : (left : Value) → (rest : List (Position × Expr)) →
    EvaluatesSum platform vars left rest (rest.foldlM (operandOutcome platform vars) left)
  | left, [] => .nil
  | left, (plus, operand) :: rest => by
    rw [List.foldlM_cons]
    have h := evaluates_eval operand
    unfold operandOutcome
    cases ho : (eval platform vars operand).outcome with
    | error e =>
      rw [ho] at h
      exact .fails h
    | ok b =>
      rw [ho] at h
      by_cases hk : left.kind = b.kind → left.kind ≠ .str ∧ left.kind ≠ .list
      · rw [ok_bind, add_of_kinds hk]
        exact .kinds h hk
      · cases left with
        | str a =>
          cases b with
          | str b => exact .strings h (evaluatesSum_foldlM (.str (a ++ b)) rest)
          | _ => simp [Value.kind] at hk
        | list a =>
          cases b with
          | list b => exact .lists h (evaluatesSum_foldlM (.list (a ++ b)) rest)
          | _ => simp [Value.kind] at hk
        | _ => simp [Value.kind] at hk

end

/-! ### The evaluator does what the rules say -/

mutual

theorem Evaluates.outcome_eval {e : Expr} {outcome : Except EvalError Value} :
    Evaluates platform vars e outcome → (eval platform vars e).outcome = outcome
  | .str => rfl
  | .int => rfl
  | .bool => rfl
  | .none => rfl
  | .list h => by
    rw [outcome_list, h.mapM_eq]
    rfl
  | .map h ha hg => by
    rw [outcome_map, h.mapM_eq, ok_bind]
    have hd := (Dict.ascending_ofPairs _).ext ha fun key => by rw [Dict.get?_ofPairs, hg]
    rw [hd]
    rfl
  | .mapFails h => by
    rw [outcome_map, h.mapM_eq]
    rfl
  | .sum h hs => by
    rw [outcome_sum, h.outcome_eval, ok_bind, hs.foldlM_eq]
  | .sumFails h => by
    rw [outcome_sum, h.outcome_eval]
    rfl
  | .varBound h hv => by
    rw [outcome_var, h.outcome_eval, ok_bind, nameText, ok_bind, lookup, hv]
  | .varOfPlatform h hv hp => by
    rw [outcome_var, h.outcome_eval, ok_bind, nameText, ok_bind, lookup, hv, hp]
  | .varUndefined h hv hp => by
    rw [outcome_var, h.outcome_eval, ok_bind, nameText, ok_bind, lookup, hv, hp]
  | .varKind h hk => by
    rw [outcome_var, h.outcome_eval, ok_bind, nameText_of_kind hk]
    rfl
  | .varFails h => by
    rw [outcome_var, h.outcome_eval]
    rfl

theorem EvaluatesItems.mapM_eq {items : List Expr} {outcome : Except EvalError (List Value)} :
    EvaluatesItems platform vars items outcome →
      (items.mapM fun item => (eval platform vars item).outcome) = outcome
  | .nil => rfl
  | .cons h hr => by
    rw [List.mapM_cons, h.outcome_eval, ok_bind, hr.mapM_eq]
    rfl
  | .fails h => by
    rw [List.mapM_cons, h.outcome_eval]
    rfl

theorem EvaluatesEntries.mapM_eq {entries : List (Expr × Expr)}
    {outcome : Except EvalError (List (String × Value))} :
    EvaluatesEntries platform vars entries outcome →
      entries.mapM (entryOutcome platform vars) = outcome
  | .nil => rfl
  | .cons hk hv hr => by
    rw [List.mapM_cons, entryOutcome, hk.outcome_eval, hv.outcome_eval, hr.mapM_eq]
    rfl
  | .keyFails hk => by
    rw [List.mapM_cons, entryOutcome, hk.outcome_eval]
    rfl
  | .keyKind hk hkind => by
    rw [List.mapM_cons, entryOutcome, hk.outcome_eval, ok_bind, keyText_of_kind hkind]
    rfl
  | .valueFails hk hv => by
    rw [List.mapM_cons, entryOutcome, hk.outcome_eval, hv.outcome_eval]
    rfl

theorem EvaluatesSum.foldlM_eq {left : Value} {rest : List (Position × Expr)}
    {outcome : Except EvalError Value} :
    EvaluatesSum platform vars left rest outcome →
      rest.foldlM (operandOutcome platform vars) left = outcome
  | .nil => rfl
  | .strings h hr => by
    rw [List.foldlM_cons, operandOutcome, h.outcome_eval, ← hr.foldlM_eq]
    rfl
  | .lists h hr => by
    rw [List.foldlM_cons, operandOutcome, h.outcome_eval, ← hr.foldlM_eq]
    rfl
  | .kinds h hk => by
    rw [List.foldlM_cons, operandOutcome, h.outcome_eval, ok_bind, add_of_kinds hk]
    rfl
  | .fails h => by
    rw [List.foldlM_cons, operandOutcome, h.outcome_eval]
    rfl

end

theorem evaluates_iff {e : Expr} {outcome : Except EvalError Value} :
    Evaluates platform vars e outcome ↔ (eval platform vars e).outcome = outcome :=
  ⟨Evaluates.outcome_eval, fun h => h ▸ evaluates_eval e⟩

end PinnedDeps.Evaluation
