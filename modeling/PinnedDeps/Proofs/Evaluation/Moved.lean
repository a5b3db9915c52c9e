import PinnedDeps.Proofs.Evaluation.Program
import PinnedDeps.Proofs.Syntax.Moved

/-! Statements at other places. A place matters only to a refusal, which points at it: statements
whose tokens are at other places bind the same values, or fail alike. -/

namespace PinnedDeps

/-- The same failure with the place it points at, if any, moved. -/
def EvalError.moved (f : Position → Position) : EvalError → EvalError
  | .malformed error => .malformed (error.moved f)
  | .undefined name => .undefined name

namespace Evaluation

variable {platform : Platform} {vars : Dict Value} (f : Position → Position)

theorem mapError_bind {ε δ α β : Type} (g : ε → δ) (x : Except ε α) (k : α → Except ε β) :
    (x >>= k).mapError g = x.mapError g >>= fun a => (k a).mapError g := by
  cases x <;> rfl

theorem lookup_moved (name : String) :
    (lookup platform vars name).mapError (·.moved f) = lookup platform vars name := by
  unfold lookup
  split
  · rfl
  split <;> rfl

theorem add_moved (plus : Position) (a b : Value) :
    add (f plus) a b = (add plus a b).mapError (·.moved f) := by
  cases a <;> cases b <;> rfl

theorem keyText_moved (pos : Position) (value : Value) :
    keyText (f pos) value = (keyText pos value).mapError (·.moved f) := by
  cases value <;> rfl

theorem nameText_moved (pos : Position) (value : Value) :
    nameText (f pos) value = (nameText pos value).mapError (·.moved f) := by
  cases value <;> rfl

theorem checkTarget_moved (s : Statement) (value : Value) :
    checkTarget (s.moved f) value = (checkTarget s value).mapError (·.moved f) := by
  unfold checkTarget
  rw [Statement.moved]
  split <;> rfl

mutual

theorem outcome_eval_moved : (e : Expr) →
    (eval platform vars (e.moved f)).outcome = (eval platform vars e).outcome.mapError (·.moved f)
  | .str _ _ => rfl
  | .int _ _ => rfl
  | .bool _ _ => rfl
  | .none _ => rfl
  | .list _ items => by
    rw [Expr.moved, outcome_list, outcome_list, mapM_movedItems items, mapError_bind]
    rfl
  | .map _ entries => by
    rw [Expr.moved, outcome_map, outcome_map, mapM_movedEntries entries, mapError_bind]
    rfl
  | .sum _ first rest => by
    rw [Expr.moved, outcome_sum, outcome_sum, outcome_eval_moved first, mapError_bind]
    simp only [foldlM_movedOperands _ rest]
  | .var _ argument => by
    rw [Expr.moved, outcome_var, outcome_var, outcome_eval_moved argument, mapError_bind]
    simp only [Expr.pos_moved, nameText_moved, mapError_bind, lookup_moved]

theorem mapM_movedItems : (items : List Expr) →
    (Expr.movedItems f items).mapM (fun item => (eval platform vars item).outcome) =
      (items.mapM fun item => (eval platform vars item).outcome).mapError (·.moved f)
  | [] => rfl
  | item :: rest => by
    rw [Expr.movedItems, List.mapM_cons, List.mapM_cons, outcome_eval_moved item,
      mapM_movedItems rest, mapError_bind]
    simp only [mapError_bind]
    rfl

theorem mapM_movedEntries : (entries : List (Expr × Expr)) →
    (Expr.movedEntries f entries).mapM (entryOutcome platform vars) =
      (entries.mapM (entryOutcome platform vars)).mapError (·.moved f)
  | [] => rfl
  | (key, value) :: rest => by
    rw [Expr.movedEntries, List.mapM_cons, List.mapM_cons, mapM_movedEntries rest, mapError_bind]
    simp only [entryOutcome, outcome_eval_moved key, outcome_eval_moved value, Expr.pos_moved,
      keyText_moved, mapError_bind]
    rfl

theorem foldlM_movedOperands : (left : Value) → (rest : List (Position × Expr)) →
    (Expr.movedOperands f rest).foldlM (operandOutcome platform vars) left =
      (rest.foldlM (operandOutcome platform vars) left).mapError (·.moved f)
  | _, [] => rfl
  | left, (plus, operand) :: rest => by
    rw [Expr.movedOperands, List.foldlM_cons, List.foldlM_cons, mapError_bind]
    simp only [operandOutcome, outcome_eval_moved operand, add_moved, mapError_bind,
      foldlM_movedOperands _ rest]

end

theorem outcome_step_moved (scope : Dict Value) (s : Statement) :
    (step platform scope (s.moved f)).outcome =
      (step platform scope s).outcome.mapError (·.moved f) := by
  rw [outcome_step, outcome_step, mapError_bind]
  simp only [checkTarget_moved, mapError_bind]
  rw [Statement.moved, outcome_eval_moved]
  rfl

theorem outcome_runFrom (done : Eval (Dict Value)) (program : List Statement) :
    (runFrom platform done program).outcome =
      done.outcome >>= fun scope =>
        program.foldlM (fun scope s => (step platform scope s).outcome) scope := by
  induction program generalizing done with
  | nil => simp [runFrom]
  | cons s program ih =>
    rw [runFrom, ih]
    simp

/-- The statements see nothing but the scope that was reached. -/
theorem outcome_runFrom_bind (done : Eval (Dict Value)) (program : List Statement) :
    (runFrom platform done program).outcome =
      done.outcome >>= fun scope => (runFrom platform (pure scope) program).outcome := by
  rw [outcome_runFrom]
  cases done.outcome with
  | error e => rfl
  | ok scope =>
    rw [ok_bind, ok_bind, outcome_runFrom]
    rfl

theorem outcome_runFrom_moved (scope : Dict Value) (program : List Statement) :
    (runFrom platform (pure scope) (program.map (·.moved f))).outcome =
      (runFrom platform (pure scope) program).outcome.mapError (·.moved f) := by
  rw [outcome_runFrom, outcome_runFrom, Traced.outcome_pure, ok_bind, ok_bind]
  induction program generalizing scope with
  | nil => rfl
  | cons s program ih =>
    rw [List.map_cons, List.foldlM_cons, List.foldlM_cons, outcome_step_moved, mapError_bind]
    simp only [ih]

end Evaluation

end PinnedDeps
