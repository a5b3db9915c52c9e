import PinnedDeps.Proofs.Evaluation
import PinnedDeps.Proofs.Syntax.Height
import Mathlib.Control.Monad.Basic

/-! How deep evaluation goes. It takes one step down for each node, so a tree is evaluated as well
by an evaluator that gives up below its height, whatever it answers there; and the trees of parsed
statements have a height that does not depend on how long the text is. -/

namespace PinnedDeps.Evaluation

variable (platform : Platform) (vars : Dict Value)

/-! ### One node at a time -/

/-- The pair of a mapping entry, the values of its parts being those that `inner` gives. -/
def entryWith (inner : Expr → Except EvalError Value) (entry : Expr × Expr) :
    Except EvalError (String × Value) := do
  let name ← keyText entry.1.pos (← inner entry.1)
  pure (name, ← inner entry.2)

/-- A value with one more operand, the value of which `inner` gives. -/
def operandWith (inner : Expr → Except EvalError Value) (left : Value)
    (operand : Position × Expr) : Except EvalError Value := do
  add operand.1 left (← inner operand.2)

/-- The value of one node, the values of the expressions right below it being those that `inner`
gives. -/
def evalNode (inner : Expr → Except EvalError Value) : Expr → Except EvalError Value
  | .str _ text => .ok (.str text)
  | .int _ value => .ok (.int value)
  | .bool _ value => .ok (.bool value)
  | .none _ => .ok .none
  | .list _ items => do
    let values ← items.mapM inner
    pure (.list values)
  | .map _ entries => do
    let pairs ← entries.mapM (entryWith inner)
    pure (.map (Dict.ofPairs pairs))
  | .sum _ first rest => do
    let left ← inner first
    rest.foldlM (operandWith inner) left
  | .var _ argument => do
    let name ← nameText argument.pos (← inner argument)
    lookup platform vars name

/-- Evaluation that goes down `n` nodes, and takes for the value of what is below them whatever
`beyond` gives. -/
def evalWithin (beyond : Expr → Except EvalError Value) : Nat → Expr → Except EvalError Value
  | 0 => beyond
  | n + 1 => evalNode platform vars (evalWithin beyond n)

variable {platform vars}

theorem outcome_eval_eq (e : Expr) :
    (eval platform vars e).outcome =
      evalNode platform vars (fun inner => (eval platform vars inner).outcome) e := by
  cases e with
  | list pos items => exact outcome_list pos items
  | map pos entries => exact outcome_map pos entries
  | sum pos first rest => exact outcome_sum pos first rest
  | var pos argument => exact outcome_var pos argument
  | _ => rfl

/-! ### What a node asks for -/

theorem mapM_congr {α β : Type} {f g : α → Except EvalError β} {xs : List α}
    (h : ∀ x ∈ xs, f x = g x) : xs.mapM f = xs.mapM g := by
  induction xs with
  | nil => rfl
  | cons x xs ih =>
    obtain ⟨hx, hxs⟩ := List.forall_mem_cons.mp h
    rw [List.mapM_cons, List.mapM_cons, hx, ih hxs]

theorem foldlM_congr {α β : Type} {f g : β → α → Except EvalError β} {xs : List α}
    (h : ∀ x ∈ xs, ∀ b, f b x = g b x) (b : β) : xs.foldlM f b = xs.foldlM g b := by
  induction xs generalizing b with
  | nil => rfl
  | cons x xs ih =>
    obtain ⟨hx, hxs⟩ := List.forall_mem_cons.mp h
    rw [List.foldlM_cons, List.foldlM_cons, hx]
    exact congrArg _ (funext fun b => ih hxs b)

/-- The value of a node is told by those of the lower expressions. -/
theorem evalNode_congr {inner inner' : Expr → Except EvalError Value} {e : Expr}
    (h : ∀ x : Expr, x.height < e.height → inner x = inner' x) :
    evalNode platform vars inner e = evalNode platform vars inner' e := by
  cases e with
  | str | int | bool | none => rfl
  | list pos items =>
    have hitems := Expr.heightItems_le_iff.mp (Nat.le_refl (Expr.heightItems items))
    rw [evalNode, evalNode, mapM_congr fun x hx => h x (Nat.lt_succ_of_le (hitems x hx))]
  | map pos entries =>
    have hentries := Expr.heightEntries_le_iff.mp (Nat.le_refl (Expr.heightEntries entries))
    have hentry : ∀ entry ∈ entries, entryWith inner entry = entryWith inner' entry := by
      intro entry hmem
      obtain ⟨hkey, hvalue⟩ := hentries entry hmem
      unfold entryWith
      rw [h _ (Nat.lt_succ_of_le hkey), h _ (Nat.lt_succ_of_le hvalue)]
    rw [evalNode, evalNode, mapM_congr hentry]
  | sum pos first rest =>
    have hrest := Expr.heightOperands_le_iff.mp (Nat.le_refl (Expr.heightOperands rest))
    have hfirst : first.height < (Expr.sum pos first rest).height :=
      Nat.lt_succ_of_le (Nat.le_max_left _ _)
    have hoperand : ∀ operand ∈ rest, ∀ left,
        operandWith inner left operand = operandWith inner' left operand := by
      intro operand hmem left
      have hle := Nat.le_trans (hrest operand hmem) (Nat.le_max_right first.height _)
      unfold operandWith
      rw [h _ (Nat.lt_succ_of_le hle)]
    rw [evalNode, evalNode, h first hfirst]
    exact congrArg _ (funext fun left => foldlM_congr hoperand left)
  | var pos argument =>
    rw [evalNode, evalNode, h argument (Nat.lt_succ_self _)]

/-- By the nodes that may be gone down: a tree no higher than that is evaluated as a whole. -/
theorem evalWithin_eq {n : Nat} {e : Expr} (h : e.height ≤ n)
    (beyond : Expr → Except EvalError Value) :
    evalWithin platform vars beyond n e = (eval platform vars e).outcome := by
  induction n generalizing e with
  | zero => exact absurd h (Nat.not_le.mpr e.height_pos)
  | succ n ih =>
    rw [evalWithin, outcome_eval_eq]
    exact evalNode_congr fun x hx => ih (by omega)

/-! ### Statements that are parsed -/

/-- However many tokens are parsed, the values of the statements are no higher than a number that
depends on the limit of open brackets alone, and evaluating them goes down no further. -/
theorem evalWithin_of_parse {tokens : List Token} {program : List Statement}
    (h : parse tokens = .ok program) :
    ∀ s ∈ program, s.value.height ≤ 2 * maxNesting + 2 ∧
      ∀ platform vars beyond, evalWithin platform vars beyond (2 * maxNesting + 2) s.value =
        (eval platform vars s.value).outcome := by
  intro s hs
  have hheight := height_of_parse h s hs
  exact ⟨hheight, fun _ _ beyond => evalWithin_eq hheight beyond⟩

/-- `x = 1 + [1 + [...]]` with as many brackets as may be open and a sum in the innermost one, which
is as high as a value can be. -/
theorem evalWithin_of_parse_brackets :
    let items : List Lexeme := [.name "x", .assign] ++
      (List.replicate maxNesting [.integer 1, .plus, .openBracket]).flatten ++
      [.integer 1, .plus, .integer 1] ++ List.replicate maxNesting .closeBracket ++ [.eof]
    ∃ program, parse (items.map (⟨.start, ·⟩)) = .ok program ∧
      program.map (·.value.height) = [2 * maxNesting + 2] ∧
      ∀ s ∈ program, s.value.height ≤ 2 * maxNesting + 2 ∧
        ∀ platform vars beyond, evalWithin platform vars beyond (2 * maxNesting + 2) s.value =
          (eval platform vars s.value).outcome := by
  intro items
  have hheights : (parse (items.map (⟨.start, ·⟩))).map (·.map (·.value.height)) =
      .ok [2 * maxNesting + 2] := by
    decide +kernel
  obtain ⟨program, h, hheight⟩ := Grammar.exists_of_map_eq_ok hheights
  exact ⟨program, h, hheight, evalWithin_of_parse h⟩

end PinnedDeps.Evaluation
