import PinnedDeps.Platform
import PinnedDeps.Syntax.Reader
import PinnedDeps.Token.Lexer
import PinnedDeps.Traced

/-! The meaning of a DEPS text. Statements run from top to bottom and bind their targets in one scope.
`Var` looks a name up in the mapping that `vars` is bound to there, then in the platform table. In a
mapping literal the last entry of a key counts. Three targets, `vars`, `deps` and `deps_os`, take
mappings only, and in the end they are set apart from the rest of the scope. -/

namespace PinnedDeps

/-- What a DEPS text assigns. The three special targets are empty mappings until assigned; `scope`
holds all other names. -/
structure DepsFile where
  vars : Dict Value
  deps : Dict Value
  depsOs : Dict Value
  scope : Dict Value
  deriving Repr

/-- Why a DEPS text has no meaning. -/
inductive EvalError where
  | malformed (error : SyntaxError)
  | undefined (name : String)
  deriving DecidableEq, Repr

namespace Evaluation

abbrev Eval := Traced EvalError

/-- The mapping that a scope binds a name to; the empty one if it binds the name to anything else. -/
def mappingOf (scope : Dict Value) (name : String) : Dict Value :=
  ((scope.get? name).bind Value.entries?).getD []

/-- The variables of a scope. -/
def varsOf (scope : Dict Value) : Dict Value := mappingOf scope "vars"

/-- The value of a variable: that of the mapping if it has one, else that of the platform. -/
def lookup (platform : Platform) (vars : Dict Value) (name : String) : Except EvalError Value :=
  match vars.get? name with
  | some value => .ok value
  | none =>
    match platform.get? name with
    | some value => .ok (.str value)
    | none => .error (.undefined name)

/-- Two strings or two lists, joined. -/
def add (plus : Position) : Value → Value → Except EvalError Value
  | .str a, .str b => .ok (.str (a ++ b))
  | .list a, .list b => .ok (.list (a ++ b))
  | a, b => .error (.malformed ⟨plus, .unsupportedSum a.kind b.kind⟩)

/-- A mapping key. -/
def keyText (pos : Position) : Value → Except EvalError String
  | .str key => .ok key
  | value => .error (.malformed ⟨pos, .keyNotString value.kind⟩)

/-- The argument of `Var`. -/
def nameText (pos : Position) : Value → Except EvalError String
  | .str name => .ok name
  | value => .error (.malformed ⟨pos, .varNotString value.kind⟩)

section

variable (platform : Platform) (vars : Dict Value)

mutual

/-- The value of an expression, the variables being those of `vars` and the platform. -/
def eval : Expr → Eval Value
  | .str _ text => pure (.str text)
  | .int _ value => pure (.int value)
  | .bool _ value => pure (.bool value)
  | .none _ => pure .none
  | .list _ items => do
    let values ← evalItems (pure []) items
    pure (.list values.reverse)
  | .map _ entries => do
    let pairs ← evalEntries (pure []) entries
    pure (.map (Dict.ofPairs pairs.reverse))
  | .sum _ first rest => evalSum (eval first) rest
  | .var _ argument => do
    let name ← .ofExcept (nameText argument.pos (← eval argument))
    let value ← .ofExcept (lookup platform vars name)
    .report (.resolved name value)
    pure value

/-- The values of list items, in reverse and in front of those that `done` yields. -/
def evalItems (done : Eval (List Value)) : List Expr → Eval (List Value)
  | [] => done
  | item :: rest =>
    evalItems (done >>= fun values => do pure ((← eval item) :: values)) rest

/-- The pairs of mapping entries, in reverse and in front of those that `done` yields. -/
def evalEntries (done : Eval (List (String × Value))) :
    List (Expr × Expr) → Eval (List (String × Value))
  | [] => done
  | (key, value) :: rest =>
    evalEntries
      (done >>= fun pairs => do
        let name ← .ofExcept (keyText key.pos (← eval key))
        pure ((name, ← eval value) :: pairs))
      rest

/-- The sum of what `done` yields and further operands, from left to right. -/
def evalSum (done : Eval Value) : List (Position × Expr) → Eval Value
  | [] => done
  | (plus, operand) :: rest =>
    evalSum (done >>= fun left => do .ofExcept (add plus left (← eval operand))) rest

end

end

/-- Nothing assigned. -/
def nothing : DepsFile := ⟨[], [], [], []⟩

/-- The targets that take mappings only. -/
def mappingNames : List String := ["vars", "deps", "deps_os"]

/-- Refuses a value that the target of a statement does not take. -/
def checkTarget (s : Statement) (value : Value) : Except EvalError Unit :=
  if s.target ∈ mappingNames ∧ value.entries?.isNone then
    .error (.malformed ⟨s.pos, .notAMapping s.target value.kind⟩)
  else .ok ()

/-- One statement, after which its target is bound to its value. -/
def step (platform : Platform) (scope : Dict Value) (s : Statement) : Eval (Dict Value) := do
  let value ← eval platform (varsOf scope) s.value
  .ofExcept (checkTarget s value)
  .report (.assigned s.target value.kind)
  pure (scope.insert s.target value)

/-- The statements one after the other. -/
def runFrom (platform : Platform) (done : Eval (Dict Value)) :
    List Statement → Eval (Dict Value)
  | [] => done
  | s :: rest => runFrom platform (done >>= fun scope => step platform scope s) rest

end Evaluation

/-- A scope with the three special targets set apart. -/
def DepsFile.ofScope (scope : Dict Value) : DepsFile where
  vars := Evaluation.mappingOf scope "vars"
  deps := Evaluation.mappingOf scope "deps"
  depsOs := Evaluation.mappingOf scope "deps_os"
  scope := ((scope.erase "vars").erase "deps").erase "deps_os"

/-- What the statements assign, from a scope in which nothing is bound. -/
def run (platform : Platform) (program : List Statement) : Evaluation.Eval DepsFile := do
  let scope ← Evaluation.runFrom platform (pure []) program
  pure (.ofScope scope)

/-- What a DEPS text assigns. `source` names the text in reports. -/
def evaluate (platform : Platform) (source text : String) : Evaluation.Eval DepsFile := do
  let tokens ← .ofExcept ((tokenize text).mapError .malformed)
  .report (.lexed tokens.length source)
  let program ← .ofExcept ((parse tokens).mapError .malformed)
  run platform program

end PinnedDeps
