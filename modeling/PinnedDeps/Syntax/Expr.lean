import PinnedDeps.Source

/-! Statements and expressions of the DEPS dialect. An expression knows the place of its first
token; a sum knows the place of its first `+` instead, and each later operand that of the `+` in
front of it. Parentheses leave no trace. -/

namespace PinnedDeps

inductive Expr where
  | str (pos : Position) (text : String)
  | int (pos : Position) (value : Int)
  | bool (pos : Position) (value : Bool)
  | none (pos : Position)
  | list (pos : Position) (items : List Expr)
  | map (pos : Position) (entries : List (Expr × Expr))
  | sum (pos : Position) (first : Expr) (rest : List (Position × Expr))
  | var (pos : Position) (argument : Expr)
  deriving Repr

def Expr.pos : Expr → Position
  | .str pos _ | .int pos _ | .bool pos _ | .none pos | .list pos _ | .map pos _ | .sum pos _ _
  | .var pos _ => pos

/-- An assignment, at the place of its target. -/
structure Statement where
  target : String
  pos : Position
  value : Expr
  deriving Repr

end PinnedDeps
