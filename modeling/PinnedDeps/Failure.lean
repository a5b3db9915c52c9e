import PinnedDeps.Evaluation

/-! Why a run fails, with the text that is shown for it. -/

namespace PinnedDeps

inductive Failure where
  /-- The DEPS text is refused at a place. -/
  | malformed (file : String) (pos : Position) (reason : String)
  | undefined (name : String)
  | fileNotFound (path : String)
  | lineOutOfRange (file : String) (index count : Nat)
  | noCommit (file : String) (index : Nat)
  | writeFailed (path reason : String)
  | unpinned (reference : String)
  /-- Dependencies and `upstream_` variables do not match. -/
  | inconsistent (problems : List String)
  | io (text : String)
  | other (text : String)
  deriving DecidableEq, Repr

namespace Failure

def message : Failure → String
  | .malformed file pos reason =>
    s!"Invalid DEPS syntax in {file} at line {pos.line}, column {pos.column}: {reason}"
  | .undefined name => s!"Var is not defined: {name}"
  | .fileNotFound path => s!"File not found: {path}"
  | .lineOutOfRange file index count =>
    s!"Line index {index} is out of range for {file} ({count} lines)"
  | .noCommit file index => s!"No bracketed commit found at line index {index} of {file}"
  | .writeFailed path reason => s!"Failed to write manifest to {path}: {reason}"
  | .unpinned reference =>
    s!"Invalid dependency reference '{reference}': expected <location>@<revision>"
  | .inconsistent problems =>
    s!"Upstream entries in DEPS are inconsistent ({problems.length} problem(s))"
  | .io text => s!"IO error: {text}"
  | .other text => text

end Failure

/-- The failure of a run whose DEPS text, called `file`, has no meaning. -/
def EvalError.inFile (file : String) : EvalError → Failure
  | .malformed error => .malformed file error.pos error.item.message
  | .undefined name => .undefined name

end PinnedDeps
