import PinnedDeps.Failure

/-! What the user is told about a failure: the failure itself, details, and what may help. An
incident is a failure, or an error of another kind, around which callers put messages of their own;
of these only the outermost is told. -/

namespace PinnedDeps

structure Report where
  failure : Failure
  suggestion : Option String := none
  details : Option String := none
  deriving DecidableEq, Repr

/-- What went wrong at the core of an incident. -/
inductive Cause where
  | failure (failure : Failure)
  /-- An error of the system that no part of a run has put into its own words. -/
  | io (text : String)
  | message (text : String)
  deriving DecidableEq, Repr

/-- A cause and the messages around it, from the innermost to the outermost. -/
structure Incident where
  cause : Cause
  messages : List String
  deriving DecidableEq, Repr

def Cause.text : Cause → String
  | .failure f => f.message
  | .io text => text
  | .message text => text

/-- The outermost message, or the text of the cause when there is none. -/
def Incident.text (i : Incident) : String := i.messages.getLast?.getD i.cause.text

namespace Failure

/-- What may help against a failure. -/
def suggestion : Failure → Option String
  | .malformed _ _ _ =>
    some "Only mapping and list literals, strings, '+' and Var(...) are accepted in DEPS"
  | .undefined name => some s!"Define '{name}' in the vars mapping of the DEPS file"
  | .fileNotFound _ =>
    some "Pass --checkout-root, --deps or --output to point at the right files"
  | .lineOutOfRange _ _ _ => some "The README must keep the commit hash on its fifth line"
  | .noCommit _ _ => some "Write the pinned commit on that line as '[<commit>]'"
  | .writeFailed _ _ => some "Check that the output directory exists and is writable"
  | .unpinned _ => some "Pin every entry in deps to a revision with '@<revision>'"
  | .inconsistent _ => some "Add or remove the matching 'upstream_<name>' entries in vars"
  | .io _ => some "Check file permissions and that the paths exist"
  | .other _ => none

def details : Failure → Option String
  | .undefined _ => some "Only host_cpu and host_os have built-in defaults"
  | .inconsistent problems => some ("\n".intercalate problems)
  | _ => none

/-- The failure that a report shows: an error of the system is told by its text alone. -/
def shown : Failure → Failure
  | .io text => .other (Failure.io text).message
  | failure => failure

end Failure

namespace Report

def ofFailure (failure : Failure) : Report :=
  ⟨failure.shown, failure.suggestion, failure.details⟩

/-- The report on an incident. The outermost message joins the details of a failure unless it only
repeats it. -/
def ofIncident (i : Incident) : Report :=
  match i.cause with
  | .failure failure =>
    let report := ofFailure failure
    if i.text = failure.message then report
    else
      match report.details with
      | some details => { report with details := some (details ++ "\n" ++ i.text) }
      | none => { report with details := some i.text }
  | .io text =>
    ⟨.other i.text, some "Check file permissions and that the paths exist",
      some ("IO error: " ++ text)⟩
  | .message _ => ⟨.other i.text, some "Check the error message above for more details", none⟩

/-- The report as one text. -/
def text (r : Report) : String :=
  r.failure.message ++ (r.details.map ("\nDetails: " ++ ·)).getD ""
    ++ (r.suggestion.map ("\nSuggestion: " ++ ·)).getD ""

/-- A heading on a terminal, in the style of the given code when colours are wanted. -/
def heading (colored : Bool) (code word : String) : String :=
  if colored then "\x1b[" ++ code ++ "m" ++ word ++ "\x1b[0m: " else word ++ ": "

/-- The report as lines for a terminal. -/
def screen (colored : Bool) (r : Report) : String :=
  let line (code word text : String) := heading colored code word ++ text ++ "\n"
  line "1;31" "error" r.failure.message
    ++ (r.details.map (line "33" "details")).getD ""
    ++ (r.suggestion.map (line "32" "suggestion")).getD ""

end Report

end PinnedDeps
