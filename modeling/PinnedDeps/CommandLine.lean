import PinnedDeps.Flatten
import PinnedDeps.Report

/-! The command line. An option that takes a value has it in the same argument, behind `=` or
directly behind its letter, or in the next argument, unless that starts with a dash. A value from
the next argument counts only once a further known option or the end of the line is reached, so an
unknown argument is noticed before a fault in such a value. -/

namespace PinnedDeps

/-- Why a command line leads to no run. -/
inductive Rejection where
  /-- A value is missing, empty or not among those allowed. -/
  | invalidValue
  | unknownArgument
  /-- An option is given twice, or together with one that excludes it. -/
  | conflict
  /-- A value is given to an option that takes none. -/
  | unexpectedValue
  | helpAsked
  | versionAsked
  deriving DecidableEq, Repr

def Rejection.exitCode : Rejection → Nat
  | .helpAsked | .versionAsked => 0
  | _ => 2

/-- What a command line says. -/
structure Options where
  deps : Option Path := none
  output : Option Path := none
  root : Option Path := none
  format : Option Format := none
  checkProvenance : Bool := false
  verbose : Bool := false
  quiet : Bool := false
  deriving DecidableEq, Repr

namespace CommandLine

/-- Options that take a value. -/
inductive Valued where
  | deps | output | root | format
  deriving DecidableEq, Repr

/-- Options that take none. -/
inductive Flag where
  | checkProvenance | verbose | quiet | help | version
  deriving DecidableEq, Repr

inductive Opt where
  | valued (option : Valued)
  | flag (flag : Flag)
  deriving DecidableEq, Repr

def long? (name : String) : Option Opt :=
  match name with
  | "deps" => some (.valued .deps)
  | "output" => some (.valued .output)
  | "checkout-root" => some (.valued .root)
  | "format" => some (.valued .format)
  | "check-upstream" => some (.flag .checkProvenance)
  | "verbose" => some (.flag .verbose)
  | "quiet" => some (.flag .quiet)
  | "help" => some (.flag .help)
  | "version" => some (.flag .version)
  | _ => none

def short? (letter : Char) : Option Opt :=
  match letter with
  | 'd' => some (.valued .deps)
  | 'o' => some (.valued .output)
  | 'v' => some (.flag .verbose)
  | 'q' => some (.flag .quiet)
  | 'h' => some (.flag .help)
  | 'V' => some (.flag .version)
  | _ => none

def readPath (text : String) : Except Rejection Path :=
  if text = "" then .error .invalidValue else .ok ⟨text⟩

def readFormat (text : String) : Except Rejection Format :=
  match text with
  | "text" => .ok .text
  | "json" => .ok .json
  | _ => .error .invalidValue

/-- Gives an option its value, once. -/
def setValue (given : Options) (option : Valued) (text : String) : Except Rejection Options :=
  match option with
  | .deps =>
    if given.deps.isSome then .error .conflict
    else (readPath text).map fun path => { given with deps := some path }
  | .output =>
    if given.output.isSome then .error .conflict
    else (readPath text).map fun path => { given with output := some path }
  | .root =>
    if given.root.isSome then .error .conflict
    else (readPath text).map fun path => { given with root := some path }
  | .format =>
    if given.format.isSome then .error .conflict
    else (readFormat text).map fun format => { given with format := some format }

/-- Sets a flag, once. -/
def setFlag (given : Options) : Flag → Except Rejection Options
  | .checkProvenance =>
    if given.checkProvenance then .error .conflict else .ok { given with checkProvenance := true }
  | .verbose => if given.verbose then .error .conflict else .ok { given with verbose := true }
  | .quiet => if given.quiet then .error .conflict else .ok { given with quiet := true }
  | .help => .error .helpAsked
  | .version => .error .versionAsked

/-- The options that count, and the one whose value is in the next argument, with that value if it
has been read. -/
structure State where
  given : Options
  waiting : Option (Valued × Option String)

/-- Makes the option that waits count. -/
def settle (s : State) : Except Rejection Options :=
  match s.waiting with
  | none => .ok s.given
  | some (_, none) => .error .invalidValue
  | some (option, some text) => setValue s.given option text

/-- An option with its value in the same argument, if it has one there. -/
def readValued (s : State) (option : Valued) (attached : Option String) :
    Except Rejection State := do
  let given ← settle s
  match attached with
  | some text => pure ⟨← setValue given option text, none⟩
  | none => pure ⟨given, some (option, none)⟩

def readFlag (s : State) (flag : Flag) : Except Rejection State := do
  let given ← settle s
  pure ⟨← setFlag given flag, none⟩

/-- The argument after two dashes. -/
def readLong (s : State) (body : List Char) : Except Rejection State :=
  let (name, attached) :=
    match Text.cutFirst '=' body with
    | some (name, text) => (name, some (String.ofList text))
    | none => (body, none)
  match long? (String.ofList name), attached with
  | some (.valued option), attached => readValued s option attached
  | some (.flag flag), none => readFlag s flag
  | some (.flag _), some _ => .error .unexpectedValue
  | none, _ => .error .unknownArgument

/-- The letters after one dash. The first that takes a value has the rest of them for it. -/
def readShort (s : State) : List Char → Except Rejection State
  | [] => .ok s
  | letter :: rest =>
    match short? letter with
    | some (.flag flag) =>
      match readFlag s flag with
      | .ok s => readShort s rest
      | .error e => .error e
    | some (.valued option) =>
      match rest with
      | [] => readValued s option none
      | '=' :: value => readValued s option (some (String.ofList value))
      | value => readValued s option (some (String.ofList value))
    | none => .error .unknownArgument

/-- An argument that is not an option: a value, if an option waits for one. -/
def readPlain (s : State) (arg : String) : Except Rejection State :=
  match s.waiting with
  | some (option, none) => .ok { s with waiting := some (option, some arg) }
  | _ => .error .unknownArgument

def readArgument (s : State) (arg : String) : Except Rejection State :=
  match arg.toList with
  | '-' :: '-' :: body => readLong s body
  | '-' :: letter :: letters => readShort s (letter :: letters)
  | _ => readPlain s arg

/-- All arguments. Two dashes end the options, and nothing may come after them. -/
def readAll (s : State) : List String → Except Rejection Options
  | [] => settle s
  | arg :: rest =>
    if arg = "--" then if rest = [] then settle s else .error .unknownArgument
    else
      match readArgument s arg with
      | .ok s => readAll s rest
      | .error e => .error e

/-- The environment variable that gives the checkout root when no option does. -/
def rootVariable : String := "DEPS_FLATTEN_CHECKOUT_ROOT"

/-- The options of a command line, with the value of the environment variable. -/
def read (args : List String) (rootInEnvironment : Option String) : Except Rejection Options := do
  let given ← readAll ⟨{}, none⟩ args
  let given ←
    match given.root, rootInEnvironment with
    | none, some text => setValue given .root text
    | _, _ => pure given
  if given.verbose ∧ given.quiet then throw .conflict
  pure given

end CommandLine

namespace Options

/-- The settings of a run started in the directory `cwd`. Given paths are seen from there, the
usual ones from the checkout root. -/
def settings (o : Options) (cwd : Path) : Settings :=
  let root := (o.root.map cwd.resolveAgainst).getD cwd
  let usual := Settings.under root
  { usual with
    deps := (o.deps.map cwd.resolveAgainst).getD usual.deps
    output := (o.output.map cwd.resolveAgainst).getD usual.output
    format := o.format.getD .text
    checkProvenance := o.checkProvenance }

end Options

namespace CommandLine

variable {m : Type → Type} [Monad m] [Host m]

/-- Runs, and turns a failure into a report that names the DEPS file. -/
def execute (s : Settings) : m (Option Report) := do
  match ← (Flatten.run s).run with
  | .ok _ => pure none
  | .error failure =>
    pure (some (.ofIncident ⟨.failure failure, ["Failed to flatten " ++ s.deps.text]⟩))

end CommandLine

end PinnedDeps
