import PinnedDeps.Value

/-! What a run reports while it works: one event per step worth a line in the log, each with its
severity and its wording. -/

namespace PinnedDeps

inductive Severity where
  | trace | debug | info
  deriving DecidableEq, Repr

def Severity.name : Severity → String
  | .trace => "TRACE"
  | .debug => "DEBUG"
  | .info => "INFO"

inductive Event where
  | read (bytes : Nat) (path : String)
  | lexed (tokens : Nat) (source : String)
  | resolved (name : String) (value : Value)
  | assigned (target : String) (kind : Value.Kind)
  | evaluated (source : String) (deps vars : Nat)
  | skipped (name : String) (kind : Value.Kind)
  | exempt (name : String)
  | consistent
  | pinned (count total : Nat)
  | extracted (reference path : String)
  | flattening (path : String)
  | wroteBytes (bytes : Nat) (path : String)
  | wroteManifest (entries : Nat) (path : String)
  deriving Repr

namespace Event

def severity : Event → Severity
  | .read _ _ | .lexed _ _ | .resolved _ _ | .wroteBytes _ _ => .trace
  | .flattening _ | .wroteManifest _ _ => .info
  | _ => .debug

def message : Event → String
  | .read bytes path => s!"Read {bytes} bytes from {path}"
  | .lexed tokens source => s!"Lexed {tokens} tokens from {source}"
  | .resolved name value => s!"Var('{name}') -> {value.display}"
  | .assigned target kind => s!"Assigned '{target}' ({kind.name})"
  | .evaluated source deps vars => s!"Parsed {source}: {deps} deps, {vars} vars"
  | .skipped name kind => s!"Skipping structured dependency '{name}' ({kind.name})"
  | .exempt name => s!"'{name}' is exempt from the upstream check"
  | .consistent => "Upstream entries are consistent"
  | .pinned count total => s!"{count} of {total} deps are pinned references"
  | .extracted reference path => s!"Extracted {reference} from {path}"
  | .flattening path => s!"Flattening {path}"
  | .wroteBytes bytes path => s!"Wrote {bytes} bytes to {path}"
  | .wroteManifest entries path => s!"Wrote {entries} dependencies to {path}"

end Event

end PinnedDeps
