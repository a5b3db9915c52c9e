import PinnedDeps.CommandLine

/-! The program: arguments, environment and working directory go in, the manifest is echoed to
standard output, everything else goes to standard error. -/

namespace PinnedDeps

/-- Actions on the real machine, with the severities that are shown. -/
abbrev Shell := ReaderT (List Severity) IO

namespace Shell

/-- The fault behind an error of the system. -/
def faultOf : IO.Error → Storage.Fault
  | .noFileOrDirectory _ _ _ => .notFound
  | .resourceBusy 16 _ => .busy
  | .inappropriateType _ 20 _ => .notDirectory
  | .inappropriateType _ 21 _ => .isDirectory
  | .invalidArgument _ 36 _ => .nameTooLong
  | .permissionDenied _ code text | .resourceExhausted _ code text | .noSuchThing _ code text
  | .inappropriateType _ code text | .invalidArgument _ code text | .alreadyExists _ code text
  | .resourceBusy code text | .resourceVanished code text | .unsupportedOperation code text
  | .illegalOperation code text | .hardwareFault code text | .otherError code text =>
    .other s!"{text} (os error {code})"
  | error => .other (toString error)

def attempt (action : IO α) : Shell (Except Storage.Fault α) := do
  match ← action.toBaseIO with
  | .ok a => pure (.ok a)
  | .error e => pure (.error (faultOf e))

instance : Host Shell where
  read path := attempt do
    let handle ← IO.FS.Handle.mk path.text .read
    handle.readBinToEnd
  create path := attempt (IO.FS.writeBinFile path.text .empty)
  append path bytes := attempt do
    let handle ← IO.FS.Handle.mk path.text .append
    handle.write bytes
    handle.flush
  sync path := attempt do
    let handle ← IO.FS.Handle.mk path.text .append
    handle.flush
  rename source target := attempt (IO.FS.rename source.text target.text)
  remove path := attempt (IO.FS.removeFile path.text)
  echo text := attempt do (← IO.getStdout).putStr text
  flush := attempt do (← IO.getStdout).flush
  report event := do
    if event.severity ∈ (← read) then IO.eprintln s!"{event.severity.name} {event.message}"

end Shell

def usage : String :=
  "Usage: [-d PATH] [-o PATH] [--checkout-root PATH] [--format text|json] [--check-upstream] "
    ++ "[-v | -q] [-h] [-V]"

def version : String := "deps-flatten 0.1.0"

end PinnedDeps

open PinnedDeps in
def main (args : List String) : IO UInt32 := do
  match CommandLine.read args (← IO.getEnv CommandLine.rootVariable) with
  | .error rejection =>
    match rejection with
    | .versionAsked => IO.println version
    | .helpAsked => IO.println usage
    | _ => IO.eprintln usage
    pure rejection.exitCode.toUInt32
  | .ok options =>
    let settings := options.settings ⟨(← IO.currentDir).toString⟩
    let shown := if options.verbose then [.debug, .info] else []
    match ← (CommandLine.execute settings : Shell (Option Report)).run shown with
    | none => pure 0
    | some report =>
      let stream ← IO.getStderr
      stream.putStr (report.screen (← stream.isTty))
      pure 1
