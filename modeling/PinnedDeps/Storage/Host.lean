import PinnedDeps.Failure
import PinnedDeps.Path
import PinnedDeps.Storage.Fault

/-! What a run asks of the machine it runs on: to read a file, to write one in single steps, to
echo text and to take note of an event. A file is replaced by way of another one beside it, so that
what stands at its path is at every moment either the old contents or the whole of the new ones.
A text has been echoed when the echo, which may hold some of it back, has been flushed. -/

namespace PinnedDeps

class Host (m : Type → Type) where
  read : Path → m (Except Storage.Fault ByteArray)
  /-- Makes an empty file, also in place of an existing one. -/
  create : Path → m (Except Storage.Fault Unit)
  append : Path → ByteArray → m (Except Storage.Fault Unit)
  sync : Path → m (Except Storage.Fault Unit)
  /-- Gives the first file the second path, in place of a file there. -/
  rename : Path → Path → m (Except Storage.Fault Unit)
  remove : Path → m (Except Storage.Fault Unit)
  /-- Hands a text to the echo, which may hold it back. -/
  echo : String → m (Except Storage.Fault Unit)
  /-- Makes the echo pass on what it holds back. -/
  flush : m (Except Storage.Fault Unit)
  report : Event → m Unit

/-- A part of a run: it asks the machine and may fail. -/
abbrev Task (m : Type → Type) := ExceptT Failure m

namespace Task

variable {m : Type → Type} [Monad m] [Host m] {α : Type}

def report (event : Event) : Task m Unit := ExceptT.lift (Host.report event)

/-- A traced computation whose events the machine notes. -/
def ofTraced (x : Traced Failure α) : Task m α := do
  x.events.forM report
  ExceptT.mk (pure x.outcome)

def ofExcept (x : Except Failure α) : Task m α := ExceptT.mk (pure x)

/-- What the machine does, where a fault is a failure that names no file. -/
def attempt (x : m (Except Storage.Fault α)) : Task m α := do
  match ← ExceptT.lift x with
  | .ok a => pure a
  | .error fault => throw (.io fault.message)

/-- Echoes a text, all of which has been passed on in the end. -/
def echo (text : String) : Task m Unit := do
  attempt (Host.echo text)
  attempt Host.flush

end Task

namespace Storage

variable {m : Type → Type} [Monad m] [Host m]

/-- The text of a file. -/
def readText (path : Path) : Task m String := do
  match ← ExceptT.lift (Host.read path) with
  | .error .notFound => throw (.fileNotFound path.text)
  | .error fault => throw (.io fault.message)
  | .ok bytes =>
    match String.fromUTF8? bytes with
    | none => throw (.io Fault.notText.message)
    | some text => do
      Task.report (.read bytes.size path.text)
      pure text

/-- The steps by which the file at `path` gets the contents, the last of which makes them visible. -/
def replaceSteps (temp path : Path) (bytes : ByteArray) : ExceptT Fault m Unit := do
  ExceptT.mk (Host.create temp)
  ExceptT.mk (Host.append temp bytes)
  ExceptT.mk (Host.sync temp)
  ExceptT.mk (Host.rename temp path)

/-- Writes bytes to a file, all or none. When a step fails, the file beside is removed. -/
def writeBytes (path : Path) (bytes : ByteArray) : Task m Unit := do
  match ← ExceptT.lift (replaceSteps path.temporary path bytes).run with
  | .ok () => Task.report (.wroteBytes bytes.size path.text)
  | .error fault => do
    let _ ← ExceptT.lift (Host.remove path.temporary)
    throw (.writeFailed path.text fault.message)

def writeText (path : Path) (text : String) : Task m Unit := writeBytes path text.toUTF8

end Storage

end PinnedDeps
