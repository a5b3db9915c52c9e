import PinnedDeps.CommitNote
import PinnedDeps.Manifest
import PinnedDeps.Provenance

/-! One run: the DEPS file and the commit note of a checkout are read, the manifest is built,
echoed and written. Everything is read and checked before anything is echoed, and echoed before
anything is written, so a failing run leaves the old manifest in place. -/

namespace PinnedDeps

/-- What a run works on. -/
structure Settings where
  root : Path
  deps : Path
  output : Path
  format : Format
  /-- Whether dependencies and the variables that name their homes must match. -/
  checkProvenance : Bool
  platform : Platform

namespace Settings

/-- Everything at its usual place under a checkout. -/
def under (root : Path) : Settings where
  root := root
  deps := root.join ⟨"DEPS"⟩
  output := root.join ⟨"deps_flatten.txt"⟩
  format := .text
  checkProvenance := false
  platform := .builtIn

def note (s : Settings) : CommitNote := .accessibility s.root

end Settings

namespace Flatten

variable {m : Type → Type} [Monad m] [Host m]

/-- What the DEPS file at a path assigns. -/
def evaluateFile (platform : Platform) (path : Path) : Task m DepsFile := do
  let text ← Storage.readText path
  let file ← Task.ofTraced ((evaluate platform path.text text).mapError (EvalError.inFile path.text))
  Task.report (.evaluated path.text file.deps.length file.vars.length)
  pure file

/-- The written references of a file, with a report for each dependency left out. -/
def pinned (file : DepsFile) : Task m (List String) := do
  file.skipped.forM Task.report
  pure file.pinned

/-- The manifest, without writing it. -/
def build (s : Settings) : Task m Manifest := do
  let file ← evaluateFile s.platform s.deps
  if s.checkProvenance then
    Task.ofTraced (Provenance.check file)
    Task.report .consistent
  let entries ← pinned file
  Task.report (.pinned entries.length file.deps.length)
  let entries ← s.note.appendTo entries
  Task.ofExcept (Manifest.ofEntries entries)

/-- Echoes a manifest with a line feed behind it, then writes it without one. -/
def write (manifest : Manifest) (format : Format) (output : Path) : Task m Unit := do
  let text := manifest.render format
  Task.echo (text ++ "\n")
  Storage.writeText output text
  Task.report (.wroteManifest manifest.size output.text)

/-- Builds the manifest, echoes it and writes it. -/
def run (s : Settings) : Task m Manifest := do
  Task.report (.flattening s.deps.text)
  let manifest ← build s
  write manifest s.format s.output
  pure manifest

end Flatten

end PinnedDeps
