import PinnedDeps.Reference
import PinnedDeps.Storage.Host
import PinnedDeps.Text.Lines

/-! Commits noted in documents. Sources that were copied into a checkout are not among its
dependencies; the commit they were taken from stands in square brackets on a fixed line of a
document beside them. -/

namespace PinnedDeps

/-- A document, the index of the line that names the commit, and the location of the sources. -/
structure CommitNote where
  document : Path
  line : Nat
  location : String

namespace CommitNote

/-- The text from behind the first `[` to the last `]` behind it. -/
def widestSpan (cs : List Char) : Option (List Char) := do
  let (_, after) ← Text.cutFirst '[' cs
  let (inside, _) ← Text.cutLast ']' after
  pure inside

/-- The widest span in brackets of the first piece between line feeds that has one. -/
def bracketed (cs : List Char) : Option (List Char) := (Text.pieces '\n' cs).findSome? widestSpan

/-- The commit that the contents of the document name. -/
def commitIn (note : CommitNote) (contents : String) : Except Failure String :=
  let lines := Text.lines contents.toList
  match lines[note.line]? with
  | none => .error (.lineOutOfRange note.document.text note.line lines.length)
  | some line =>
    match bracketed line with
    | none | some [] => .error (.noCommit note.document.text note.line)
    | some commit => .ok (String.ofList commit)

variable {m : Type → Type} [Monad m] [Host m]

def commit (note : CommitNote) : Task m String := do
  let contents ← Storage.readText note.document
  Task.ofExcept (note.commitIn contents)

/-- The location pinned to the commit, as a written reference. -/
def reference (note : CommitNote) : Task m String := do
  let commit ← note.commit
  let reference := note.location ++ "@" ++ commit
  Task.report (.extracted reference note.document.text)
  pure reference

/-- Written references with that of the note behind them. -/
def appendTo (note : CommitNote) (entries : List String) : Task m (List String) := do
  let reference ← note.reference
  pure (entries ++ [reference])

/-- The note on the accessibility sources of a checkout. -/
def accessibility (root : Path) : CommitNote where
  document := root.join ⟨"third_party/accessibility/README.md"⟩
  line := 4
  location := "https://chromium.googlesource.com/chromium/src"

end CommitNote

end PinnedDeps
