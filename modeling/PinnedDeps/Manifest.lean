import PinnedDeps.Manifest.Json

/-! The manifest: all pinned references of a checkout in ascending order of their written forms,
repeated ones included. -/

namespace PinnedDeps

/-- How a manifest is written. -/
inductive Format where
  | text | json
  deriving DecidableEq, Repr

structure Manifest where
  references : List Reference
  deriving DecidableEq, Repr

namespace Manifest

/-- The manifest of some written references. The first that is none, in the order given, fails. -/
def ofEntries (entries : List String) : Except Failure Manifest := do
  let references ← entries.mapM Reference.parse
  pure ⟨references.mergeSort fun a b => a.text ≤ b.text⟩

def entries (m : Manifest) : List String := m.references.map (·.text)

def size (m : Manifest) : Nat := m.references.length

/-- One reference a line, without a line feed at the end. -/
def toText (m : Manifest) : String := "\n".intercalate m.entries

def render (m : Manifest) : Format → String
  | .text => m.toText
  | .json => Json.array m.references

end Manifest

end PinnedDeps
