import PinnedDeps.Reference

/-! Where pinned dependencies come from. `vars` names the home of a dependency in an entry
`upstream_<short name>`; every pinned dependency but the exempt ones needs such an entry, and every
such entry needs a dependency. -/

namespace PinnedDeps

namespace DepsFile

/-- The written references among the dependencies, in the order of their keys. Dependencies of any
other kind describe packages and are left out. -/
def pinned (file : DepsFile) : List String := file.deps.values.filterMap Value.text?

/-- A report for each dependency that is left out. -/
def skipped (file : DepsFile) : List Event :=
  file.deps.filterMap fun (name, value) =>
    match value with
    | .str _ => none
    | value => some (.skipped name value.kind)

end DepsFile

namespace Provenance

def entryPrefix : String := "upstream_"

/-- Dependencies that need no entry. -/
def exempt : List String := ["vulkan-deps", "khronos"]

/-- Names in ascending order, each once. -/
def ascending (names : List String) : List String :=
  (Dict.ofPairs (names.map fun name => (name, ()))).keys

/-- The name for which a variable called `key` gives the home. -/
def subject? (key : String) : Option String :=
  if entryPrefix.toList.isPrefixOf key.toList then
    some (String.ofList (key.toList.drop entryPrefix.length))
  else none

/-- The short names of written references. -/
def dependencies (entries : List String) : Except Failure (List String) := do
  let references ← entries.mapM Reference.parse
  pure (ascending (references.map (·.shortName)))

/-- The names for which the variables give a home. -/
def subjects (vars : Dict Value) : List String := ascending (vars.keys.filterMap subject?)

def missingEntry (name : String) : String :=
  s!"{name} has no '{entryPrefix}{name}' entry in vars; every dependency needs an upstream URL"

def missingDependency (name : String) : String :=
  s!"'{entryPrefix}{name}' in vars has no matching dependency in deps"

/-- What is wrong between the dependencies and the names that have a home. -/
def problems (dependencies subjects : List String) : List String :=
  (dependencies.filter fun name => name ∉ exempt ∧ name ∉ subjects).map missingEntry
    ++ (subjects.filter fun name => name ∉ dependencies).map missingDependency

/-- Succeeds when dependencies and entries match. -/
def check (file : DepsFile) : Traced Failure Unit := do
  .reportAll file.skipped
  let names ← .ofExcept (dependencies file.pinned)
  .reportAll ((names.filter (· ∈ exempt)).map .exempt)
  match problems names (subjects file.vars) with
  | [] => pure ()
  | found => .fail (.inconsistent found)

end Provenance

end PinnedDeps
