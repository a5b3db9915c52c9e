import PinnedDeps.Failure
import PinnedDeps.Text.Cut

/-! Pinned references: a location and a revision, written with an `@` between them. Locations may
hold further `@`s, revisions may not. -/

namespace PinnedDeps

structure Reference where
  location : String
  revision : String
  deriving DecidableEq, Repr

namespace Reference

/-- Reads a reference: the last `@` divides it, and neither side may be empty. -/
def parse? (text : String) : Option Reference :=
  match Text.cutLast '@' text.toList with
  | some (location, revision) =>
    if location = [] ∨ revision = [] then none
    else some ⟨String.ofList location, String.ofList revision⟩
  | none => none

def parse (text : String) : Except Failure Reference :=
  match parse? text with
  | some reference => .ok reference
  | none => .error (.unpinned text)

/-- The written form. -/
def text (r : Reference) : String := r.location ++ "@" ++ r.revision

/-- The name of the repository: what follows the last `/` of the location, up to its first `.`. -/
def shortName (r : Reference) : String :=
  let location := r.location.toList
  let segment := ((Text.cutLast '/' location).map Prod.snd).getD location
  String.ofList (((Text.cutFirst '.' segment).map Prod.fst).getD segment)

end Reference

end PinnedDeps
