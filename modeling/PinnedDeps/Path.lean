import PinnedDeps.Text.Cut

/-! Paths as written: parts separated by slashes. Nothing is looked up and nothing is simplified;
a part that is empty or a dot is only skipped where the last name of a path is sought. -/

namespace PinnedDeps

structure Path where
  text : String
  deriving DecidableEq, Repr

namespace Path

def parts (p : Path) : List String := (Text.pieces '/' p.text.toList).map String.ofList

def isAbsolute (p : Path) : Bool := p.text.toList.head? = some '/'

def endsInSlash (p : Path) : Bool := p.text.toList.getLast? = some '/'

/-- The path `q` as seen from the directory `p`. -/
def join (p q : Path) : Path :=
  if q.isAbsolute then q
  else if p.text = "" ∨ p.endsInSlash then ⟨p.text ++ q.text⟩
  else ⟨p.text ++ "/" ++ q.text⟩

/-- An absolute path itself, any other as seen from `root`. -/
def resolveAgainst (root p : Path) : Path := if p.isAbsolute then p else root.join p

def isSkipped (part : String) : Bool := part = "" || part = "."

/-- The parts without those at the end that name nothing. -/
def trimmed (parts : List String) : List String := (parts.reverse.dropWhile isSkipped).reverse

/-- The path of the directory and the last name. There is none when the path is empty or the root,
or when its last part that counts goes to the directory itself or above it. -/
def split? (p : Path) : Option (Path × String) :=
  match p.parts with
  | [] => none
  | first :: rest =>
    match (trimmed rest).reverse with
    | [] => if isSkipped first ∨ first = ".." then none else some (⟨""⟩, first)
    | last :: before =>
      if last = ".." then none
      else
        let parent := first :: trimmed before.reverse
        some (⟨if parent = [""] then "/" else "/".intercalate parent⟩, last)

/-- The path with its last name replaced, or with the name put behind it when it has none. -/
def withLastName (p : Path) (name : String) : Path :=
  match p.split? with
  | some (parent, _) => parent.join ⟨name⟩
  | none => p.join ⟨name⟩

/-- Where the text is collected that is to replace the file at the path: beside it, with `.tmp`
behind its name. -/
def temporary (p : Path) : Path :=
  p.withLastName (((p.split?.map Prod.snd).getD "") ++ ".tmp")

end Path

end PinnedDeps
