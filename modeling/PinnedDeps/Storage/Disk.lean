import PinnedDeps.Path
import PinnedDeps.Storage.Fault

/-! A disk without links: files and directories by the names that lead to them from the root. A
path is walked part by part, from the root or from the working directory; every part but the last
must be a directory that exists. -/

namespace PinnedDeps.Storage

/-- The names from the root to a file or directory. -/
abbrev Location := List String

inductive Node where
  | file (bytes : ByteArray)
  | directory

/-- The nodes below the root, which is always a directory, and the working directory. -/
structure Disk where
  nodes : List (Location × Node)
  cwd : Location

namespace Disk

def get? (d : Disk) : Location → Option Node
  | [] => some .directory
  | location => d.nodes.lookup location

def erase (d : Disk) (location : Location) : Disk :=
  { d with nodes := d.nodes.filter fun entry => entry.1 ≠ location }

def set (d : Disk) (location : Location) (node : Node) : Disk :=
  let d := d.erase location
  { d with nodes := (location, node) :: d.nodes }

def isDirectory (d : Disk) (location : Location) : Bool :=
  match d.get? location with
  | some .directory => true
  | _ => false

/-! ### Walking a path -/

/-- The greatest size of a name and, with the byte that ends it, of a path. -/
def maxName : Nat := 255
def maxPath : Nat := 4096

/-- The location of a name in a directory, which must be one. -/
def child (d : Disk) (here : Location) (name : String) : Except Fault Location :=
  if !d.isDirectory here then .error .notDirectory
  else if name = "." then .ok here
  else if name = ".." then .ok here.dropLast
  else if name.utf8ByteSize > maxName then .error .nameTooLong
  else .ok (here ++ [name])

/-- The location that the names lead to. All but the last must exist. -/
def walk (d : Disk) (here : Location) : List String → Except Fault Location
  | [] => .ok here
  | name :: rest =>
    match d.child here name with
    | .error fault => .error fault
    | .ok next =>
      if rest ≠ [] ∧ (d.get? next).isNone then .error .notFound else d.walk next rest

/-- The parts of a path that lead somewhere, unless no path may be written so. -/
def names (p : Path) : Except Fault (List String) :=
  if '\x00' ∈ p.text.toList then .error .nulInPath
  else if p.text = "" then .error .notFound
  else if p.text.utf8ByteSize ≥ maxPath then .error .nameTooLong
  else .ok (p.parts.filter (· ≠ ""))

def origin (d : Disk) (p : Path) : Location := if p.isAbsolute then [] else d.cwd

/-- The location of a path, whether or not anything is there. -/
def locate (d : Disk) (p : Path) : Location :=
  (p.parts.filter (· ≠ "")).foldl
    (fun here name =>
      if name = "." then here else if name = ".." then here.dropLast else here ++ [name])
    (d.origin p)

/-- What a path leads to. A slash at the end asks for a directory. -/
def find (d : Disk) (p : Path) : Except Fault Node := do
  let names ← names p
  let location ← d.walk (d.origin p) (names ++ if p.endsInSlash then ["."] else [])
  match d.get? location with
  | some node => pure node
  | none => throw .notFound

/-- The directory of a path's last name and that name; `none` when the path ends in a dot or two,
or is the root. -/
def directoryOf (d : Disk) (p : Path) : Except Fault (Location × Option String) := do
  let names ← names p
  let directory ← d.walk (d.origin p) names.dropLast
  if !d.isDirectory directory then
    throw (if (d.get? directory).isNone then .notFound else .notDirectory)
  match names.getLast? with
  | none | some "." | some ".." => pure (directory, none)
  | some name => pure (directory, some name)

/-! ### Operations on files -/

def read (d : Disk) (p : Path) : Except Fault ByteArray := do
  match ← d.find p with
  | .file bytes => pure bytes
  | .directory => throw .isDirectory

/-- Where a file of that path is or would be. -/
def fileLocation (d : Disk) (p : Path) : Except Fault Location := do
  let (directory, name?) ← d.directoryOf p
  match name? with
  | none => throw .isDirectory
  | some name =>
    let location ← d.child directory name
    if p.endsInSlash ∨ d.isDirectory location then throw .isDirectory else pure location

def create (d : Disk) (p : Path) : Except Fault Disk := do
  let location ← d.fileLocation p
  pure (d.set location (.file .empty))

def append (d : Disk) (p : Path) (bytes : ByteArray) : Except Fault Disk := do
  let location ← d.fileLocation p
  match d.get? location with
  | some (.file old) => pure (d.set location (.file (old ++ bytes)))
  | _ => throw .notFound

/-- Removes a file; a directory stays. -/
def remove (d : Disk) (p : Path) : Except Fault Disk := do
  let location ← d.fileLocation p
  match d.get? location with
  | some _ => pure (d.erase location)
  | none => throw .notFound

/-- Moves a file to another path, in place of a file there. A path that ends in dots or is the root
is never free to be replaced, a directory is not replaced by a file, and only files are moved. -/
def rename (d : Disk) (source target : Path) : Except Fault Disk := do
  let (sourceDirectory, sourceName?) ← d.directoryOf source
  let (targetDirectory, targetName?) ← d.directoryOf target
  match sourceName?, targetName? with
  | some sourceName, some targetName =>
    let old ← d.child sourceDirectory sourceName
    let new ← d.child targetDirectory targetName
    match d.get? old with
    | some (.file bytes) =>
      if target.endsInSlash then throw .notDirectory
      else if d.isDirectory new then throw .isDirectory
      else pure ((d.erase old).set new (.file bytes))
    | some .directory => throw .isDirectory
    | none => throw .notFound
  | _, _ => throw .busy

end Disk

end PinnedDeps.Storage
