import PinnedDeps.Storage.Disk
import PinnedDeps.Storage.Host

/-! A machine as plain data, on which runs can be followed: a disk, the text echoed so far and the
events noted. Any step of a write may be set to fail, the writing of bytes after any number of
them, and so may the removal of a file. The echo may take a limited number of bytes, and where it
takes them all it may still be set to fail when it is flushed. -/

namespace PinnedDeps.Storage

/-- Which steps fail, and how. -/
structure Faults where
  create : Option Fault := none
  /-- The number of bytes still written. -/
  append : Option (Nat × Fault) := none
  sync : Option Fault := none
  rename : Option Fault := none
  /-- The removal of a file, which is no step of a write but follows one that failed. -/
  remove : Option Fault := none
  /-- The flush of the echo. -/
  flush : Option Fault := none

/-- No step fails by itself. -/
def Faults.none : Faults := {}

structure Machine where
  disk : Disk
  faults : Faults := .none
  /-- What the echo has taken. -/
  echoed : ByteArray := .empty
  /-- What of it the echo has passed on for certain, having been flushed. -/
  flushed : ByteArray := .empty
  echoLimit : Option Nat := none
  events : Array Event := #[]

namespace Machine

def echoClosed : Fault := .other "echo closed"

/-- A step on the disk, unless it is set to fail. -/
def onDisk (fault : Option Fault) (step : Disk → Except Fault Disk) :
    StateM Machine (Except Fault Unit) := fun machine =>
  match fault with
  | some fault => (.error fault, machine)
  | none =>
    match step machine.disk with
    | .ok disk => (.ok (), { machine with disk })
    | .error fault => (.error fault, machine)

/-- Writes bytes behind those of a file. A write set to fail leaves the first few of them. -/
def append (path : Path) (bytes : ByteArray) : StateM Machine (Except Fault Unit) := fun machine =>
  match machine.faults.append with
  | none => onDisk none (·.append path bytes) machine
  | some (count, fault) =>
    let (_, machine) := onDisk none (·.append path (bytes.extract 0 count)) machine
    (.error fault, machine)

/-- Takes a text to be echoed, up to the limit. -/
def echo (text : String) : StateM Machine (Except Fault Unit) := fun machine =>
  let bytes := text.toUTF8
  match machine.echoLimit with
  | some limit =>
    let room := limit - machine.echoed.size
    if bytes.size ≤ room then (.ok (), { machine with echoed := machine.echoed ++ bytes })
    else (.error echoClosed, { machine with echoed := machine.echoed ++ bytes.extract 0 room })
  | none => (.ok (), { machine with echoed := machine.echoed ++ bytes })

/-- Passes on all that the echo has taken, unless that is set to fail. -/
def flush : StateM Machine (Except Fault Unit) := fun machine =>
  match machine.faults.flush with
  | some fault => (.error fault, machine)
  | none => (.ok (), { machine with flushed := machine.echoed })

instance : Host (StateM Machine) where
  read path := fun machine => (machine.disk.read path, machine)
  create path := fun machine => onDisk machine.faults.create (·.create path) machine
  append := append
  sync _ := fun machine => onDisk machine.faults.sync .ok machine
  rename source target := fun machine =>
    onDisk machine.faults.rename (·.rename source target) machine
  remove path := fun machine => onDisk machine.faults.remove (·.remove path) machine
  echo := echo
  flush := flush
  report event := fun machine => ((), { machine with events := machine.events.push event })

end Machine

end PinnedDeps.Storage
