import PinnedDeps.Proofs.Storage.Write

/-! Writes are atomic. Whichever step fails, and however many bytes have been written by then, the
target holds all of the new bytes or is what it was. The file beside it, which stands in the same
directory under a name of its own, is gone afterwards, and no other place on the disk is touched. -/

namespace PinnedDeps.Storage

namespace Disk

variable {d d' : Disk} {p dir : Path} {name : String} {bytes : ByteArray}

/-! ### The place beside -/

theorem locate_of_split (h : p.split? = some (dir, name)) (d : Disk) :
    d.locate p = d.locate dir ++ [name] := by
  obtain ⟨-, hskipped, hup, habsolute, dots, dots', hsteps, hdots, hdots'⟩ :=
    Path.endsIn_of_split h
  have hdot : name ≠ "." := Path.ne_dot_of_not_isSkipped hskipped
  have horigin : d.origin p = d.origin dir := by rw [origin, origin, habsolute]
  -- the dots on both sides of the name lead nowhere
  calc d.locate p
    _ = (dir.steps ++ dots ++ name :: dots').foldl follow (d.origin dir) := by
      rw [locate_eq, hsteps, horigin]
    _ = (name :: dots').foldl follow (d.locate dir) := by
      rw [List.foldl_append, List.foldl_append, foldl_follow_dots hdots, locate_eq]
    _ = d.locate dir ++ [name] := by
      rw [List.foldl_cons, follow_of_name hdot hup, foldl_follow_dots hdots']

theorem locate_temporary_of_split (h : p.split? = some (dir, name)) (d : Disk) :
    d.locate p.temporary = d.locate dir ++ [name ++ ".tmp"] := by
  have horigin : d.origin p.temporary = d.origin dir := by
    rw [origin, origin, Path.isAbsolute_temporary, (Path.endsIn_of_split h).isAbsolute]
  rw [locate_concat (Path.steps_temporary_of_split h) (Path.tmp_ne_dot name) (Path.tmp_ne_up name),
    horigin, locate_eq]

theorem locate_temporary_of_none (h : p.split? = none) (d : Disk) :
    d.locate p.temporary = d.locate p ++ [".tmp"] := by
  have horigin : d.origin p.temporary = d.origin p := by
    rw [origin, origin, Path.isAbsolute_temporary]
  rw [locate_concat (Path.steps_temporary_of_none h) (by decide) (by decide), horigin, locate_eq]

theorem locate_temporary_ne (d : Disk) (p : Path) : d.locate p.temporary ≠ d.locate p := by
  cases h : p.split? with
  | none =>
    rw [locate_temporary_of_none h]
    simp
  | some split =>
    obtain ⟨dir, name⟩ := split
    rw [locate_temporary_of_split h, locate_of_split h]
    simp

/-- The path beside a target has the target's name with `.tmp` behind it and its directory; where
the target has no name, it is that of a file `.tmp` in it. It is another path and another place. -/
structure NamedBeside (p : Path) : Prop where
  ne : p.temporary ≠ p
  locate_ne : ∀ d : Disk, d.locate p.temporary ≠ d.locate p
  of_name : ∀ dir name, p.split? = some (dir, name) →
    p.temporary = dir.join ⟨name ++ ".tmp"⟩ ∧ ∀ d : Disk, d.locate p = d.locate dir ++ [name] ∧
      d.locate p.temporary = d.locate dir ++ [name ++ ".tmp"]
  of_no_name : p.split? = none →
    p.temporary = p.join ⟨".tmp"⟩ ∧ ∀ d : Disk, d.locate p.temporary = d.locate p ++ [".tmp"]

theorem namedBeside (p : Path) : NamedBeside p where
  ne := fun h => locate_temporary_ne ⟨[], []⟩ p (by rw [h])
  locate_ne := fun d => locate_temporary_ne d p
  of_name := fun _ _ h =>
    ⟨Path.temporary_of_split h, fun d => ⟨locate_of_split h d, locate_temporary_of_split h d⟩⟩
  of_no_name := fun h => ⟨Path.temporary_of_none h, locate_temporary_of_none h⟩

/-! ### Removal -/

theorem read_ne_of_get? (h : d.get? (d.locate p) = none) (bytes : ByteArray) :
    d.read p ≠ .ok bytes := by
  intro hread
  obtain ⟨-, -, hget⟩ := find_eq_ok (read_eq_ok_iff.mp hread)
  rw [h] at hget
  cases hget

theorem read_remove_ne (h : d.remove p = .ok d') (bytes : ByteArray) : d'.read p ≠ .ok bytes := by
  obtain ⟨place, hplace, rfl⟩ := remove_eq_ok h
  have hnil : place ≠ [] := ne_nil_of_not_directory (not_isDirectory_of_fileLocation hplace)
  have hlocate : (d.erase place).locate p = place := (locate_of_fileLocation hplace).symm
  apply read_ne_of_get?
  rw [hlocate, get?_erase_self hnil]

/-- The file beside a target can be removed if it can be read. -/
theorem remove_temporary_of_read (h : d.read p.temporary = .ok bytes) :
    ∃ d', d.remove p.temporary = .ok d' := by
  obtain ⟨before, name, hsteps⟩ := Path.exists_steps_temporary p
  have hplace := fileLocation_of_read hsteps (Path.tmp_ne_dot name) (Path.tmp_ne_up name)
    (Path.endsInSlash_temporary p) h
  obtain ⟨-, -, hget⟩ := find_eq_ok (read_eq_ok_iff.mp h)
  refine ⟨d.erase (d.locate p.temporary), ?_⟩
  simp [remove, hplace, hget, bind, Except.bind, pure, Except.pure]

/-- Where a file has been moved from, none is read. -/
theorem read_replaced_beside_ne {q : Path} {beside place : Location}
    (h : d.fileLocation q = .ok beside) (hne : beside ≠ place) (bytes found : ByteArray) :
    (d.replaced beside place bytes).read q ≠ .ok found := by
  have hnil : beside ≠ [] := ne_nil_of_not_directory (not_isDirectory_of_fileLocation h)
  have hlocate : (d.replaced beside place bytes).locate q = beside :=
    (locate_of_fileLocation h).symm
  apply read_ne_of_get?
  rw [hlocate, replaced, get?_set_of_ne hne, get?_erase_self hnil]

end Disk

namespace Machine

variable {machine machine' : Machine} {p : Path} {bytes : ByteArray}
  {fault : Fault} {step : Step}

/-- A removal that is not set to fail leaves no file beside the target. -/
theorem read_temporary_of_remove (hfault : machine.faults.remove = none) (found : ByteArray) :
    ((Host.remove p.temporary : StateM Machine _) machine).2.disk.read p.temporary ≠ .ok found := by
  show (onDisk machine.faults.remove (·.remove p.temporary) machine).2.disk.read p.temporary ≠ _
  rw [hfault]
  rcases hremove : onDisk none (·.remove p.temporary) machine with ⟨fault | _, machine'⟩
  · -- nothing that is read could have been kept
    obtain rfl : machine' = machine := onDisk_error hremove
    intro hread
    obtain ⟨disk, hdisk⟩ := Disk.remove_temporary_of_read hread
    rw [onDisk_none machine' (·.remove p.temporary) hdisk] at hremove
    cases hremove
  · obtain ⟨disk, hdisk, rfl⟩ := onDisk_ok hremove
    exact Disk.read_remove_ne hdisk found

/-! ### Outcomes of a write -/

theorem Passes.not_failsAt (h : Passes p.temporary p bytes Step.order machine machine')
    (step : Step) (fault : Fault) (left : Machine) :
    ¬FailsAt p.temporary p bytes Step.order machine step fault left := by
  intro hfails
  have hboth := h.perform_eq.symm.trans hfails.perform_eq
  cases hboth

theorem writeBytes_eq_ok_iff : (perform (writeBytes p bytes) machine).1 = .ok () ↔
    ¬∃ step fault left, FailsAt p.temporary p bytes Step.order machine step fault left := by
  rcases passes_or_failsAt p.temporary p bytes Step.order machine with
    ⟨left, hpasses⟩ | hfails
  · rw [hpasses.perform_writeBytes, perform_report]
    simp only [true_iff]
    rintro ⟨step, fault, left', hfails⟩
    exact hpasses.not_failsAt step fault left' hfails
  · obtain ⟨step, fault, left, hfailed⟩ := id hfails
    rw [hfailed.perform_writeBytes]
    exact ⟨nofun, fun hnone => absurd hfails hnone⟩

theorem writeBytes_eq_error_iff {e : Failure} : (perform (writeBytes p bytes) machine).1 = .error e ↔
    ∃ step fault left, FailsAt p.temporary p bytes Step.order machine step fault left ∧
      e = .writeFailed p.text fault.message := by
  constructor
  · intro he
    rcases passes_or_failsAt p.temporary p bytes Step.order machine with
      ⟨left, hpasses⟩ | ⟨step, fault, left, hfails⟩
    · rw [hpasses.perform_writeBytes, perform_report] at he
      cases he
    · rw [hfails.perform_writeBytes] at he
      exact ⟨step, fault, left, hfails, (Except.error.inj he).symm⟩
  · rintro ⟨step, fault, left, hfails, rfl⟩
    rw [hfails.perform_writeBytes]

/-- A write goes through where no step is set to fail and both files can be there. -/
theorem writeBytes_eq_ok_iff_faults : (perform (writeBytes p bytes) machine).1 = .ok () ↔
    (∀ step, machine.faults.at step = none) ∧
      (∃ file, machine.disk.fileLocation p.temporary = .ok file) ∧
      ∃ place, machine.disk.fileLocation p = .ok place := by
  constructor
  · intro hok
    rcases passes_or_failsAt p.temporary p bytes Step.order machine with
      ⟨left, hpasses⟩ | hfails
    · obtain ⟨file, place, hfile, hplace, -⟩ :=
        replaceSteps_ok (Path.endsInSlash_temporary p) hpasses.perform_eq
      refine ⟨fun step => hpasses.faults step ?_, ⟨file, hfile⟩, ⟨place, hplace⟩⟩
      cases step <;> decide
    · exact absurd hfails (writeBytes_eq_ok_iff.mp hok)
  · rintro ⟨hfaults, ⟨file, hfile⟩, ⟨place, hplace⟩⟩
    rw [Machine.perform_writeBytes, replaceSteps_of_fileLocation hfaults hfile hplace]
    rfl

/-! ### What a write leaves -/

/-- The disk after a write of the bytes to `p`: the target holds them or is what it was, no file
stays beside it, and of all other places and paths none is touched. -/
structure Leaves (p : Path) (bytes : ByteArray) (machine : Machine) (given : Except Failure Unit)
    (machine' : Machine) : Prop where
  written : given = .ok () → machine'.disk.read p = .ok bytes
  kept : given ≠ .ok () → machine'.disk.find p = machine.disk.find p ∧
    machine'.disk.get? (machine.disk.locate p) = machine.disk.get? (machine.disk.locate p)
  removed : given = .ok () ∨ machine.faults.remove = none →
    ∀ found, machine'.disk.read p.temporary ≠ .ok found
  get? : ∀ place, place ≠ machine.disk.locate p → place ≠ machine.disk.locate p.temporary →
    machine'.disk.get? place = machine.disk.get? place
  find : ∀ q node, machine.disk.locate q ≠ machine.disk.locate p →
    machine.disk.locate q ≠ machine.disk.locate p.temporary →
    (machine'.disk.find q = .ok node ↔ machine.disk.find q = .ok node)
  cwd : machine'.disk.cwd = machine.disk.cwd

/-- Where all steps go through, the file beside has taken the target's place. -/
theorem leaves_of_ok (h : perform (writeBytes p bytes) machine = (.ok (), machine')) :
    Leaves p bytes machine (.ok ()) machine' := by
  obtain ⟨file, place, hfile, hplace, hleft⟩ := writeBytes_ok h
  have hdisk : machine'.disk = machine.disk.replaced file place bytes := by rw [hleft]
  have hlocateFile : file = machine.disk.locate p.temporary := Disk.locate_of_fileLocation hfile
  have hlocatePlace : place = machine.disk.locate p := Disk.locate_of_fileLocation hplace
  have hne : file ≠ place := by
    rw [hlocateFile, hlocatePlace]
    exact Disk.locate_temporary_ne machine.disk p
  constructor
  case written =>
    intro _
    rw [hdisk]
    exact Disk.read_replaced_self hfile hplace bytes
  case kept => exact fun hfailed => absurd rfl hfailed
  case removed =>
    intro _ found
    rw [hdisk]
    exact Disk.read_replaced_beside_ne hfile hne bytes found
  case get? =>
    intro other htarget hbeside
    rw [hdisk]
    rw [← hlocatePlace] at htarget
    rw [← hlocateFile] at hbeside
    exact Disk.get?_replaced_of_ne htarget hbeside bytes
  case find =>
    intro q node htarget hbeside
    rw [hdisk]
    rw [← hlocatePlace] at htarget
    rw [← hlocateFile] at hbeside
    exact Disk.find_replaced_eq_ok_iff hfile hplace bytes htarget hbeside
  case cwd =>
    rw [hdisk]
    rfl

/-- Where a step fails, only the file beside was touched, and that is removed. -/
theorem FailsAt.leaves
    (h : FailsAt p.temporary p bytes Step.order machine step fault machine') (e : Failure) :
    Leaves p bytes machine (.error e)
      ((Host.remove p.temporary : StateM Machine _) machine').2 := by
  have hbeside := h.beside_removed
  constructor
  case written => nofun
  case kept =>
    intro _
    exact ⟨hbeside.find, hbeside.get? (Disk.locate_temporary_ne machine.disk p).symm⟩
  case removed =>
    intro hremoved
    have hfault : machine.faults.remove = none := hremoved.resolve_left nofun
    rw [← h.beside.faults] at hfault
    exact read_temporary_of_remove hfault
  case get? => exact fun _ _ hne => hbeside.get? hne
  case find => exact fun _ _ _ hne => hbeside.find_eq_ok_iff hne
  case cwd => exact hbeside.cwd

theorem writeBytes_leaves (p : Path) (bytes : ByteArray) (machine : Machine) :
    Leaves p bytes machine (perform (writeBytes p bytes) machine).1
      (perform (writeBytes p bytes) machine).2 := by
  rcases passes_or_failsAt p.temporary p bytes Step.order machine with
    ⟨left, hpasses⟩ | ⟨step, fault, left, hfails⟩
  · have hok := hpasses.perform_writeBytes
    rw [perform_report] at hok
    rw [hok]
    exact leaves_of_ok hok
  · rw [hfails.perform_writeBytes]
    exact hfails.leaves (.writeFailed p.text fault.message)

/-! ### Atomic writes -/

/-- A write of the bytes to `p` goes through or it fails, and it fails exactly where one of its
steps does, with that step's fault and the name of the target. -/
structure Atomic (p : Path) (bytes : ByteArray) (machine : Machine) (given : Except Failure Unit)
    (machine' : Machine) : Prop extends Leaves p bytes machine given machine' where
  ok_iff : given = .ok () ↔
    ¬∃ step fault left, FailsAt p.temporary p bytes Step.order machine step fault left
  error_iff : ∀ e, given = .error e ↔
    ∃ step fault left, FailsAt p.temporary p bytes Step.order machine step fault left ∧
      e = .writeFailed p.text fault.message
  ok_iff_faults : given = .ok () ↔
    (∀ step, machine.faults.at step = none) ∧
      (∃ file, machine.disk.fileLocation p.temporary = .ok file) ∧
      ∃ place, machine.disk.fileLocation p = .ok place

/-- Writes are atomic under any fault, on any disk and for any target. -/
theorem writeBytes_atomic (p : Path) (bytes : ByteArray) (machine : Machine) :
    Atomic p bytes machine (perform (writeBytes p bytes) machine).1
        (perform (writeBytes p bytes) machine).2 ∧
      Disk.NamedBeside p := by
  refine ⟨?_, Disk.namedBeside p⟩
  exact {
    writeBytes_leaves p bytes machine with
    ok_iff := writeBytes_eq_ok_iff
    error_iff := fun _ => writeBytes_eq_error_iff
    ok_iff_faults := writeBytes_eq_ok_iff_faults }

/-- A write that is cut off after two bytes, where an earlier one left a file beside the target. -/
example :
    let disk : Disk := ⟨[(["a"], .file "old".toUTF8), (["a.tmp"], .file "left".toUTF8)], []⟩
    let after := perform (writeText ⟨"a"⟩ "new")
      { disk, faults := { append := some (2, .other "full") } }
    after.1 = .error (.writeFailed "a" "full") ∧
      after.2.disk.nodes = [(["a"], .file "old".toUTF8)] :=
  ⟨rfl, rfl⟩

end Machine

end PinnedDeps.Storage
