import PinnedDeps.Storage.Machine
import PinnedDeps.Proofs.Storage.Disk

/-! Parts of a run, followed on a machine: what is known when they go through and when they fail.
A step of a write touches at most the file whose path it is given, and of the machine only the
disk. -/

namespace PinnedDeps.Storage.Machine

variable {ε α β : Type} {machine machine' machine'' : Machine} {p : Path} {bytes : ByteArray}
  {fault : Fault}

/-- What a part of a run gives on a machine, and the machine after it. -/
def perform (x : ExceptT ε (StateM Machine) α) (machine : Machine) : Except ε α × Machine :=
  x.run.run machine

/-! ### Runs of parts -/

theorem perform_pure (a : α) (machine : Machine) :
    perform (pure a : ExceptT ε (StateM Machine) α) machine = (.ok a, machine) := rfl

theorem perform_throw (e : ε) (machine : Machine) :
    perform (throw e : ExceptT ε (StateM Machine) α) machine = (.error e, machine) := rfl

theorem perform_mk (x : StateM Machine (Except ε α)) (machine : Machine) :
    perform (ExceptT.mk x) machine = x machine := rfl

theorem perform_lift (x : StateM Machine α) (machine : Machine) :
    perform (ExceptT.lift x : ExceptT ε (StateM Machine) α) machine =
      (.ok (x machine).1, (x machine).2) := rfl

theorem perform_lift_run {δ : Type} (x : ExceptT δ (StateM Machine) α) (machine : Machine) :
    perform (ExceptT.lift x.run : ExceptT ε (StateM Machine) (Except δ α)) machine =
      (.ok (perform x machine).1, (perform x machine).2) := rfl

theorem perform_report (event : Event) (machine : Machine) :
    perform (Task.report event : Task (StateM Machine) Unit) machine =
      (.ok (), { machine with events := machine.events.push event }) := rfl

theorem perform_bind (x : ExceptT ε (StateM Machine) α) (f : α → ExceptT ε (StateM Machine) β)
    (machine : Machine) :
    perform (x >>= f) machine =
      match perform x machine with
      | (.error e, machine) => (.error e, machine)
      | (.ok a, machine) => perform (f a) machine := by
  have h : perform (x >>= f) machine =
      ExceptT.bindCont f (perform x machine).1 (perform x machine).2 := rfl
  rw [h]
  rcases perform x machine with ⟨e | a, machine'⟩ <;> rfl

theorem perform_attempt (x : StateM Machine (Except Fault α)) (machine : Machine) :
    perform (Task.attempt x : Task (StateM Machine) α) machine =
      match x machine with
      | (.error fault, machine) => (.error (.io fault.message), machine)
      | (.ok a, machine) => (.ok a, machine) := by
  unfold Task.attempt
  rw [perform_bind, perform_lift]
  rcases x machine with ⟨fault | a, machine'⟩ <;> rfl

theorem perform_bind_eq_ok {x : ExceptT ε (StateM Machine) α}
    {f : α → ExceptT ε (StateM Machine) β} {b : β}
    (h : perform (x >>= f) machine = (.ok b, machine'')) :
    ∃ a machine', perform x machine = (.ok a, machine') ∧
      perform (f a) machine' = (.ok b, machine'') := by
  rw [perform_bind] at h
  split at h
  · cases h
  · next a machine' hx => exact ⟨a, machine', hx, h⟩

/-! ### Steps of a write -/

/-- Nothing has changed but the disk, and there at most the file at the path. -/
structure Beside (p : Path) (machine machine' : Machine) : Prop where
  echoed : machine'.echoed = machine.echoed
  faults : machine'.faults = machine.faults
  disk : machine'.disk = machine.disk ∨
    ∃ place, machine.disk.fileLocation p = .ok place ∧
      Disk.OnlyAt place machine.disk machine'.disk

namespace Beside

theorem refl (p : Path) (machine : Machine) : Beside p machine machine := ⟨rfl, rfl, .inl rfl⟩

theorem trans (h : Beside p machine machine') (h' : Beside p machine' machine'') :
    Beside p machine machine'' where
  echoed := h'.echoed.trans h.echoed
  faults := h'.faults.trans h.faults
  disk := by
    rcases h.disk with hd | ⟨place, hp, ho⟩
    · rw [← hd]
      exact h'.disk
    · rcases h'.disk with hd' | ⟨place', hp', ho'⟩
      · rw [hd']
        exact .inr ⟨place, hp, ho⟩
      · obtain rfl : place = place' := by
          rw [ho.fileLocation hp] at hp'
          exact Except.ok.inj hp'
        exact .inr ⟨place, hp, ho.trans ho'⟩

theorem find (h : Beside p.temporary machine machine') :
    machine'.disk.find p = machine.disk.find p := by
  rcases h.disk with hd | ⟨place, hp, ho⟩
  · rw [hd]
  · exact ho.find_of_beside hp

theorem cwd (h : Beside p machine machine') : machine'.disk.cwd = machine.disk.cwd := by
  rcases h.disk with hd | ⟨place, -, ho⟩
  · rw [hd]
  · exact ho.cwd

/-- At other places nothing is lost and nothing appears. -/
theorem find_eq_ok_iff (h : Beside p machine machine') {q : Path} {node : Node}
    (hne : machine.disk.locate q ≠ machine.disk.locate p) :
    machine'.disk.find q = .ok node ↔ machine.disk.find q = .ok node := by
  rcases h.disk with hd | ⟨place, hp, ho⟩
  · rw [hd]
  · apply ho.find_eq_ok_iff
    rwa [Disk.locate_of_fileLocation hp]

theorem get? (h : Beside p machine machine') {place : Location}
    (hne : place ≠ machine.disk.locate p) : machine'.disk.get? place = machine.disk.get? place := by
  rcases h.disk with hd | ⟨file, hp, ho⟩
  · rw [hd]
  · refine ho.get? place ?_
    rwa [Disk.locate_of_fileLocation hp]

end Beside

theorem onDisk_error {fault? : Option Fault} {step : Disk → Except Fault Disk}
    (h : onDisk fault? step machine = (.error fault, machine')) : machine' = machine := by
  unfold onDisk at h
  split at h
  · exact (Prod.mk.inj h).2.symm
  · split at h
    · cases h
    · exact (Prod.mk.inj h).2.symm

theorem onDisk_ok {fault? : Option Fault} {step : Disk → Except Fault Disk}
    (h : onDisk fault? step machine = (.ok (), machine')) :
    ∃ disk, step machine.disk = .ok disk ∧ machine' = { machine with disk } := by
  unfold onDisk at h
  split at h
  · cases h
  · split at h
    · next disk hs => exact ⟨disk, hs, (Prod.mk.inj h).2.symm⟩
    · cases h

theorem faults_of_onDisk {fault? : Option Fault} {step : Disk → Except Fault Disk}
    (h : onDisk fault? step machine = (.ok (), machine')) :
    fault? = none ∧ machine'.faults = machine.faults := by
  obtain ⟨disk, -, rfl⟩ := onDisk_ok h
  refine ⟨?_, rfl⟩
  cases fault? with
  | none => rfl
  | some fault => cases h

theorem beside_onDisk {fault? : Option Fault} {step : Disk → Except Fault Disk}
    (hs : ∀ disk, step machine.disk = .ok disk →
      ∃ place, machine.disk.fileLocation p = .ok place ∧ Disk.OnlyAt place machine.disk disk) :
    Beside p machine (onDisk fault? step machine).2 := by
  unfold onDisk
  split
  · exact .refl p machine
  · split
    · next disk hd => exact ⟨rfl, rfl, .inr (hs disk hd)⟩
    · exact .refl p machine

theorem beside_create (p : Path) (machine : Machine) :
    Beside p machine ((Host.create p : StateM Machine _) machine).2 :=
  beside_onDisk fun _ => Disk.onlyAt_create

theorem beside_append (p : Path) (bytes : ByteArray) (machine : Machine) :
    Beside p machine ((Host.append p bytes : StateM Machine _) machine).2 := by
  show Beside p machine (append p bytes machine).2
  unfold append
  split
  · exact beside_onDisk fun _ => Disk.onlyAt_append
  · next count fault _ =>
    have h : Beside p machine (onDisk none (·.append p (bytes.extract 0 count)) machine).2 :=
      beside_onDisk fun _ => Disk.onlyAt_append
    exact h

theorem beside_remove (p : Path) (machine : Machine) :
    Beside p machine ((Host.remove p : StateM Machine _) machine).2 :=
  beside_onDisk fun _ => Disk.onlyAt_remove

theorem sync_eq (p : Path) (machine : Machine) :
    ((Host.sync p : StateM Machine _) machine).2 = machine := by
  show (onDisk machine.faults.sync .ok machine).2 = machine
  unfold onDisk
  split <;> rfl

theorem create_ok (h : (Host.create p : StateM Machine _) machine = (.ok (), machine')) :
    ∃ place, machine.disk.fileLocation p = .ok place ∧
      machine' = { machine with disk := machine.disk.set place (.file .empty) } := by
  obtain ⟨disk, hs, rfl⟩ := onDisk_ok h
  obtain ⟨place, hp, rfl⟩ := Disk.create_eq_ok hs
  exact ⟨place, hp, rfl⟩

theorem append_ok (h : (Host.append p bytes : StateM Machine _) machine = (.ok (), machine')) :
    ∃ place old, machine.disk.fileLocation p = .ok place ∧
      machine.disk.get? place = some (.file old) ∧
      machine' = { machine with disk := machine.disk.set place (.file (old ++ bytes)) } := by
  have hm : append p bytes machine = (.ok (), machine') := h
  unfold append at hm
  split at hm
  · obtain ⟨disk, hs, rfl⟩ := onDisk_ok hm
    obtain ⟨place, old, hp, hg, rfl⟩ := Disk.append_eq_ok hs
    exact ⟨place, old, hp, hg, rfl⟩
  · cases hm

theorem rename_error {source : Path}
    (h : (Host.rename source p : StateM Machine _) machine = (.error fault, machine')) :
    machine' = machine := by
  have hm : onDisk machine.faults.rename (·.rename source p) machine = (.error fault, machine') := h
  exact onDisk_error hm

theorem rename_ok {source : Path} (hs : source.endsInSlash = false)
    (h : (Host.rename source p : StateM Machine _) machine = (.ok (), machine')) :
    ∃ old new bytes, machine.disk.fileLocation source = .ok old ∧
      machine.disk.get? old = some (.file bytes) ∧ machine.disk.fileLocation p = .ok new ∧
      machine' = { machine with disk := (machine.disk.erase old).set new (.file bytes) } := by
  have hm : onDisk machine.faults.rename (·.rename source p) machine = (.ok (), machine') := h
  obtain ⟨disk, hd, rfl⟩ := onDisk_ok hm
  obtain ⟨old, new, bytes, hold, hg, hnew, rfl⟩ := Disk.rename_eq_ok hs hd
  exact ⟨old, new, bytes, hold, hg, hnew, rfl⟩

/-! ### Steps that are not set to fail -/

theorem onDisk_none (machine : Machine) (step : Disk → Except Fault Disk) {disk : Disk}
    (h : step machine.disk = .ok disk) :
    onDisk none step machine = (.ok (), { machine with disk }) := by
  unfold onDisk
  rw [h]

theorem create_of_fileLocation {place : Location} (hfault : machine.faults.create = none)
    (h : machine.disk.fileLocation p = .ok place) :
    (Host.create p : StateM Machine _) machine =
      (.ok (), { machine with disk := machine.disk.set place (.file .empty) }) := by
  show onDisk machine.faults.create _ machine = _
  rw [hfault]
  exact onDisk_none machine (·.create p) (Disk.create_of_fileLocation h)

theorem append_of_fileLocation {place : Location} {old : ByteArray}
    (hfault : machine.faults.append = none) (h : machine.disk.fileLocation p = .ok place)
    (hg : machine.disk.get? place = some (.file old)) :
    (Host.append p bytes : StateM Machine _) machine =
      (.ok (), { machine with disk := machine.disk.set place (.file (old ++ bytes)) }) := by
  show append p bytes machine = _
  unfold append
  rw [hfault]
  exact onDisk_none machine (·.append p bytes) (Disk.append_of_fileLocation h hg bytes)

theorem sync_of_faults (hfault : machine.faults.sync = none) :
    (Host.sync p : StateM Machine _) machine = (.ok (), machine) := by
  show onDisk machine.faults.sync .ok machine = _
  rw [hfault]
  exact onDisk_none machine .ok rfl

theorem rename_of_fileLocation {source : Path} {old new : Location}
    (hfault : machine.faults.rename = none) (hs : machine.disk.fileLocation source = .ok old)
    (hg : machine.disk.get? old = some (.file bytes))
    (ht : machine.disk.fileLocation p = .ok new) :
    (Host.rename source p : StateM Machine _) machine =
      (.ok (), { machine with disk := (machine.disk.erase old).set new (.file bytes) }) := by
  show onDisk machine.faults.rename _ machine = _
  rw [hfault]
  exact onDisk_none machine (·.rename source p) (Disk.rename_of_fileLocation hs hg ht)

end PinnedDeps.Storage.Machine
