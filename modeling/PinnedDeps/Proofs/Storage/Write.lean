import PinnedDeps.Proofs.Storage.Steps

/-! Writes as a whole. When no step fails, the target holds the bytes and nothing is left beside it.
When one fails, wherever in it, the target is what it was. -/

namespace PinnedDeps.Storage.Machine

variable {machine machine' machine'' : Machine} {p : Path} {bytes : ByteArray}
  {fault : Fault} {step : Step}

/-! ### Steps that all go through -/

/-- The file beside the target, once the bytes are in it. -/
theorem write_beside {temp : Path}
    (h₁ : (Host.create temp : StateM Machine _) machine = (.ok (), machine'))
    (h₂ : (Host.append temp bytes : StateM Machine _) machine' = (.ok (), machine'')) :
    ∃ file, machine.disk.fileLocation temp = .ok file ∧
      machine'' = { machine with disk := machine.disk.set file (.file bytes) } := by
  obtain ⟨file, hf, rfl⟩ := create_ok h₁
  have hdir : machine.disk.isDirectory file = false := Disk.not_isDirectory_of_fileLocation hf
  have hnil : file ≠ [] := Disk.ne_nil_of_not_directory hdir
  have ho : Disk.OnlyAt file machine.disk (machine.disk.set file (.file .empty)) :=
    .set_file hdir .empty
  obtain ⟨file', old, hf', hold, rfl⟩ := append_ok h₂
  obtain rfl : file = file' := Except.ok.inj ((ho.fileLocation hf).symm.trans hf')
  have hempty : old = .empty := by
    rw [Disk.get?_set_self hnil] at hold
    simpa using hold.symm
  refine ⟨file, hf, ?_⟩
  rw [hempty, ByteArray.empty_append, Disk.set_set]

/-- A write that goes through changes the disk and nothing else. -/
theorem replaceSteps_ok {temp : Path} (ht : temp.endsInSlash = false)
    (h : perform (replaceSteps temp p bytes) machine = (.ok (), machine')) :
    ∃ file place, machine.disk.fileLocation temp = .ok file ∧
      machine.disk.fileLocation p = .ok place ∧
      machine' = { machine with disk := machine.disk.replaced file place bytes } := by
  unfold replaceSteps at h
  obtain ⟨_, machine₁, h₁, hrest₁⟩ := perform_bind_eq_ok h
  obtain ⟨_, machine₂, h₂, hrest₂⟩ := perform_bind_eq_ok hrest₁
  obtain ⟨_, machine₃, h₃, hrest₃⟩ := perform_bind_eq_ok hrest₂
  obtain ⟨file, hf, rfl⟩ := write_beside h₁ h₂
  have hdir : machine.disk.isDirectory file = false := Disk.not_isDirectory_of_fileLocation hf
  have ho : Disk.OnlyAt file machine.disk (machine.disk.set file (.file bytes)) :=
    .set_file hdir bytes
  have hsync := sync_eq temp { machine with disk := machine.disk.set file (.file bytes) }
  rw [perform_mk] at h₃
  rw [h₃] at hsync
  obtain rfl : machine₃ = _ := hsync
  obtain ⟨old, place, moved, hold, hmoved, hplace, rfl⟩ := rename_ok ht hrest₃
  obtain rfl : file = old := Except.ok.inj ((ho.fileLocation hf).symm.trans hold)
  obtain rfl : moved = bytes := by
    rw [Disk.get?_set_self (Disk.ne_nil_of_not_directory hdir)] at hmoved
    simpa using hmoved.symm
  refine ⟨file, place, hf, ho.symm.fileLocation hplace, ?_⟩
  rw [Disk.erase_set]
  rfl

/-- Where no step is set to fail, a write goes through if both files can be there. -/
theorem replaceSteps_of_fileLocation {temp : Path} {file place : Location}
    (hfaults : ∀ step, machine.faults.at step = none)
    (hfile : machine.disk.fileLocation temp = .ok file)
    (hplace : machine.disk.fileLocation p = .ok place) (bytes : ByteArray) :
    perform (replaceSteps temp p bytes) machine =
      (.ok (), { machine with disk := machine.disk.replaced file place bytes }) := by
  have hdir : machine.disk.isDirectory file = false := Disk.not_isDirectory_of_fileLocation hfile
  have hempty : Disk.OnlyAt file machine.disk (machine.disk.set file (.file .empty)) :=
    .set_file hdir .empty
  have hbytes : Disk.OnlyAt file machine.disk (machine.disk.set file (.file bytes)) :=
    .set_file hdir bytes
  have hnil : file ≠ [] := Disk.ne_nil_of_not_directory hdir
  -- the machines behind the first step and behind the second, which the third leaves as it is
  let emptied : Machine := { machine with disk := machine.disk.set file (.file .empty) }
  let written : Machine := { machine with disk := machine.disk.set file (.file bytes) }
  have hcreate : (Host.create temp : StateM Machine _) machine = (.ok (), emptied) :=
    create_of_fileLocation (hfaults .create) hfile
  have happend : (Host.append temp bytes : StateM Machine _) emptied = (.ok (), written) := by
    have hfault : emptied.faults.append = none := Option.map_eq_none_iff.mp (hfaults .append)
    rw [append_of_fileLocation hfault (hempty.fileLocation hfile) (Disk.get?_set_self hnil _)]
    simp [emptied, written]
  have hsync : (Host.sync temp : StateM Machine _) written = (.ok (), written) :=
    sync_of_faults (hfaults .sync)
  have hrename : (Host.rename temp p : StateM Machine _) written =
      (.ok (), { machine with disk := machine.disk.replaced file place bytes }) := by
    have hfault : written.faults.rename = none := hfaults .rename
    rw [rename_of_fileLocation hfault (hbytes.fileLocation hfile) (Disk.get?_set_self hnil _)
      (hbytes.fileLocation hplace)]
    simp [written, Disk.replaced]
  unfold replaceSteps
  rw [perform_bind, perform_mk, hcreate]
  dsimp only
  rw [perform_bind, perform_mk, happend]
  dsimp only
  rw [perform_bind, perform_mk, hsync]
  dsimp only
  rw [perform_mk, hrename]

/-! ### All or none of the bytes -/

/-- A write in two: the steps that replace the file, and what is made of their outcome. -/
theorem perform_writeBytes (p : Path) (bytes : ByteArray) (machine : Machine) :
    perform (writeBytes p bytes) machine =
      match perform (replaceSteps p.temporary p bytes) machine with
      | (.ok (), machine) => perform (Task.report (.wroteBytes bytes.size p.text)) machine
      | (.error fault, machine) =>
        (.error (.writeFailed p.text fault.message),
          ((Host.remove p.temporary : StateM Machine _) machine).2) := by
  unfold writeBytes
  rw [perform_bind, perform_lift_run]
  rcases perform (replaceSteps p.temporary p bytes) machine with ⟨fault | _, machine₁⟩ <;> rfl

theorem Passes.perform_writeBytes
    (h : Passes p.temporary p bytes Step.order machine machine') :
    perform (writeBytes p bytes) machine =
      perform (Task.report (.wroteBytes bytes.size p.text)) machine' := by
  rw [Machine.perform_writeBytes, h.perform_eq]

theorem FailsAt.perform_writeBytes
    (h : FailsAt p.temporary p bytes Step.order machine step fault machine') :
    perform (writeBytes p bytes) machine =
      (.error (.writeFailed p.text fault.message),
        ((Host.remove p.temporary : StateM Machine _) machine').2) := by
  rw [Machine.perform_writeBytes, h.perform_eq]

/-- Where no step fails, the disk has changed and one more event is noted. -/
theorem writeBytes_ok (h : perform (writeBytes p bytes) machine = (.ok (), machine')) :
    ∃ file place, machine.disk.fileLocation p.temporary = .ok file ∧
      machine.disk.fileLocation p = .ok place ∧
      machine' = { machine with
        disk := machine.disk.replaced file place bytes
        events := machine.events.push (.wroteBytes bytes.size p.text) } := by
  rw [perform_writeBytes] at h
  split at h
  · next machine₁ hs =>
    obtain ⟨file, place, hfile, hplace, rfl⟩ := replaceSteps_ok (Path.endsInSlash_temporary p) hs
    exact ⟨file, place, hfile, hplace, (Prod.mk.inj h).2.symm⟩
  · cases h

end PinnedDeps.Storage.Machine
