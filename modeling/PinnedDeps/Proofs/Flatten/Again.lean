import PinnedDeps.Proofs.Flatten.Contents

/-! Runs over again. A run reads the DEPS file and the note, and it writes the output by way of the
file beside it. Where these are other places, what was read is still there after the run, and the
next one makes the same manifest of it and writes it over the same file: the disk is left as it was
found. -/

namespace PinnedDeps.Flatten

open Storage Machine

variable {s : Settings} {machine machine' : Machine} {disk disk' : Disk} {m : Manifest}

/-- What a run makes of a disk depends only on the two files that it reads. -/
theorem outcome_congr (hdeps : disk'.read s.deps = disk.read s.deps)
    (hnote : disk'.read s.note.document = disk.read s.note.document) :
    outcome s disk' = outcome s disk := by
  unfold outcome listed CommitNote.commitOn Disk.text
  rw [hdeps, hnote]

/-- What a run writes is not what it reads. -/
def Apart (s : Settings) (disk : Disk) : Prop :=
  ∀ written ∈ [s.output, s.output.temporary], ∀ read ∈ [s.deps, s.note.document],
    disk.locate written ≠ disk.locate read

theorem outcome_replaced {file place : Location} (hapart : Apart s disk)
    (hfile : disk.fileLocation s.output.temporary = .ok file)
    (hplace : disk.fileLocation s.output = .ok place) (bytes : ByteArray)
    (h : outcome s disk = .ok m) : outcome s (disk.replaced file place bytes) = .ok m := by
  obtain ⟨_, _, hready⟩ := exists_ready_of_outcome h
  have hkept : ∀ p ∈ [s.deps, s.note.document], ∀ found, disk.read p = .ok found →
      (disk.replaced file place bytes).read p = .ok found := by
    intro p hp found hread
    rw [Disk.read_eq_ok_iff] at hread ⊢
    refine (Disk.find_replaced_eq_ok_iff hfile hplace bytes ?_ ?_).mpr hread
    · rw [Disk.locate_of_fileLocation hplace]
      exact (hapart s.output (by simp) p hp).symm
    · rw [Disk.locate_of_fileLocation hfile]
      exact (hapart s.output.temporary (by simp) p hp).symm
  obtain ⟨_, hdeps, -⟩ := hready.assigned
  obtain ⟨_, hnote, -⟩ := hready.noted
  rw [← h]
  refine outcome_congr ?_ ?_
  · rw [hkept s.deps (by simp) _ hdeps, hdeps]
  · rw [hkept s.note.document (by simp) _ hnote, hnote]

/-! ### Two runs -/

/-- A run succeeds where nothing is set to fail, the manifest can be made and the output written. -/
theorem run_of_fileLocation {file place : Location} (hfaults : machine.faults = .none)
    (hlimit : machine.echoLimit = none) (ho : outcome s machine.disk = .ok m)
    (hfile : machine.disk.fileLocation s.output.temporary = .ok file)
    (hplace : machine.disk.fileLocation s.output = .ok place) :
    ∃ machine', perform (run s) machine = (.ok m, machine') ∧
      machine'.disk = machine.disk.replaced file place (m.render s.format).toUTF8 ∧
      machine'.echoed = machine.echoed ++ (m.render s.format ++ "\n").toUTF8 := by
  have hcan : CanWrite m s.format s.output machine := {
    echo := not_echoFails hlimit (by rw [hfaults, Faults.none]) _
    steps := hfaults ▸ Faults.at_none
    beside := ⟨file, hfile⟩
    target := ⟨place, hplace⟩ }
  have hgiven : (perform (run s) machine).1 = .ok m := perform_run_eq_ok_iff.mpr ⟨ho, hcan⟩
  have hrun : perform (run s) machine = (.ok m, (perform (run s) machine).2) := Prod.ext hgiven rfl
  obtain ⟨-, hechoed, -, file', place', hfile', hplace', hdisk⟩ := replaced_of_run hrun
  obtain rfl : file = file' := Except.ok.inj (hfile.symm.trans hfile')
  obtain rfl : place = place' := Except.ok.inj (hplace.symm.trans hplace')
  exact ⟨_, hrun, hdisk, hechoed⟩

/-- A run that succeeded, run again on the disk that it left, with nothing set to fail, makes the
same manifest, echoes the same text and leaves the disk as it is. -/
theorem run_again (s : Settings) {machine machine' again : Machine} {m : Manifest}
    (hapart : Apart s machine.disk) (hrun : perform (run s) machine = (.ok m, machine'))
    (hdisk : again.disk = machine'.disk) (hfaults : again.faults = .none)
    (hlimit : again.echoLimit = none) :
    ∃ again' : Machine, perform (run s) again = (.ok m, again') ∧ again'.disk = machine'.disk ∧
      ∃ text : String, machine'.echoed = machine.echoed ++ text.toUTF8 ∧
        again'.echoed = again.echoed ++ text.toUTF8 := by
  obtain ⟨ho, hechoed, -, file, place, hfile, hplace, hleft⟩ := replaced_of_run hrun
  have ho' : outcome s again.disk = .ok m := by
    rw [hdisk, hleft]
    exact outcome_replaced hapart hfile hplace _ ho
  have hkept : ∀ {p file'}, machine.disk.fileLocation p = .ok file' →
      again.disk.fileLocation p = .ok file' := by
    intro p file' h
    rw [hdisk, hleft]
    exact Disk.fileLocation_replaced hfile hplace _ h
  obtain ⟨again', hrun', hleft', hechoed'⟩ :=
    run_of_fileLocation hfaults hlimit ho' (hkept hfile) (hkept hplace)
  refine ⟨again', hrun', ?_, _, hechoed, hechoed'⟩
  rw [hleft', hdisk, hleft, Disk.replaced_replaced]

/-- The small checkout, with nothing at the output in the first run and the manifest in the
second. -/
theorem run_again_smallCheckout :
    Apart (.under ⟨"/"⟩) smallCheckout.disk ∧
      ∃ (m : Manifest) (machine' again' : Machine),
        perform (run (.under ⟨"/"⟩)) smallCheckout = (.ok m, machine') ∧
        perform (run (.under ⟨"/"⟩)) { disk := machine'.disk } = (.ok m, again') ∧
        again'.disk = machine'.disk := by
  have hapart : Apart (.under ⟨"/"⟩) smallCheckout.disk := by
    unfold Apart
    decide +kernel
  have hgiven : (perform (run (.under ⟨"/"⟩)) smallCheckout).1.isOk = true := by decide +kernel
  cases h : perform (run (.under ⟨"/"⟩)) smallCheckout with
  | mk given machine' =>
    rw [h] at hgiven
    cases given with
    | error e => cases hgiven
    | ok m =>
      obtain ⟨again', hrun, hdisk, -⟩ :=
        @run_again (.under ⟨"/"⟩) smallCheckout machine' { disk := machine'.disk } m hapart h rfl
          rfl rfl
      exact ⟨hapart, m, machine', again', rfl, hrun, hdisk⟩

end PinnedDeps.Flatten
