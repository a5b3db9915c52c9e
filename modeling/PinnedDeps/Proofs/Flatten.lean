import PinnedDeps.Flatten
import PinnedDeps.Proofs.Storage.Atomicity
import PinnedDeps.Proofs.Storage.Echo
import Mathlib.Tactic.Choose

/-! A run is all or nothing. Building the manifest only looks at the disk; the echo leaves the disk
alone, also where it fails to pass on what it has taken; the write changes what is at the output
only in its last step. So a failure at any of them leaves the output as it was, and a run that
succeeds leaves the whole manifest. -/

namespace PinnedDeps

open Storage Machine

/-! ### Tasks that only look -/

/-- What is made of a look for a text. -/
def Storage.textOf (path : Path) : Except Fault ByteArray → Except Failure String
  | .error .notFound => .error (.fileNotFound path.text)
  | .error fault => .error (.io fault.message)
  | .ok bytes =>
    match String.fromUTF8? bytes with
    | none => .error (.io Fault.notText.message)
    | some text => .ok text

/-- The text of a file. -/
def Storage.Disk.text (disk : Disk) (path : Path) : Except Failure String :=
  textOf path (disk.read path)

/-- The commit that the document on the disk names. -/
def CommitNote.commitOn (note : CommitNote) (disk : Disk) : Except Failure String :=
  disk.text note.document >>= note.commitIn

/-- The manifest of a file and the commit on the disk. -/
def Flatten.listed (s : Settings) (disk : Disk) (file : DepsFile) : Except Failure Manifest :=
  s.note.commitOn disk >>= fun commit =>
    Manifest.ofEntries (file.pinned ++ [s.note.location ++ "@" ++ commit])

/-- What checking a file gives, when it is asked for. -/
def Flatten.checked (s : Settings) (file : DepsFile) : Except Failure Unit :=
  if s.checkProvenance then (Provenance.check file).outcome else .ok ()

/-- What building the manifest gives, as the disk tells it. -/
def Flatten.outcome (s : Settings) (disk : Disk) : Except Failure Manifest := do
  let text ← disk.text s.deps
  let file ← (evaluate s.platform s.deps.text text).outcome.mapError (EvalError.inFile s.deps.text)
  Flatten.checked s file
  Flatten.listed s disk file

/-- The task gives the outcome that the disk tells, and all it leaves are events. -/
def Looks {α : Type} (x : Task (StateM Machine) α) (outcome : Disk → Except Failure α) : Prop :=
  ∃ events : Disk → Array Event, ∀ machine : Machine,
    perform x machine =
      (outcome machine.disk, { machine with events := machine.events ++ events machine.disk })

namespace Looks

variable {α β : Type} {x : Task (StateM Machine) α} {outcome : Disk → Except Failure α}

theorem congr {outcome' : Disk → Except Failure α} (h : Looks x outcome)
    (ho : ∀ disk, outcome disk = outcome' disk) : Looks x outcome' := by
  obtain rfl : outcome = outcome' := funext ho
  exact h

theorem fst_perform (h : Looks x outcome) (machine : Machine) :
    (perform x machine).1 = outcome machine.disk := by
  obtain ⟨events, hx⟩ := h
  rw [hx]

theorem pure (a : α) : Looks (Pure.pure a) fun _ => .ok a :=
  ⟨fun _ => #[], fun machine => by simp [perform_pure]⟩

theorem bind {f : α → Task (StateM Machine) β} {outcome' : α → Disk → Except Failure β}
    (hx : Looks x outcome) (hf : ∀ a, Looks (f a) (outcome' a)) :
    Looks (x >>= f) fun disk => outcome disk >>= fun a => outcome' a disk := by
  obtain ⟨events, hx⟩ := hx
  choose events' hf using hf
  refine ⟨fun disk =>
      match outcome disk with
      | .error _ => events disk
      | .ok a => events disk ++ events' a disk,
    fun machine => ?_⟩
  rw [perform_bind, hx]
  cases ho : outcome machine.disk with
  | error e =>
    simp only [ho]
    rfl
  | ok a =>
    simp only [ho, hf, Array.append_assoc]
    rfl

theorem throw (e : Failure) :
    Looks (MonadExcept.throw e : Task (StateM Machine) α) fun _ => .error e :=
  ⟨fun _ => #[], fun machine => by
    show perform (MonadExcept.throw e) machine = _
    rw [perform_throw, Array.append_empty]⟩

theorem report (event : Event) : Looks (Task.report event) fun _ => .ok () :=
  ⟨fun _ => #[event], fun machine => by simp [Task.report, perform_lift]; rfl⟩

theorem ofExcept (found : Except Failure α) : Looks (Task.ofExcept found) fun _ => found :=
  ⟨fun _ => #[], fun machine => by
    simp [Task.ofExcept, perform_mk]
    rfl⟩

/-- A report in front changes nothing in what is given. -/
theorem report_bind (event : Event) (h : Looks x outcome) :
    Looks (Task.report event >>= fun _ => x) outcome :=
  (bind (report event) fun _ => h).congr fun _ => rfl

theorem bind_report (event : α → Event) (h : Looks x outcome) :
    Looks (x >>= fun a => Task.report (event a) >>= fun _ => Pure.pure a) outcome := by
  refine (bind h fun a => report_bind (event a) (pure a)).congr fun disk => ?_
  cases outcome disk <;> rfl

theorem reportAll (events : List Event) : Looks (events.forM Task.report) fun _ => .ok () := by
  induction events with
  | nil => exact pure ()
  | cons event events ih => exact report_bind event ih

theorem ofTraced (x : Traced Failure α) : Looks (Task.ofTraced x) fun _ => x.outcome := by
  have hevents : Looks (x.events.forM Task.report) fun _ => .ok () := by
    obtain ⟨⟨events⟩, outcome⟩ := x
    simpa using reportAll events
  exact (bind hevents fun _ => ofExcept x.outcome).congr fun _ => rfl

theorem readText (path : Path) : Looks (Storage.readText path) (·.text path) := by
  have hread : Looks (ExceptT.lift (Host.read path)) fun disk => .ok (disk.read path) :=
    ⟨fun _ => #[], fun machine => by
      rw [perform_lift, Array.append_empty]
      rfl⟩
  refine congr (bind hread fun found => (?_ : Looks _ fun _ => textOf path found)) fun _ => rfl
  rcases found with fault | bytes
  · cases fault <;> exact throw _
  · unfold textOf
    dsimp only
    cases String.fromUTF8? bytes with
    | none => exact throw _
    | some text => exact report_bind _ (pure text)

theorem evaluateFile (platform : Platform) (path : Path) :
    Looks (Flatten.evaluateFile platform path) fun disk =>
      disk.text path >>= fun text =>
        (evaluate platform path.text text).outcome.mapError (EvalError.inFile path.text) :=
  bind (readText path) fun _ =>
    bind_report (fun file : DepsFile => .evaluated path.text file.deps.length file.vars.length)
      (ofTraced _)

theorem commit (note : CommitNote) : Looks note.commit note.commitOn :=
  bind (readText note.document) fun contents => ofExcept (note.commitIn contents)

theorem reference (note : CommitNote) :
    Looks note.reference fun disk =>
      note.commitOn disk >>= fun commit => .ok (note.location ++ "@" ++ commit) :=
  bind (commit note) fun commit => report_bind _ (pure (note.location ++ "@" ++ commit))

/-- What is left once the file is read and checked. -/
theorem list (s : Settings) (file : DepsFile) :
    Looks (Flatten.pinned file >>= fun entries =>
      Task.report (.pinned entries.length file.deps.length) >>= fun _ =>
        s.note.appendTo entries >>= fun entries => Task.ofExcept (Manifest.ofEntries entries))
      (Flatten.listed s · file) := by
  have hpinned := bind (reportAll file.skipped) fun _ => pure file.pinned
  have happended : ∀ entries, Looks (s.note.appendTo entries) _ := fun entries =>
    bind (reference s.note) fun reference => pure (entries ++ [reference])
  refine (bind hpinned fun entries => report_bind _ (bind (happended entries) fun entries =>
    ofExcept (Manifest.ofEntries entries))).congr fun disk => ?_
  unfold Flatten.listed
  cases s.note.commitOn disk <;> rfl

theorem build (s : Settings) : Looks (Flatten.build s) (Flatten.outcome s) := by
  unfold Flatten.build
  refine congr (bind (evaluateFile s.platform s.deps) fun file =>
    (?_ : Looks _ fun disk => Flatten.checked s file >>= fun _ => Flatten.listed s disk file))
    fun disk => ?_
  · unfold Flatten.checked
    split
    · exact bind (ofTraced _) fun _ => report_bind _ (list s file)
    · exact list s file
  · unfold Flatten.outcome
    cases disk.text s.deps <;> rfl

end Looks

namespace Flatten

variable {s : Settings} {machine machine' : Machine} {manifest : Manifest} {format : Format}
  {output : Path} {fault : Fault} {e : Failure}

/-! ### Writing a manifest -/

/-- Where the echo fails, the write is not begun. -/
theorem write_of_echoFails (h : EchoFails (manifest.render format ++ "\n") machine fault)
    (output : Path) :
    ∃ taken, perform (write manifest format output) machine =
      (.error (.io fault.message), { machine with echoed := taken }) := by
  obtain ⟨taken, hecho⟩ := h.exists_perform_echo
  refine ⟨taken, ?_⟩
  unfold write
  dsimp only
  rw [perform_bind, hecho]

/-- Where the echo does not fail, the write follows it. -/
theorem write_of_not_echoFails
    (h : ∀ fault, ¬EchoFails (manifest.render format ++ "\n") machine fault) (output : Path) :
    perform (write manifest format output) machine =
      match perform (writeBytes output (manifest.render format).toUTF8)
        (machine.withEchoed (manifest.render format ++ "\n")) with
      | (.error e, machine) => (.error e, machine)
      | (.ok (), machine) => (.ok (), { machine with
          events := machine.events.push (.wroteManifest manifest.size output.text) }) := by
  unfold write writeText
  dsimp only
  rw [perform_bind, perform_echo_of_not_fails h]
  dsimp only
  rw [perform_bind]
  rcases perform (writeBytes output _) _ with ⟨e | _, left⟩ <;> rfl

theorem write_leaves (h : ∀ fault, ¬EchoFails (manifest.render format ++ "\n") machine fault)
    (output : Path) :
    Leaves output (manifest.render format).toUTF8 machine
      (perform (write manifest format output) machine).1
      (perform (write manifest format output) machine).2 := by
  have hwritten := writeBytes_leaves output (manifest.render format).toUTF8
    (machine.withEchoed (manifest.render format ++ "\n"))
  rw [write_of_not_echoFails h]
  revert hwritten
  -- neither the echo in front of the write nor the event noted behind it touches the disk
  rcases perform (writeBytes output _) _ with ⟨e | _, left⟩ <;> intro hwritten
  · exact { hwritten with }
  · exact { hwritten with }

/-- Nothing fails once the manifest is made: the echo does not, no step of the write is set to, and
the output and the file beside it can be there. -/
structure CanWrite (manifest : Manifest) (format : Format) (output : Path) (machine : Machine) :
    Prop where
  echo : ∀ fault, ¬EchoFails (manifest.render format ++ "\n") machine fault
  steps : ∀ step, machine.faults.at step = none
  beside : ∃ file, machine.disk.fileLocation output.temporary = .ok file
  target : ∃ place, machine.disk.fileLocation output = .ok place

theorem perform_write_eq_ok_iff :
    (perform (write manifest format output) machine).1 = .ok () ↔
      CanWrite manifest format output machine := by
  by_cases hfails : ∃ fault, EchoFails (manifest.render format ++ "\n") machine fault
  · obtain ⟨fault, hfails⟩ := hfails
    obtain ⟨taken, hwrite⟩ := write_of_echoFails hfails output
    rw [hwrite]
    exact ⟨nofun, fun h => absurd hfails (h.echo fault)⟩
  have hecho := not_exists.mp hfails
  have hgiven : (perform (write manifest format output) machine).1 =
      (perform (writeBytes output (manifest.render format).toUTF8)
        (machine.withEchoed (manifest.render format ++ "\n"))).1 := by
    rw [write_of_not_echoFails hecho]
    rcases perform (writeBytes output _) _ with ⟨e | _, left⟩ <;> rfl
  rw [hgiven, writeBytes_eq_ok_iff_faults]
  constructor
  · rintro ⟨hsteps, hfile, hplace⟩
    exact ⟨hecho, hsteps, hfile, hplace⟩
  · rintro ⟨-, hsteps, hfile, hplace⟩
    exact ⟨hsteps, hfile, hplace⟩

/-- A manifest that is written has been echoed and is on the disk, and of all else there only the
file beside it was touched. -/
theorem replaced_of_write
    (h : perform (write manifest format output) machine = (.ok (), machine')) :
    machine'.echoed = machine.echoed ++ (manifest.render format ++ "\n").toUTF8 ∧
      machine'.flushed = machine'.echoed ∧
      ∃ file place, machine.disk.fileLocation output.temporary = .ok file ∧
        machine.disk.fileLocation output = .ok place ∧
        machine'.disk = machine.disk.replaced file place (manifest.render format).toUTF8 := by
  have hcan : CanWrite manifest format output machine := perform_write_eq_ok_iff.mp (by rw [h])
  rw [write_of_not_echoFails hcan.echo] at h
  split at h
  · cases h
  · next left hwrite =>
    obtain ⟨file, place, hfile, hplace, rfl⟩ := writeBytes_ok hwrite
    obtain ⟨-, rfl⟩ := Prod.mk.inj h
    exact ⟨rfl, rfl, file, place, hfile, hplace, rfl⟩

/-! ### Runs -/

/-- A run is: note the event, build, write, give the manifest. -/
theorem perform_run (s : Settings) (machine : Machine) :
    perform (run s) machine =
      match perform (build s)
        { machine with events := machine.events.push (.flattening s.deps.text) } with
      | (.error e, machine) => (.error e, machine)
      | (.ok manifest, machine) =>
        match perform (write manifest s.format s.output) machine with
        | (.error e, machine) => (.error e, machine)
        | (.ok (), machine) => (.ok manifest, machine) := by
  unfold run
  rw [perform_bind, perform_report]
  dsimp only
  rw [perform_bind]
  rcases perform (build s) _ with ⟨e | manifest, machine₁⟩
  · rfl
  · dsimp only
    rw [perform_bind]
    rcases perform (write manifest s.format s.output) machine₁ with ⟨e | _, machine₂⟩ <;> rfl

theorem perform_run_of_error (ho : outcome s machine.disk = .error e) :
    ∃ events, perform (run s) machine = (.error e, { machine with events }) := by
  obtain ⟨events, hbuild⟩ := Looks.build s
  rw [perform_run, hbuild]
  dsimp only
  rw [ho]
  exact ⟨_, rfl⟩

theorem perform_run_of_ok (ho : outcome s machine.disk = .ok manifest) :
    ∃ events, perform (run s) machine =
      match perform (write manifest s.format s.output) { machine with events } with
      | (.error e, machine) => (.error e, machine)
      | (.ok (), machine) => (.ok manifest, machine) := by
  obtain ⟨events, hbuild⟩ := Looks.build s
  rw [perform_run, hbuild]
  dsimp only
  rw [ho]
  exact ⟨_, rfl⟩

theorem canWrite_events (events : Array Event) :
    CanWrite manifest format output { machine with events } ↔
      CanWrite manifest format output machine := by
  constructor
  · rintro ⟨hecho, hsteps, hfile, hplace⟩
    exact ⟨fun fault h => hecho fault ((echoFails_events events).mpr h), hsteps, hfile, hplace⟩
  · rintro ⟨hecho, hsteps, hfile, hplace⟩
    exact ⟨fun fault h => hecho fault ((echoFails_events events).mp h), hsteps, hfile, hplace⟩

/-- A run succeeds where the manifest can be made and written. -/
theorem perform_run_eq_ok_iff :
    (perform (run s) machine).1 = .ok manifest ↔
      outcome s machine.disk = .ok manifest ∧ CanWrite manifest s.format s.output machine := by
  cases ho : outcome s machine.disk with
  | error e =>
    obtain ⟨events, hrun⟩ := perform_run_of_error ho
    rw [hrun]
    exact ⟨nofun, nofun⟩
  | ok built =>
    obtain ⟨events, hrun⟩ := perform_run_of_ok ho
    have hwritten := @perform_write_eq_ok_iff { machine with events } built s.format s.output
    rw [canWrite_events] at hwritten
    rw [hrun]
    revert hwritten
    rcases perform (write built s.format s.output) _ with ⟨e | _, left⟩ <;> intro hwritten
    · refine ⟨nofun, ?_⟩
      rintro ⟨hm, hcan⟩
      obtain rfl : built = manifest := Except.ok.inj hm
      cases hwritten.mpr hcan
    · constructor
      · intro hm
        obtain rfl : built = manifest := Except.ok.inj hm
        exact ⟨rfl, hwritten.mp rfl⟩
      · exact fun h => h.1

/-- Where the echo of the manifest fails, it is the echo's fault that the run gives. -/
theorem perform_run_of_echoFails (ho : outcome s machine.disk = .ok manifest)
    (h : EchoFails (manifest.render s.format ++ "\n") machine fault) :
    ∃ echoed events,
      perform (run s) machine = (.error (.io fault.message), { machine with echoed, events }) := by
  obtain ⟨events, hrun⟩ := perform_run_of_ok ho
  obtain ⟨taken, hwrite⟩ := write_of_echoFails ((echoFails_events events).mpr h) s.output
  rw [hwrite] at hrun
  exact ⟨taken, events, hrun⟩

/-- Where it does not fail, the run leaves what the write does. -/
theorem run_leaves (ho : outcome s machine.disk = .ok manifest)
    (h : ∀ fault, ¬EchoFails (manifest.render s.format ++ "\n") machine fault) :
    Leaves s.output (manifest.render s.format).toUTF8 machine
      ((perform (run s) machine).1.map fun _ => ()) (perform (run s) machine).2 := by
  obtain ⟨events, hrun⟩ := perform_run_of_ok ho
  have hwritten := write_leaves (fun fault => (echoFails_events events).not.mpr (h fault)) s.output
  rw [hrun]
  revert hwritten
  rcases perform (write manifest s.format s.output) _ with ⟨e | _, left⟩ <;> intro hwritten
  · exact { hwritten with }
  · exact { hwritten with }

theorem disk_run (s : Settings) (machine : Machine) :
    (perform (run s) machine).2.disk = machine.disk ∨
      ∃ bytes, Leaves s.output bytes machine
        ((perform (run s) machine).1.map fun _ => ()) (perform (run s) machine).2 := by
  cases ho : outcome s machine.disk with
  | error e =>
    obtain ⟨events, hrun⟩ := perform_run_of_error ho
    exact .inl (by rw [hrun])
  | ok manifest =>
    by_cases hfails : ∃ fault, EchoFails (manifest.render s.format ++ "\n") machine fault
    · obtain ⟨fault, hfails⟩ := hfails
      obtain ⟨echoed, events, hrun⟩ := perform_run_of_echoFails ho hfails
      exact .inl (by rw [hrun])
    · exact .inr ⟨_, run_leaves ho (not_exists.mp hfails)⟩

/-- What a run that succeeds has done. -/
theorem replaced_of_run (h : perform (run s) machine = (.ok manifest, machine')) :
    outcome s machine.disk = .ok manifest ∧
      machine'.echoed = machine.echoed ++ (manifest.render s.format ++ "\n").toUTF8 ∧
      machine'.flushed = machine'.echoed ∧
      ∃ file place, machine.disk.fileLocation s.output.temporary = .ok file ∧
        machine.disk.fileLocation s.output = .ok place ∧
        machine'.disk = machine.disk.replaced file place (manifest.render s.format).toUTF8 := by
  obtain ⟨ho, -⟩ := perform_run_eq_ok_iff.mp (congrArg Prod.fst h)
  obtain ⟨events, hrun⟩ := perform_run_of_ok ho
  rw [hrun] at h
  split at h
  · cases h
  · next left hwrite =>
    obtain ⟨-, rfl⟩ := Prod.mk.inj h
    have hreplaced := replaced_of_write hwrite
    exact ⟨ho, hreplaced⟩

/-- A run is all or nothing, whatever is on the disk, whatever steps of the write are set to fail,
however much the echo takes and whether or not it passes it on. It succeeds exactly where the
manifest can be made, echoed and written. -/
theorem run_all_or_nothing (s : Settings) (machine : Machine) :
    let built := (perform (build s) machine).1
    let given := (perform (run s) machine).1
    let after := (perform (run s) machine).2
    (∀ e, given = .error e → after.disk.find s.output = machine.disk.find s.output) ∧
    (∀ e, built = .error e → given = .error e ∧ after.disk = machine.disk ∧
      after.echoed = machine.echoed ∧ after.flushed = machine.flushed) ∧
    (∀ manifest fault, built = .ok manifest →
      EchoFails (manifest.render s.format ++ "\n") machine fault →
        given = .error (.io fault.message) ∧ after.disk = machine.disk) ∧
    (∀ manifest, given = .ok manifest →
      after.disk.read s.output = .ok (manifest.render s.format).toUTF8 ∧
      after.echoed = machine.echoed ++ (manifest.render s.format ++ "\n").toUTF8 ∧
      after.flushed = after.echoed) ∧
    (∀ manifest, given = .ok manifest ↔
      built = .ok manifest ∧ CanWrite manifest s.format s.output machine) ∧
    (∀ place, place ≠ machine.disk.locate s.output →
      place ≠ machine.disk.locate s.output.temporary →
        after.disk.get? place = machine.disk.get? place) := by
  intro built given after
  have hbuilt : built = outcome s machine.disk := (Looks.build s).fst_perform machine
  rw [hbuilt]
  refine ⟨?_, ?_, ?_, ?_, ?_, ?_⟩
  · intro e hgiven
    rcases disk_run s machine with hdisk | ⟨bytes, hleaves⟩
    · exact congrArg (·.find s.output) hdisk
    · have hfailed : given.map (fun _ => ()) ≠ .ok () := by
        rw [hgiven]
        nofun
      exact (hleaves.kept hfailed).1
  · intro e ho
    obtain ⟨events, hrun⟩ := perform_run_of_error ho
    have hafter : after = { machine with events } := congrArg Prod.snd hrun
    rw [hafter]
    exact ⟨congrArg Prod.fst hrun, rfl, rfl, rfl⟩
  · intro manifest fault ho hfails
    obtain ⟨echoed, events, hrun⟩ := perform_run_of_echoFails ho hfails
    have hafter : after = { machine with echoed, events } := congrArg Prod.snd hrun
    rw [hafter]
    exact ⟨congrArg Prod.fst hrun, rfl⟩
  · intro manifest hgiven
    have hrun : perform (run s) machine = (.ok manifest, after) := Prod.ext hgiven rfl
    obtain ⟨-, hechoed, hflushed, file, place, hfile, hplace, hdisk⟩ := replaced_of_run hrun
    refine ⟨?_, hechoed, hflushed⟩
    rw [hdisk]
    exact Disk.read_replaced_self hfile hplace _
  · exact fun manifest => perform_run_eq_ok_iff
  · intro place htarget hbeside
    rcases disk_run s machine with hdisk | ⟨bytes, hleaves⟩
    · exact congrArg (·.get? place) hdisk
    · exact hleaves.get? place htarget hbeside

/-- A checkout with one dependency. -/
def smallCheckout : Machine where
  disk.nodes := [
    (["DEPS"], .file "deps = \x7b'a': 'p@1'\x7d".toUTF8),
    (["third_party"], .directory),
    (["third_party", "accessibility"], .directory),
    (["third_party", "accessibility", "README.md"], .file "\n\n\n\n[c]\n".toUTF8)]
  disk.cwd := []

/-- The checkout with nothing set to fail, and with an echo that takes the manifest and fails to pass
it on. -/
theorem run_smallCheckout :
    let s : Settings := .under ⟨"/"⟩
    let closed : Machine := { smallCheckout with faults.flush := some (.other "closed") }
    ∃ manifest, (perform (run s) smallCheckout).1 = .ok manifest ∧
      (perform (run s) smallCheckout).2.disk.read ⟨"/deps_flatten.txt"⟩ =
        .ok (manifest.render .text).toUTF8 ∧
      EchoFails (manifest.render .text ++ "\n") closed (.other "closed") ∧
      (perform (run s) closed).1 = .error (.io "closed") ∧
      (perform (run s) closed).2.disk = smallCheckout.disk := by
  intro s closed
  have hgiven : (perform (run s) smallCheckout).1.isOk = true := by decide +kernel
  obtain ⟨-, -, -, hok, hiff, -⟩ := run_all_or_nothing s smallCheckout
  obtain ⟨-, -, hclosed, -⟩ := run_all_or_nothing s closed
  cases h : (perform (run s) smallCheckout).1 with
  | error e =>
    rw [h] at hgiven
    cases hgiven
  | ok manifest =>
    have hbuilt : (perform (build s) closed).1 = .ok manifest := by
      rw [(Looks.build s).fst_perform closed, ← ((hiff manifest).mp h).1]
      exact ((Looks.build s).fst_perform smallCheckout).symm
    have hfails : EchoFails (manifest.render .text ++ "\n") closed (.other "closed") :=
      .inr ⟨echo_of_no_limit rfl _, rfl⟩
    obtain ⟨hfailed, hdisk⟩ := hclosed manifest _ hbuilt hfails
    exact ⟨manifest, rfl, (hok manifest h).1, hfails, hfailed, hdisk⟩

end Flatten

end PinnedDeps
