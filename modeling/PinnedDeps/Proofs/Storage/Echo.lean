import PinnedDeps.Proofs.Storage.Machine

/-! What is echoed. A text has been echoed when the echo has taken all of it and has then passed on
all that it had taken. Either step may fail, and a failure of the second is one of the echo as much
as that of the first. Neither step touches anything but the echo. -/

namespace PinnedDeps.Storage.Machine

variable {machine machine' : Machine} {text : String} {fault : Fault}

/-- The echo fails while it takes the text, or it takes the whole text and fails to pass it on. -/
def EchoFails (text : String) (machine : Machine) (fault : Fault) : Prop :=
  (echo text machine).1 = .error fault ∨
    (echo text machine).1 = .ok () ∧ machine.faults.flush = some fault

/-- The machine once a text has been echoed on it. With the text all that was echoed before has been
passed on. -/
def withEchoed (machine : Machine) (text : String) : Machine :=
  { machine with
    echoed := machine.echoed ++ text.toUTF8
    flushed := machine.echoed ++ text.toUTF8 }

/-! ### The two steps -/

theorem exists_echoed (text : String) (machine : Machine) :
    ∃ taken, (echo text machine).2 = { machine with echoed := taken } := by
  unfold echo
  dsimp only
  split
  · split <;> exact ⟨_, rfl⟩
  · exact ⟨_, rfl⟩

theorem echo_ok (h : echo text machine = (.ok (), machine')) :
    machine' = { machine with echoed := machine.echoed ++ text.toUTF8 } := by
  unfold echo at h
  dsimp only at h
  split at h
  · split at h
    · exact (Prod.mk.inj h).2.symm
    · cases h
  · exact (Prod.mk.inj h).2.symm

theorem echo_of_no_limit (hlimit : machine.echoLimit = none) (text : String) :
    (echo text machine).1 = .ok () := by
  unfold echo
  rw [hlimit]

/-- What has been noted makes no difference to the echo. -/
theorem echo_events (text : String) (machine : Machine) (events : Array Event) :
    (echo text { machine with events }).1 = (echo text machine).1 := by
  unfold echo
  dsimp only
  split
  · split <;> rfl
  · rfl

theorem flush_of_fault (h : machine.faults.flush = some fault) :
    flush machine = (.error fault, machine) := by
  unfold flush
  rw [h]

theorem flush_of_none (h : machine.faults.flush = none) :
    flush machine = (.ok (), { machine with flushed := machine.echoed }) := by
  unfold flush
  rw [h]

/-! ### Both steps -/

theorem perform_echo (text : String) (machine : Machine) :
    perform (Task.echo text : Task (StateM Machine) Unit) machine =
      match echo text machine with
      | (.error fault, machine) => (.error (.io fault.message), machine)
      | (.ok (), machine) =>
        match flush machine with
        | (.error fault, machine) => (.error (.io fault.message), machine)
        | (.ok (), machine) => (.ok (), machine) := by
  have htake : (Host.echo text : StateM Machine _) = echo text := rfl
  have hpass : (Host.flush : StateM Machine _) = flush := rfl
  unfold Task.echo
  rw [perform_bind, perform_attempt, htake]
  rcases echo text machine with ⟨fault | _, taken⟩
  · rfl
  · dsimp only
    rw [perform_attempt, hpass]
    rcases flush taken with ⟨fault | _, passed⟩ <;> rfl

theorem EchoFails.exists_perform_echo (h : EchoFails text machine fault) :
    ∃ taken, perform (Task.echo text : Task (StateM Machine) Unit) machine =
      (.error (.io fault.message), { machine with echoed := taken }) := by
  obtain ⟨taken, hleft⟩ := exists_echoed text machine
  refine ⟨taken, ?_⟩
  rw [perform_echo]
  rcases hecho : echo text machine with ⟨given, left⟩
  unfold EchoFails at h
  rw [hecho] at h hleft
  dsimp only at h hleft
  rcases h with rfl | ⟨rfl, hfault⟩
  · rw [hleft]
  · have hflush : flush left = (.error fault, left) :=
      flush_of_fault (by rw [hleft]; exact hfault)
    dsimp only
    rw [hflush, hleft]

theorem perform_echo_of_not_fails (h : ∀ fault, ¬EchoFails text machine fault) :
    perform (Task.echo text : Task (StateM Machine) Unit) machine =
      (.ok (), machine.withEchoed text) := by
  rw [perform_echo]
  rcases hecho : echo text machine with ⟨fault | _, left⟩
  · have hfails : EchoFails text machine fault := .inl (by rw [hecho])
    exact absurd hfails (h fault)
  · have hpass : machine.faults.flush = none := by
      rw [Option.eq_none_iff_forall_ne_some]
      intro fault hfault
      exact h fault (.inr ⟨by rw [hecho], hfault⟩)
    have hleft : left = { machine with echoed := machine.echoed ++ text.toUTF8 } := echo_ok hecho
    have hflush : flush left = (.ok (), { left with flushed := left.echoed }) :=
      flush_of_none (by rw [hleft]; exact hpass)
    dsimp only
    rw [hflush, hleft, withEchoed]

/-- The echo does not fail where it takes any number of bytes and passing them on is not set to
fail. -/
theorem not_echoFails (hlimit : machine.echoLimit = none) (hflush : machine.faults.flush = none)
    (text : String) (fault : Fault) : ¬EchoFails text machine fault := by
  rintro (hecho | ⟨-, hfault⟩)
  · rw [echo_of_no_limit hlimit] at hecho
    cases hecho
  · rw [hflush] at hfault
    cases hfault

theorem echoFails_events (events : Array Event) :
    EchoFails text { machine with events } fault ↔ EchoFails text machine fault := by
  unfold EchoFails
  rw [echo_events]

end PinnedDeps.Storage.Machine
