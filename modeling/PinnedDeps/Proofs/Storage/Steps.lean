import PinnedDeps.Proofs.Storage.Machine

/-! A write as a run of steps. The steps are taken one after the other up to the first that fails,
so either all go through or one of them fails behind others that do. However far the run comes,
nothing but the file beside the target has changed before its last step, which fails without a
trace. -/

namespace PinnedDeps.Storage

inductive Step where
  | create | append | sync | rename
  deriving DecidableEq, Repr

/-- The steps of a write in their order. -/
def Step.order : List Step := [.create, .append, .sync, .rename]

/-- The fault that a step is set to end in. -/
def Faults.at (faults : Faults) : Step → Option Fault
  | .create => faults.create
  | .append => faults.append.map Prod.snd
  | .sync => faults.sync
  | .rename => faults.rename

theorem Faults.at_none (step : Step) : Faults.none.at step = Option.none := by
  cases step <;> rfl

namespace Machine

variable {machine machine' : Machine} {temp p : Path} {bytes : ByteArray} {fault : Fault}
  {step : Step} {steps : List Step}

/-! ### Runs of steps -/

def take (temp p : Path) (bytes : ByteArray) : Step → StateM Machine (Except Fault Unit)
  | .create => Host.create temp
  | .append => Host.append temp bytes
  | .sync => Host.sync temp
  | .rename => Host.rename temp p

/-- The steps up to the first that fails. -/
def takeAll (temp p : Path) (bytes : ByteArray) : List Step → ExceptT Fault (StateM Machine) Unit
  | [] => pure ()
  | step :: steps => do
    ExceptT.mk (take temp p bytes step)
    takeAll temp p bytes steps

theorem replaceSteps_eq (temp p : Path) (bytes : ByteArray) :
    replaceSteps temp p bytes = takeAll temp p bytes Step.order := by
  simp only [takeAll, Step.order, bind_pure_unit]
  rfl

/-- The steps go through, one after the other. -/
inductive Passes (temp p : Path) (bytes : ByteArray) : List Step → Machine → Machine → Prop where
  | nil {machine : Machine} : Passes temp p bytes [] machine machine
  | cons {step : Step} {steps : List Step} {machine machine' machine'' : Machine} :
      take temp p bytes step machine = (.ok (), machine') →
      Passes temp p bytes steps machine' machine'' →
      Passes temp p bytes (step :: steps) machine machine''

/-- Of the steps this one ends in the fault, after those before it have gone through. -/
def FailsAt (temp p : Path) (bytes : ByteArray) (steps : List Step) (machine : Machine)
    (step : Step) (fault : Fault) (machine' : Machine) : Prop :=
  ∃ before after middle, steps = before ++ step :: after ∧
    Passes temp p bytes before machine middle ∧
    take temp p bytes step middle = (.error fault, machine')

theorem passes_or_failsAt (temp p : Path) (bytes : ByteArray) (steps : List Step)
    (machine : Machine) :
    (∃ machine', Passes temp p bytes steps machine machine') ∨
      ∃ step fault machine', FailsAt temp p bytes steps machine step fault machine' := by
  induction steps generalizing machine with
  | nil => exact .inl ⟨machine, .nil⟩
  | cons step steps ih =>
    rcases hstep : take temp p bytes step machine with ⟨fault | _, machine₁⟩
    · exact .inr ⟨step, fault, machine₁, [], steps, machine, rfl, .nil, hstep⟩
    · rcases ih machine₁ with ⟨machine', hpasses⟩ | ⟨failed, fault, machine', hfails⟩
      · exact .inl ⟨machine', .cons hstep hpasses⟩
      · obtain ⟨before, after, middle, rfl, hpasses, hfailed⟩ := hfails
        exact .inr ⟨failed, fault, machine', step :: before, after, middle, rfl,
          .cons hstep hpasses, hfailed⟩

/-- Behind steps that go through the rest are taken from where those have led. -/
theorem Passes.perform_append {middle : Machine} (h : Passes temp p bytes steps machine middle)
    (rest : List Step) :
    perform (takeAll temp p bytes (steps ++ rest)) machine =
      perform (takeAll temp p bytes rest) middle := by
  induction h with
  | nil => rfl
  | cons hstep _ ih =>
    rw [List.cons_append, takeAll, perform_bind, perform_mk, hstep]
    exact ih

theorem Passes.perform_eq (h : Passes temp p bytes Step.order machine machine') :
    perform (replaceSteps temp p bytes) machine = (.ok (), machine') := by
  have hall := h.perform_append []
  rwa [List.append_nil, ← replaceSteps_eq] at hall

theorem FailsAt.perform_eq
    (h : FailsAt temp p bytes Step.order machine step fault machine') :
    perform (replaceSteps temp p bytes) machine = (.error fault, machine') := by
  obtain ⟨before, after, middle, horder, hpasses, hstep⟩ := h
  rw [replaceSteps_eq, horder, hpasses.perform_append, takeAll, perform_bind, perform_mk, hstep]

/-! ### What steps leave -/

/-- A step other than the last changes at most the file beside. -/
theorem beside_take (temp p : Path) (bytes : ByteArray) (machine : Machine)
    (h : step ≠ .rename) : Beside temp machine (take temp p bytes step machine).2 := by
  cases step with
  | create => exact beside_create temp machine
  | append => exact beside_append temp bytes machine
  | sync =>
    have hsync : (take temp p bytes .sync machine).2 = machine := sync_eq temp machine
    rw [hsync]
    exact .refl temp machine
  | rename => exact absurd rfl h

theorem Passes.beside (h : Passes temp p bytes steps machine machine')
    (hlast : Step.rename ∉ steps) : Beside temp machine machine' := by
  induction h with
  | nil => exact .refl temp _
  | @cons step steps machine machine₁ machine' hstep _ ih =>
    rw [List.mem_cons, not_or] at hlast
    have hbeside := beside_take temp p bytes machine (Ne.symm hlast.1)
    rw [hstep] at hbeside
    exact hbeside.trans (ih hlast.2)

/-- A step that is taken was not set to fail, and what is set to fail stays so. -/
theorem faults_of_take (h : take temp p bytes step machine = (.ok (), machine')) :
    machine.faults.at step = none ∧ machine'.faults = machine.faults := by
  cases step with
  | create =>
    have hcreate : onDisk machine.faults.create (·.create temp) machine = (.ok (), machine') := h
    exact faults_of_onDisk hcreate
  | append =>
    have happend : append temp bytes machine = (.ok (), machine') := h
    unfold append at happend
    split at happend
    · next hnone =>
      have hfaults := (faults_of_onDisk happend).2
      exact ⟨by rw [Faults.at, hnone, Option.map_none], hfaults⟩
    · cases happend
  | sync =>
    have hsync : onDisk machine.faults.sync .ok machine = (.ok (), machine') := h
    exact faults_of_onDisk hsync
  | rename =>
    have hrename : onDisk machine.faults.rename (·.rename temp p) machine = (.ok (), machine') := h
    exact faults_of_onDisk hrename

theorem Passes.faults (h : Passes temp p bytes steps machine machine') :
    ∀ step ∈ steps, machine.faults.at step = none := by
  induction h with
  | nil => nofun
  | cons hstep _ ih =>
    obtain ⟨hnone, hfaults⟩ := faults_of_take hstep
    rw [hfaults] at ih
    exact List.forall_mem_cons.mpr ⟨hnone, ih⟩

/-- However far a write came before it failed, only the file beside the target has changed. -/
theorem FailsAt.beside (h : FailsAt temp p bytes Step.order machine step fault machine') :
    Beside temp machine machine' := by
  obtain ⟨before, after, middle, horder, hpasses, hstep⟩ := h
  have hbefore : Step.rename ∉ before := by
    -- the last step stands behind those that went through
    have hlast : (step :: after).getLast? = some .rename := by
      have hends := congrArg List.getLast? horder
      rw [List.getLast?_append, List.getLast?_cons, Option.some_or] at hends
      rw [List.getLast?_cons]
      exact hends.symm
    have hnodup : (before ++ step :: after).Nodup := horder ▸ by decide
    intro hmem
    exact (List.nodup_append.mp hnodup).2.2 _ hmem _ (List.mem_of_getLast? hlast) rfl
  refine (hpasses.beside hbefore).trans ?_
  by_cases hs : step = .rename
  · subst hs
    -- a move that fails leaves everything as it is
    obtain rfl : machine' = middle := rename_error hstep
    exact .refl temp machine'
  · have hbeside := beside_take temp p bytes middle hs
    rwa [hstep] at hbeside

/-- The removal that follows touches no other file. -/
theorem FailsAt.beside_removed
    (h : FailsAt temp p bytes Step.order machine step fault machine') :
    Beside temp machine ((Host.remove temp : StateM Machine _) machine').2 :=
  h.beside.trans (beside_remove temp machine')

end Machine

end PinnedDeps.Storage
