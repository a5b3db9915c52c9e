import PinnedDeps.Report
import Mathlib.Data.List.Induction

/-! Reports on failures with messages around them. Seen from outside an incident is a chain: its
messages from the outermost inwards, and its cause at the end. A search of the chain for a failure
passes over all messages and comes to the cause, so the report shows that failure in full. Of the
messages it tells the outermost alone, and only if that says something else than the failure. -/

namespace PinnedDeps

/-! ### Chains -/

def Cause.failure? : Cause → Option Failure
  | .failure f => some f
  | _ => none

def Cause.io? : Cause → Option String
  | .io text => some text
  | _ => none

namespace Incident

/-- What is met on the way from the outermost message to the cause. -/
def chain (i : Incident) : List Cause := i.messages.reverse.map .message ++ [i.cause]

/-- A search that no message answers comes to the cause, however many messages are around it. -/
theorem findSome?_chain {α : Type} {f : Cause → Option α} (hf : ∀ text, f (.message text) = none)
    (i : Incident) : i.chain.findSome? f = f i.cause := by
  have hmessages : (i.messages.reverse.map Cause.message).findSome? f = none := by
    rw [List.findSome?_eq_none_iff]
    intro cause hcause
    obtain ⟨text, -, rfl⟩ := List.mem_map.mp hcause
    exact hf text
  rw [chain, List.findSome?_append, hmessages, Option.none_or, List.findSome?_singleton]

/-- The incident is told by what is met first. -/
theorem head?_chain (i : Incident) : i.chain.head?.map Cause.text = some i.text := by
  obtain ⟨cause, messages⟩ := i
  cases messages using List.reverseRecOn with
  | nil => rfl
  | append_singleton inner outermost => simp [chain, text, Cause.text]

end Incident

/-! ### Reports -/

namespace Failure

/-- The details of a failure when the incident is told by `text`. -/
def detailsUnder (failure : Failure) (text : String) : Option String :=
  if text = failure.message then failure.details
  else some (failure.details.elim text (· ++ "\n" ++ text))

theorem message_shown (failure : Failure) : failure.shown.message = failure.message := by
  cases failure <;> rfl

theorem shown_of_ne_io {failure : Failure} (h : ∀ text, failure ≠ .io text) :
    failure.shown = failure := by
  cases failure with
  | io text => exact absurd rfl (h text)
  | _ => rfl

end Failure

namespace Report

/-- The report that a search of a chain leads to: for a failure, and if there is none, for an error
of the system. -/
def ofChain (chain : List Cause) : Report :=
  let text := (chain.head?.map Cause.text).getD ""
  match chain.findSome? Cause.failure? with
  | some failure => { ofFailure failure with details := failure.detailsUnder text }
  | none =>
    match chain.findSome? Cause.io? with
    | some io =>
      ⟨.other text, some "Check file permissions and that the paths exist",
        some ("IO error: " ++ io)⟩
    | none => ⟨.other text, some "Check the error message above for more details", none⟩

theorem ofIncident_failure (failure : Failure) (messages : List String) :
    ofIncident ⟨.failure failure, messages⟩ =
      { ofFailure failure with
        details := failure.detailsUnder (Incident.text ⟨.failure failure, messages⟩) } := by
  unfold ofIncident Failure.detailsUnder
  by_cases h : Incident.text ⟨.failure failure, messages⟩ = failure.message
  · simp only [if_pos h, ofFailure]
  · simp only [if_neg h, ofFailure]
    cases failure.details <;> rfl

theorem ofChain_chain (i : Incident) : ofChain i.chain = ofIncident i := by
  unfold ofChain
  rw [i.findSome?_chain (f := Cause.failure?) fun _ => rfl,
    i.findSome?_chain (f := Cause.io?) fun _ => rfl, i.head?_chain]
  obtain ⟨cause, messages⟩ := i
  cases cause with
  | failure failure => exact (ofIncident_failure failure messages).symm
  | io text => rfl
  | message text => rfl

/-- Whatever messages are around a failure, the search through them comes to it, and the report has
its text, its kind and its fields, but that an error of the system is told by its text, and what may
help against it. The outermost message joins its details if it says something else than the failure,
and the messages inside that one do not count. -/
theorem ofIncident_keeps_failure (failure : Failure) (messages : List String) :
    let i : Incident := ⟨.failure failure, messages⟩
    let report := ofIncident i
    let plain := ofFailure failure
    report = ofChain i.chain ∧
      report.failure.message = failure.message ∧
      (∀ text, failure = .io text → report.failure = .other failure.message) ∧
      ((∀ text, failure ≠ .io text) → report.failure = failure) ∧
      report.suggestion = plain.suggestion ∧
      (i.text = failure.message → report.details = plain.details) ∧
      (i.text ≠ failure.message →
        report.details = some (plain.details.elim i.text (· ++ "\n" ++ i.text))) ∧
      ∀ inner outermost, messages = inner ++ [outermost] →
        i.text = outermost ∧
          ∀ inner', ofIncident ⟨.failure failure, inner' ++ [outermost]⟩ = report := by
  intro i report plain
  have hreport : report = { plain with details := failure.detailsUnder i.text } :=
    ofIncident_failure failure messages
  refine ⟨(ofChain_chain i).symm, ?_, ?_, ?_, ?_, ?_, ?_, ?_⟩
  · rw [hreport]
    exact failure.message_shown
  · rintro text rfl
    rw [hreport]
    rfl
  · intro h
    rw [hreport]
    exact Failure.shown_of_ne_io h
  · rw [hreport]
  · intro h
    rw [hreport]
    exact if_pos h
  · intro h
    rw [hreport]
    exact if_neg h
  · rintro inner outermost rfl
    have htext (inner : List String) :
        Incident.text ⟨.failure failure, inner ++ [outermost]⟩ = outermost := by
      simp [Incident.text]
    refine ⟨htext inner, fun inner' => ?_⟩
    rw [hreport, ofIncident_failure, htext, htext]

/-- An error of the system inside two messages, and a name without a value inside its own text. -/
theorem ofIncident_keeps_failure_wrapped :
    (ofIncident ⟨.failure (.io "boom"), ["inner", "outer"]⟩).text =
      "IO error: boom\nDetails: outer\nSuggestion: Check file permissions and that the paths exist" ∧
    (ofIncident ⟨.failure (.undefined "a"), ["inner", "Var is not defined: a"]⟩).details =
      (ofFailure (.undefined "a")).details := by
  obtain ⟨-, hmessage, -, -, hsuggestion, -, hdetails, -⟩ :=
    ofIncident_keeps_failure (.io "boom") ["inner", "outer"]
  obtain ⟨-, -, -, -, -, hsame, -⟩ :=
    ofIncident_keeps_failure (.undefined "a") ["inner", "Var is not defined: a"]
  refine ⟨?_, hsame (by decide +kernel)⟩
  rw [Report.text, hmessage, hsuggestion, hdetails (by decide +kernel)]
  decide +kernel

end Report

end PinnedDeps
