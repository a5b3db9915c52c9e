import PinnedDeps.Proofs.Evaluation
import PinnedDeps.Proofs.Flatten
import PinnedDeps.Proofs.Manifest
import PinnedDeps.Proofs.Provenance

/-! What the check of provenance costs a run. The check reads the same written references as the
manifest, in the same order, so both stop at the same one; otherwise the check only stands between
the DEPS file and the manifest. A run that is checked gives the manifest it gives unchecked, or
none. -/

namespace PinnedDeps.Flatten

open Storage Machine

variable {disk : Disk} {file : DepsFile}

/-- What the DEPS file on the disk assigns. -/
def fileOn (s : Settings) (disk : Disk) : Except Failure DepsFile :=
  disk.text s.deps >>= fun text =>
    (evaluate s.platform s.deps.text text).outcome.mapError (EvalError.inFile s.deps.text)

theorem looks_fileOn (s : Settings) : Looks (evaluateFile s.platform s.deps) (fileOn s) :=
  Looks.evaluateFile s.platform s.deps

theorem outcome_eq (s : Settings) (disk : Disk) :
    outcome s disk =
      fileOn s disk >>= fun file => checked s file >>= fun _ => listed s disk file := by
  unfold outcome fileOn
  rw [bind_assoc]

theorem outcome_unchecked (s : Settings) (disk : Disk) :
    outcome { s with checkProvenance := false } disk = fileOn s disk >>= listed s disk := by
  rw [outcome_eq]
  rfl

theorem outcome_checked (s : Settings) (disk : Disk) :
    outcome { s with checkProvenance := true } disk =
      fileOn s disk >>= fun file =>
        (Provenance.check file).outcome >>= fun _ => listed s disk file := by
  rw [outcome_eq]
  rfl

/-- The check passes, or it finds names without a partner, or it stops at a written reference at
which the manifest stops as well, once a commit is noted. -/
theorem check_cases (s : Settings) (disk : Disk) (file : DepsFile) :
    (Provenance.check file).outcome = .ok () ∨
      (∃ found, (Provenance.check file).outcome = .error (.inconsistent found)) ∨
      ∃ e, (Provenance.check file).outcome = .error e ∧
        listed s disk file = s.note.commitOn disk >>= fun _ => .error e := by
  rcases Provenance.outcome_check_cases file with ⟨e, hread, hcheck⟩ | ⟨_, -, hcheck | hcheck⟩
  · refine .inr (.inr ⟨e, hcheck, ?_⟩)
    unfold listed
    refine congrArg _ (funext fun commit => ?_)
    exact Manifest.ofEntries_append_of_error hread _
  · exact .inl hcheck
  · exact .inr (.inl hcheck)

/-- With the check, a run gives the manifest it gives without, or none at all. -/
theorem build_checked_or_not (s : Settings) (machine : Machine) :
    let file := (perform (evaluateFile s.platform s.deps) machine).1
    let commit := (perform s.note.commit machine).1
    let unchecked := (perform (build { s with checkProvenance := false }) machine).1
    let checked := (perform (build { s with checkProvenance := true }) machine).1
    (∀ m, unchecked = .ok m →
      checked = .ok m ∨ ∃ found, checked = .error (.inconsistent found)) ∧
    (∀ m, checked = .ok m → unchecked = .ok m) ∧
    (∀ e, file = .error e → unchecked = .error e ∧ checked = .error e) ∧
    (∀ text, checked = .error (.unpinned text) →
      (∃ e, unchecked = .error e) ∧ ∀ c, commit = .ok c → unchecked = .error (.unpinned text)) := by
  dsimp only
  rw [(looks_fileOn s).fst_perform, (Looks.commit s.note).fst_perform, (Looks.build _).fst_perform,
    (Looks.build _).fst_perform, outcome_unchecked, outcome_checked]
  cases fileOn s machine.disk with
  | error e =>
    simp only [Evaluation.error_bind, reduceCtorEq, false_implies, implies_true, true_and]
    refine ⟨fun e' h => ?_, fun text h => ⟨⟨e, rfl⟩, fun _ _ => h⟩⟩
    rw [Except.error.inj h]
    exact ⟨rfl, rfl⟩
  | ok file =>
    simp only [Evaluation.ok_bind, reduceCtorEq, false_implies, implies_true, true_and]
    rcases check_cases s machine.disk file with hcheck | ⟨found, hcheck⟩ | ⟨e, hcheck, hlisted⟩
    · rw [hcheck, Evaluation.ok_bind]
      exact ⟨fun m h => .inl h, fun m h => h, fun text h => ⟨⟨_, h⟩, fun _ _ => h⟩⟩
    · rw [hcheck, Evaluation.error_bind]
      refine ⟨fun m _ => .inr ⟨found, rfl⟩, fun m h => ?_, fun text h => ?_⟩
      · cases h
      · cases h
    · rw [hcheck, hlisted, Evaluation.error_bind]
      cases s.note.commitOn machine.disk with
      | error e' =>
        simp only [Evaluation.error_bind, reduceCtorEq, false_implies, implies_true, true_and]
        exact fun text _ => ⟨⟨e', rfl⟩, trivial⟩
      | ok c =>
        simp only [Evaluation.ok_bind, reduceCtorEq, false_implies, implies_true, true_and]
        exact fun text h => ⟨⟨e, rfl⟩, fun _ _ => h⟩

/-- A checkout with a dependency that has no revision. -/
def unpinnedCheckout : Machine where
  disk.nodes := [
    (["DEPS"], .file "deps = \x7b'a': 'p@1', 'b': 'q'\x7d".toUTF8),
    (["third_party"], .directory),
    (["third_party", "accessibility"], .directory),
    (["third_party", "accessibility", "README.md"], .file "\n\n\n\n[c]\n".toUTF8)]
  disk.cwd := []

/-- The dependency of the small checkout has no home, which only the check finds out; a dependency
without a revision fails a run either way. -/
theorem build_checked_checkouts :
    let s : Settings := .under ⟨"/"⟩
    (∃ m found, (perform (build { s with checkProvenance := false }) smallCheckout).1 = .ok m ∧
      (perform (build { s with checkProvenance := true }) smallCheckout).1 =
        .error (.inconsistent found)) ∧
    (perform (build { s with checkProvenance := true }) unpinnedCheckout).1 =
      .error (.unpinned "q") ∧
    (perform s.note.commit unpinnedCheckout).1 = .ok "c" ∧
    (perform (build { s with checkProvenance := false }) unpinnedCheckout).1 =
      .error (.unpinned "q") := by
  intro s
  have hsmall : (perform (build { s with checkProvenance := false }) smallCheckout).1.isOk = true ∧
      (perform (build { s with checkProvenance := true }) smallCheckout).1.isOk = false := by
    decide +kernel
  have hunpinned : (perform (build { s with checkProvenance := true }) unpinnedCheckout).1 =
      .error (.unpinned "q") := by
    decide +kernel
  have hcommit : (perform s.note.commit unpinnedCheckout).1 = .ok "c" := by decide +kernel
  obtain ⟨hok, -, -, -⟩ := build_checked_or_not s smallCheckout
  obtain ⟨-, -, -, hboth⟩ := build_checked_or_not s unpinnedCheckout
  refine ⟨?_, hunpinned, hcommit, (hboth "q" hunpinned).2 "c" hcommit⟩
  cases hm : (perform (build { s with checkProvenance := false }) smallCheckout).1 with
  | error e =>
    rw [hm] at hsmall
    cases hsmall.1
  | ok m =>
    rcases hok m hm with hchecked | ⟨found, hchecked⟩
    · rw [hchecked] at hsmall
      cases hsmall.2
    · exact ⟨m, found, rfl, hchecked⟩

end PinnedDeps.Flatten
