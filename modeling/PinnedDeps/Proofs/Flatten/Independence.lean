import PinnedDeps.Proofs.Evaluation.Independence
import PinnedDeps.Proofs.Evaluation.Lines
import PinnedDeps.Proofs.Flatten.Checked
import PinnedDeps.Proofs.Flatten.Contents

/-! What a manifest does not depend on. Of all that a DEPS file assigns, only the variables and the
dependencies are looked at once it is evaluated; so assignments to other names cannot change the
manifest, nor can the order among them. -/

namespace PinnedDeps.Flatten

open Storage Machine Evaluation

variable {s : Settings} {machine machine' : Machine} {file file' : DepsFile}

/-- The names that a manifest is made from. -/
def pinningNames : List String := ["vars", "deps"]

theorem ofScope_of_agree {scope scope' : Dict Value} (h : Agree pinningNames scope scope') :
    (DepsFile.ofScope scope).vars = (DepsFile.ofScope scope').vars ∧
      (DepsFile.ofScope scope).deps = (DepsFile.ofScope scope').deps :=
  ⟨mappingOf_congr (h "vars" (by decide)), mappingOf_congr (h "deps" (by decide))⟩

theorem pinned_congr (hdeps : file.deps = file'.deps) : file.pinned = file'.pinned := by
  rw [DepsFile.pinned, DepsFile.pinned, hdeps]

theorem check_congr (hvars : file.vars = file'.vars) (hdeps : file.deps = file'.deps) :
    Provenance.check file = Provenance.check file' := by
  have hskipped : file.skipped = file'.skipped := by rw [DepsFile.skipped, DepsFile.skipped, hdeps]
  rw [Provenance.check, Provenance.check, hskipped, pinned_congr hdeps, hvars]

theorem commitOn_congr {disk disk' : Disk} {note : CommitNote}
    (h : disk.read note.document = disk'.read note.document) :
    note.commitOn disk = note.commitOn disk' := by
  rw [CommitNote.commitOn, CommitNote.commitOn, Disk.text, Disk.text, h]

/-- Beside the commit note, a manifest is made from the variables and the dependencies alone. -/
theorem build_congr (hfile : (perform (evaluateFile s.platform s.deps) machine).1 = .ok file)
    (hfile' : (perform (evaluateFile s.platform s.deps) machine').1 = .ok file')
    (hvars : file.vars = file'.vars) (hdeps : file.deps = file'.deps)
    (hnote : machine.disk.read s.note.document = machine'.disk.read s.note.document) :
    (perform (build s) machine).1 = (perform (build s) machine').1 := by
  rw [(looks_fileOn s).fst_perform] at hfile hfile'
  have hchecked : checked s file = checked s file' := by
    rw [checked, checked, check_congr hvars hdeps]
  have hlisted : listed s machine.disk file = listed s machine'.disk file' := by
    rw [listed, listed, commitOn_congr hnote, pinned_congr hdeps]
  rw [(Looks.build s).fst_perform, (Looks.build s).fst_perform, outcome_eq, outcome_eq, hfile,
    hfile', ok_bind, ok_bind, hchecked, hlisted]

/-- A DEPS file on the disk whose statements run through is evaluated. -/
theorem evaluateFile_of_run {text : String} {program : List Statement}
    (hread : machine.disk.read s.deps = .ok text.toUTF8) (htext : statementsOf text = .ok program)
    (hrun : (PinnedDeps.run s.platform program).outcome = .ok file) :
    (perform (evaluateFile s.platform s.deps) machine).1 = .ok file := by
  rw [(looks_fileOn s).fst_perform, fileOn, Disk.text_eq_ok_iff.mpr hread, ok_bind,
    Lines.outcome_evaluate_eq, htext]
  exact mapError_eq_ok_iff.mpr hrun

/-- Two programs that assign `vars` and `deps` alike give the same variables and dependencies, and
all that is made from these is the same. Neighbours that assign different names, neither of them
`vars`, may change places. -/
theorem other_assignments_do_not_count (platform : Platform) :
    (∀ program program' file file',
      (PinnedDeps.run platform program).outcome = .ok file →
      (PinnedDeps.run platform program').outcome = .ok file' →
      placeless (assigning pinningNames program) = placeless (assigning pinningNames program') →
      file.vars = file'.vars ∧ file.deps = file'.deps ∧ file.pinned = file'.pinned ∧
        Provenance.check file = Provenance.check file' ∧
        ∀ (s : Settings) (machine machine' : Machine),
          (perform (evaluateFile s.platform s.deps) machine).1 = .ok file →
          (perform (evaluateFile s.platform s.deps) machine').1 = .ok file' →
          machine.disk.read s.note.document = machine'.disk.read s.note.document →
          (perform (build s) machine).1 = (perform (build s) machine').1) ∧
    (∀ before (a b : Statement) after file,
      a.target ≠ b.target → a.target ≠ "vars" → b.target ≠ "vars" →
      ((PinnedDeps.run platform (before ++ a :: b :: after)).outcome = .ok file ↔
        (PinnedDeps.run platform (before ++ b :: a :: after)).outcome = .ok file)) := by
  constructor
  · intro program program' file file' hrun hrun' hsame
    obtain ⟨scope, hscope, rfl⟩ := run_eq_ok_iff.mp hrun
    obtain ⟨scope', hscope', rfl⟩ := run_eq_ok_iff.mp hrun'
    have hagree := agree_of_assigning (by decide) hsame hscope hscope'
    obtain ⟨hvars, hdeps⟩ := ofScope_of_agree hagree
    exact ⟨hvars, hdeps, pinned_congr hdeps, check_congr hvars hdeps,
      fun s machine machine' hfile hfile' hnote => build_congr hfile hfile' hvars hdeps hnote⟩
  · intro before a b after file hne ha hb
    exact ⟨run_swap hne ha hb, run_swap hne.symm hb ha⟩

/-- The small checkout, its DEPS file assigning one more name. -/
def hookedCheckout : Machine where
  disk.nodes := [
    (["DEPS"], .file "hooks = []\ndeps = \x7b'a': 'p@1'\x7d".toUTF8),
    (["third_party"], .directory),
    (["third_party", "accessibility"], .directory),
    (["third_party", "accessibility", "README.md"], .file "\n\n\n\n[c]\n".toUTF8)]
  disk.cwd := []

/-- The assignment of one dependency, on this line. -/
def assignDeps (line : Nat) : Statement :=
  ⟨"deps", ⟨line, 1⟩, .map ⟨line, 8⟩ [(.str ⟨line, 9⟩ "a", .str ⟨line, 14⟩ "p@1")]⟩

def assignHooks : Statement := ⟨"hooks", ⟨1, 1⟩, .list ⟨1, 9⟩ []⟩

theorem statementsOf_small : statementsOf "deps = \x7b'a': 'p@1'\x7d" = .ok [assignDeps 1] := by
  have htokens : tokenize "deps = \x7b'a': 'p@1'\x7d" = .ok [⟨⟨1, 1⟩, .name "deps"⟩,
      ⟨⟨1, 6⟩, .assign⟩, ⟨⟨1, 8⟩, .openBrace⟩, ⟨⟨1, 9⟩, .string "a"⟩, ⟨⟨1, 12⟩, .colon⟩,
      ⟨⟨1, 14⟩, .string "p@1"⟩, ⟨⟨1, 19⟩, .closeBrace⟩, ⟨⟨1, 20⟩, .eof⟩] := by
    decide +kernel
  rw [statementsOf, htokens]
  rfl

theorem statementsOf_hooked :
    statementsOf "hooks = []\ndeps = \x7b'a': 'p@1'\x7d" = .ok [assignHooks, assignDeps 2] := by
  have hhooks : statementsOf "hooks = []" = .ok [assignHooks] := by
    have htokens : tokenize "hooks = []" = .ok [⟨⟨1, 1⟩, .name "hooks"⟩, ⟨⟨1, 7⟩, .assign⟩,
        ⟨⟨1, 9⟩, .openBracket⟩, ⟨⟨1, 10⟩, .closeBracket⟩, ⟨⟨1, 11⟩, .eof⟩] := by
      decide +kernel
    rw [statementsOf, htokens]
    rfl
  have hbelow := Lines.statementsOf_below hhooks "deps = \x7b'a': 'p@1'\x7d"
  rw [statementsOf_small] at hbelow
  exact hbelow

theorem build_hookedCheckout :
    (perform (build (.under ⟨"/"⟩)) smallCheckout).1 =
        (perform (build (.under ⟨"/"⟩)) hookedCheckout).1 ∧
      (PinnedDeps.run .builtIn [assignDeps 2, assignHooks]).outcome =
        .ok ⟨[], [("a", .str "p@1")], [], [("hooks", .list [])]⟩ := by
  have hsmall : (PinnedDeps.run .builtIn [assignDeps 1]).outcome =
      .ok ⟨[], [("a", .str "p@1")], [], []⟩ := rfl
  have hhooked : (PinnedDeps.run .builtIn [assignHooks, assignDeps 2]).outcome =
      .ok ⟨[], [("a", .str "p@1")], [], [("hooks", .list [])]⟩ := rfl
  obtain ⟨hleft, hswap⟩ := other_assignments_do_not_count .builtIn
  constructor
  · obtain ⟨-, -, -, -, hbuild⟩ := hleft _ _ _ _ hsmall hhooked rfl
    refine hbuild (.under ⟨"/"⟩) _ _ ?_ ?_ (by decide +kernel)
    · exact evaluateFile_of_run (by decide +kernel) statementsOf_small hsmall
    · exact evaluateFile_of_run (by decide +kernel) statementsOf_hooked hhooked
  · exact (hswap [] assignHooks (assignDeps 2) [] _ (by decide) (by decide) (by decide)).mp hhooked

end PinnedDeps.Flatten
