import PinnedDeps.Proofs.Evaluation
import PinnedDeps.Proofs.Flatten
import PinnedDeps.Proofs.Manifest
import PinnedDeps.Proofs.Provenance

/-! What a manifest holds. It is built exactly when the DEPS file has a meaning, the note names a
commit and every string among the dependencies is a reference; its entries are those strings and
the reference of the note, in the order of their bytes, and nothing else. -/

namespace PinnedDeps

open Storage Machine

theorem Storage.Disk.text_eq_ok_iff {disk : Disk} {path : Path} {text : String} :
    disk.text path = .ok text ↔ disk.read path = .ok text.toUTF8 := by
  unfold Disk.text textOf
  cases disk.read path with
  | error fault => cases fault <;> simp
  | ok bytes =>
    simp only [String.fromUTF8?, Except.ok.injEq]
    by_cases hvalid : bytes.IsValidUTF8
    · rw [dif_pos hvalid]
      simp only [Except.ok.injEq]
      exact ⟨fun h => h ▸ rfl, fun h => String.toByteArray_inj.mp h⟩
    · rw [dif_neg hvalid]
      simp only [reduceCtorEq, false_iff]
      rintro rfl
      exact hvalid text.isValidUTF8

/-- The string values of a mapping, one for each key that has one. -/
def Dict.texts (d : Dict Value) : List String := d.filterMap fun entry => entry.2.text?

namespace Flatten

variable {s : Settings} {disk : Disk} {file : DepsFile} {commit : String} {m : Manifest}

/-- Everything that a manifest is made of is on the disk: the DEPS file assigns `file`, which is
consistent if that matters, the note names `commit`, and all that is to be listed is a reference. -/
structure Ready (s : Settings) (disk : Disk) (file : DepsFile) (commit : String) : Prop where
  assigned : ∃ text, disk.read s.deps = .ok text.toUTF8 ∧
    (evaluate s.platform s.deps.text text).outcome = .ok file
  consistent : s.checkProvenance = true → (Provenance.check file).outcome = .ok ()
  noted : ∃ text, disk.read s.note.document = .ok text.toUTF8 ∧ s.note.commitIn text = .ok commit
  pinned : ∀ text ∈ file.deps.texts, Reference.IsPinned text
  note : Reference.IsPinned (s.note.location ++ "@" ++ commit)

theorem pinned_eq_texts (file : DepsFile) : file.pinned = file.deps.texts :=
  Provenance.pinned_eq_filterMap file

theorem checked_eq_ok_iff :
    checked s file = .ok () ↔
      (s.checkProvenance = true → (Provenance.check file).outcome = .ok ()) := by
  unfold checked
  split
  · next h => simp [h]
  · next h => simp [h]

theorem commitOn_eq_ok_iff {note : CommitNote} :
    note.commitOn disk = .ok commit ↔
      ∃ text, disk.read note.document = .ok text.toUTF8 ∧ note.commitIn text = .ok commit := by
  unfold CommitNote.commitOn
  constructor
  · intro h
    obtain ⟨text, ht, hc⟩ := Evaluation.exists_of_bind_eq_ok h
    exact ⟨text, Disk.text_eq_ok_iff.mp ht, hc⟩
  · rintro ⟨text, ht, hc⟩
    rw [Disk.text_eq_ok_iff.mpr ht]
    exact hc

theorem mapError_eq_ok_iff {ε δ α : Type} {f : ε → δ} {x : Except ε α} {a : α} :
    x.mapError f = .ok a ↔ x = .ok a := by
  cases x <;> simp [Except.mapError]

/-- Once everything is there, only putting it in order is left. -/
theorem Ready.outcome_eq (h : Ready s disk file commit) :
    outcome s disk =
      Manifest.ofEntries (file.deps.texts ++ [s.note.location ++ "@" ++ commit]) := by
  obtain ⟨text, hread, heval⟩ := h.assigned
  unfold outcome listed
  rw [Disk.text_eq_ok_iff.mpr hread, Evaluation.ok_bind, mapError_eq_ok_iff.mpr heval,
    Evaluation.ok_bind, checked_eq_ok_iff.mpr h.consistent, Evaluation.ok_bind,
    commitOn_eq_ok_iff.mpr h.noted, Evaluation.ok_bind, pinned_eq_texts]

theorem exists_ready_of_outcome (h : outcome s disk = .ok m) :
    ∃ file commit, Ready s disk file commit := by
  obtain ⟨text, htext, h⟩ := Evaluation.exists_of_bind_eq_ok h
  obtain ⟨file, hfile, h⟩ := Evaluation.exists_of_bind_eq_ok h
  obtain ⟨_, hchecked, h⟩ := Evaluation.exists_of_bind_eq_ok h
  obtain ⟨commit, hcommit, h⟩ := Evaluation.exists_of_bind_eq_ok h
  have hpinned := Manifest.exists_ofEntries_iff.mp ⟨m, h⟩
  rw [pinned_eq_texts] at hpinned
  exact ⟨file, commit, {
    assigned := ⟨text, Disk.text_eq_ok_iff.mp htext, mapError_eq_ok_iff.mp hfile⟩
    consistent := checked_eq_ok_iff.mp hchecked
    noted := commitOn_eq_ok_iff.mp hcommit
    pinned := fun text ht => hpinned text (List.mem_append_left _ ht)
    note := hpinned _ (List.mem_append_right _ List.mem_cons_self) }⟩

theorem Ready.exists_outcome (h : Ready s disk file commit) : ∃ m, outcome s disk = .ok m := by
  rw [h.outcome_eq, Manifest.exists_ofEntries_iff]
  intro entry hentry
  rcases List.mem_append.mp hentry with ht | ht
  · exact h.pinned entry ht
  · rw [List.mem_singleton.mp ht]
    exact h.note

/-- The manifest is built exactly when everything for it is on the disk. It lists the strings among
the dependencies, one for each key, and the reference of the note, in the order of their bytes. -/
theorem build_lists_pinned (s : Settings) (machine : Machine) :
    ((∃ m, (perform (build s) machine).1 = .ok m) ↔
        ∃ file commit, Ready s machine.disk file commit) ∧
      ∀ m file commit, (perform (build s) machine).1 = .ok m →
        Ready s machine.disk file commit →
          m.entries.Pairwise (fun a b => Text.bytes a ≤ Text.bytes b) ∧
          m.entries.Perm (file.deps.texts ++ [s.note.location ++ "@" ++ commit]) ∧
          m.entries.length = (file.deps.countP fun entry => entry.2.text?.isSome) + 1 := by
  obtain ⟨events, hbuild⟩ := Looks.build s
  rw [hbuild]
  dsimp only
  refine ⟨⟨fun ⟨m, h⟩ => exists_ready_of_outcome h, fun ⟨_, _, h⟩ => h.exists_outcome⟩, ?_⟩
  intro m file commit hm hready
  rw [hready.outcome_eq] at hm
  have hperm := Manifest.perm_entries hm
  refine ⟨(Manifest.sorted_entries hm).imp Text.bytes_le, hperm, ?_⟩
  rw [hperm.length_eq, List.length_append, Dict.texts, List.length_filterMap_eq_countP]
  rfl

/-- The small checkout has one dependency, and its note names the commit `c`. -/
theorem ready_smallCheckout :
    ∃ file, file.deps.texts = ["p@1"] ∧ Ready (.under ⟨"/"⟩) smallCheckout.disk file "c" := by
  have hpath : (Settings.under ⟨"/"⟩).deps.text = "/DEPS" := by decide +kernel
  have hfile : ((evaluate .builtIn "/DEPS" "deps = \x7b'a': 'p@1'\x7d").outcome.toOption.map
      fun file => file.deps.texts) = some ["p@1"] := by decide +kernel
  obtain ⟨file, heval, htexts⟩ := Option.map_eq_some_iff.mp hfile
  refine ⟨file, htexts, ?_, ?_, ?_, ?_, ?_⟩
  · refine ⟨"deps = \x7b'a': 'p@1'\x7d", by decide +kernel, ?_⟩
    show (evaluate .builtIn (Settings.under ⟨"/"⟩).deps.text _).outcome = .ok file
    rw [hpath]
    revert heval
    cases (evaluate .builtIn "/DEPS" "deps = \x7b'a': 'p@1'\x7d").outcome <;> simp [Except.toOption]
  · intro h
    cases h
  · exact ⟨"\n\n\n\n[c]\n", by decide +kernel, by decide +kernel⟩
  · rw [htexts]
    intro text ht
    rw [List.mem_singleton.mp ht]
    exact ⟨['p'], ['1'], by decide, by decide, by decide, by decide⟩
  · exact ⟨"https://chromium.googlesource.com/chromium/src".toList, ['c'], by decide +kernel,
      by decide +kernel, by decide, by decide⟩

theorem build_smallCheckout :
    ∃ m file, (perform (build (.under ⟨"/"⟩)) smallCheckout).1 = .ok m ∧
      Ready (.under ⟨"/"⟩) smallCheckout.disk file "c" ∧
      m.entries.Pairwise (fun a b => Text.bytes a ≤ Text.bytes b) ∧
      m.entries.Perm ["p@1", "https://chromium.googlesource.com/chromium/src@c"] := by
  obtain ⟨file, htexts, hready⟩ := ready_smallCheckout
  obtain ⟨hiff, hlists⟩ := build_lists_pinned (.under ⟨"/"⟩) smallCheckout
  obtain ⟨m, hm⟩ := hiff.mpr ⟨file, "c", hready⟩
  obtain ⟨hsorted, hperm, -⟩ := hlists m file "c" hm hready
  rw [htexts] at hperm
  exact ⟨m, file, hm, hready, hsorted, hperm⟩

end Flatten

end PinnedDeps
