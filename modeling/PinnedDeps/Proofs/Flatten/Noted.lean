import PinnedDeps.Proofs.Flatten.Contents

/-! What the noted commit becomes. It is put behind the location and an `@`, and read again from the
last `@` on. Nothing keeps an `@` out of the brackets of the document, and with one the location
takes the front of the commit; without one the manifest pins the location at the commit, in both of
its forms. -/

namespace PinnedDeps

open Storage Machine

namespace Reference

variable {location commit : String} {front back : List Char}

/-- A location and a revision put together are read as they were, unless the revision has an `@`. -/
theorem parse_join_iff (hlocation : location ≠ "") (hcommit : commit ≠ "") :
    parse (location ++ "@" ++ commit) = .ok ⟨location, commit⟩ ↔ '@' ∉ commit.toList := by
  constructor
  · intro h
    obtain ⟨_, revision, -, -, -, hlast, heq⟩ := exists_of_parse h
    rw [(Reference.mk.inj heq).2, String.toList_ofList]
    exact hlast
  · intro hlast
    have htext : (location ++ "@" ++ commit).toList = location.toList ++ '@' :: commit.toList := by
      simp
    rw [parse_of_eq htext (by simpa using hlocation) (by simpa using hcommit) hlast,
      String.ofList_toList, String.ofList_toList]

/-- The last `@` of the revision divides the two. -/
theorem parse_join_of_last (hcommit : commit.toList = front ++ '@' :: back) (hlast : '@' ∉ back) :
    parse (location ++ "@" ++ commit) =
      if back = [] then .error (.unpinned (location ++ "@" ++ commit))
      else .ok ⟨location ++ "@" ++ String.ofList front, String.ofList back⟩ := by
  have htext : (location ++ "@" ++ commit).toList =
      (location ++ "@" ++ String.ofList front).toList ++ '@' :: back := by
    simp [hcommit]
  split
  · next hback =>
    subst hback
    rw [parse, parse?, htext, Text.cutLast_append_cons List.not_mem_nil]
    simp
  · next hback =>
    rw [parse_of_eq htext (by simp) hback hlast, String.ofList_toList]

theorem mem_of_mapM_parse {entries : List String} {references : List Reference} {text : String}
    {r : Reference} (h : entries.mapM parse = .ok references) (htext : text ∈ entries)
    (hr : parse text = .ok r) : r ∈ references := by
  have hread := forall₂_of_mapM_parse h
  clear h
  induction hread with
  | nil => cases htext
  | cons hp _ ih =>
    rcases List.mem_cons.mp htext with rfl | htext
    · obtain rfl := Except.ok.inj (hr.symm.trans hp)
      exact List.mem_cons_self
    · exact List.mem_cons_of_mem _ (ih htext)

end Reference

namespace Manifest

/-- The reference is one of the lines of the text and one of the objects in JSON. -/
def Pins (m : Manifest) (r : Reference) : Prop :=
  ∃ before after,
    m.references = before ++ r :: after ∧
    m.render .text = "\n".intercalate (before.map (·.text) ++ r.text :: after.map (·.text)) ∧
    m.render .json =
      "[\n" ++ ",\n".intercalate (before.map Json.object ++ Json.object r :: after.map Json.object)
        ++ "\n]"

theorem pins_of_mem {m : Manifest} {r : Reference} (h : r ∈ m.references) : m.Pins r := by
  obtain ⟨before, after, hm⟩ := List.append_of_mem h
  refine ⟨before, after, hm, ?_, ?_⟩
  · simp [render, toText, entries, hm]
  · rw [render, hm]
    cases before <;> simp [Json.array]

theorem pins_of_ofEntries {entries : List String} {m : Manifest} {r : Reference} {text : String}
    (h : ofEntries entries = .ok m) (htext : text ∈ entries) (hr : Reference.parse text = .ok r) :
    m.Pins r := by
  obtain ⟨references, hread, hm⟩ := exists_of_ofEntries h
  refine pins_of_mem ?_
  rw [hm, List.mem_mergeSort]
  exact Reference.mem_of_mapM_parse hread htext hr

end Manifest

namespace CommitNote

variable {note : CommitNote} {disk : Disk} {machine : Machine} {commit reference : String}

theorem ne_empty_of_commitIn {contents : String} (h : note.commitIn contents = .ok commit) :
    commit ≠ "" := by
  unfold commitIn at h
  dsimp only at h
  split at h
  · cases h
  · split at h
    · cases h
    · cases h
    · next found hne _ =>
      obtain rfl := Except.ok.inj h
      simpa using hne

theorem ne_empty_of_commitOn (h : note.commitOn disk = .ok commit) : commit ≠ "" := by
  obtain ⟨contents, -, hcommit⟩ := Flatten.commitOn_eq_ok_iff.mp h
  exact ne_empty_of_commitIn hcommit

/-- With the reference of the note among them, references make a manifest that pins its location. -/
theorem pins_of_appendTo {entries listed : List String} {m : Manifest}
    (hcommit : note.commitOn machine.disk = .ok commit) (hlocation : note.location ≠ "")
    (hlast : '@' ∉ commit.toList) (h : (perform (note.appendTo entries) machine).1 = .ok listed)
    (hm : Manifest.ofEntries listed = .ok m) : m.Pins ⟨note.location, commit⟩ := by
  have happended : Looks (note.appendTo entries) _ :=
    (Looks.reference note).bind fun reference => .pure (entries ++ [reference])
  rw [happended.fst_perform, hcommit] at h
  obtain rfl := Except.ok.inj h
  have hread := (Reference.parse_join_iff hlocation (ne_empty_of_commitOn hcommit)).mpr hlast
  exact Manifest.pins_of_ofEntries hm (List.mem_append_right _ List.mem_cons_self) hread

theorem pins_of_build {s : Settings} {m : Manifest}
    (hcommit : s.note.commitOn machine.disk = .ok commit) (hlast : '@' ∉ commit.toList)
    (h : (perform (Flatten.build s) machine).1 = .ok m) :
    m.Pins ⟨s.note.location, commit⟩ := by
  rw [(Looks.build s).fst_perform] at h
  obtain ⟨file, noted, hready⟩ := Flatten.exists_ready_of_outcome h
  rw [hready.outcome_eq] at h
  obtain rfl : noted = commit :=
    Except.ok.inj ((Flatten.commitOn_eq_ok_iff.mpr hready.noted).symm.trans hcommit)
  have hlocation : s.note.location ≠ "" := by
    show "https://chromium.googlesource.com/chromium/src" ≠ ""
    decide
  have hread := (Reference.parse_join_iff hlocation (ne_empty_of_commitOn hcommit)).mpr hlast
  exact Manifest.pins_of_ofEntries h (List.mem_append_right _ List.mem_cons_self) hread

/-- The reference of a note is the location and the commit with an `@` between them. It is read as
that location pinned to that commit exactly when no `@` is in the commit; with one, what is in front
of the last goes to the location, and nothing is left of the reference if nothing is behind it. So
without one every manifest made with the reference pins the location at the commit. -/
theorem reference_pins_commit (note : CommitNote) (machine : Machine)
    (hlocation : note.location ≠ "") (h : (perform note.reference machine).1 = .ok reference) :
    ∃ commit, (perform note.commit machine).1 = .ok commit ∧
      reference = note.location ++ "@" ++ commit ∧
      (Reference.parse reference = .ok ⟨note.location, commit⟩ ↔ '@' ∉ commit.toList) ∧
      (∀ front back, commit.toList = front ++ '@' :: back → '@' ∉ back →
        Reference.parse reference =
          if back = [] then .error (.unpinned reference)
          else .ok ⟨note.location ++ "@" ++ String.ofList front, String.ofList back⟩) ∧
      ('@' ∉ commit.toList →
        (∀ entries listed m, (perform (note.appendTo entries) machine).1 = .ok listed →
          Manifest.ofEntries listed = .ok m → m.Pins ⟨note.location, commit⟩) ∧
        ∀ (s : Settings) (m : Manifest), s.note = note →
          (perform (Flatten.build s) machine).1 = .ok m → m.Pins ⟨note.location, commit⟩) := by
  rw [(Looks.reference note).fst_perform] at h
  obtain ⟨commit, hcommit, h⟩ := Evaluation.exists_of_bind_eq_ok h
  obtain rfl := Except.ok.inj h
  refine ⟨commit, (Looks.commit note).fst_perform machine ▸ hcommit, rfl,
    Reference.parse_join_iff hlocation (ne_empty_of_commitOn hcommit),
    fun front back => Reference.parse_join_of_last, fun hlast => ⟨?_, ?_⟩⟩
  · intro entries listed m hlisted hm
    exact pins_of_appendTo hcommit hlocation hlast hlisted hm
  · rintro s m rfl hm
    exact pins_of_build hcommit hlast hm

/-- A checkout whose document names the commit `commit`. -/
def notedCheckout (commit : String) : Machine where
  disk.nodes := [
    (["DEPS"], .file "deps = \x7b\x7d".toUTF8),
    (["third_party"], .directory),
    (["third_party", "accessibility"], .directory),
    (["third_party", "accessibility", "README.md"],
      .file ("\n\n\n\n[" ++ commit ++ "]\n").toUTF8)]
  disk.cwd := []

theorem reference_pins_commit_c :
    let note : CommitNote := .accessibility ⟨"/"⟩
    note.location ≠ "" ∧
      (perform note.reference (notedCheckout "c")).1 =
        .ok "https://chromium.googlesource.com/chromium/src@c" ∧
      ∃ commit, (perform note.commit (notedCheckout "c")).1 = .ok commit ∧ commit = "c" ∧
        Reference.parse "https://chromium.googlesource.com/chromium/src@c" =
          .ok ⟨note.location, commit⟩ := by
  intro note
  have hlocation : note.location ≠ "" := by decide
  have hreference : (perform note.reference (notedCheckout "c")).1 =
      .ok "https://chromium.googlesource.com/chromium/src@c" := by decide +kernel
  have hcommit : (perform note.commit (notedCheckout "c")).1 = .ok "c" := by decide +kernel
  obtain ⟨commit, hnoted, -, hiff, -⟩ :=
    reference_pins_commit note (notedCheckout "c") hlocation hreference
  obtain rfl : commit = "c" := Except.ok.inj (hnoted.symm.trans hcommit)
  exact ⟨hlocation, hreference, "c", hcommit, rfl, hiff.mpr (by decide)⟩

/-- With `a@b` in brackets another location is pinned, to another revision; `c@` gives no reference
at all. -/
theorem reference_of_at_sign :
    let note : CommitNote := .accessibility ⟨"/"⟩
    let written := note.location ++ "@a@b"
    (perform note.commit (notedCheckout "a@b")).1 = .ok "a@b" ∧
      (perform note.reference (notedCheckout "a@b")).1 = .ok written ∧
      Reference.parse written = .ok ⟨note.location ++ "@a", "b"⟩ ∧
      (perform note.reference (notedCheckout "c@")).1 = .ok (note.location ++ "@c@") ∧
      Reference.parse (note.location ++ "@c@") = .error (.unpinned (note.location ++ "@c@")) := by
  decide +kernel

end CommitNote

end PinnedDeps
