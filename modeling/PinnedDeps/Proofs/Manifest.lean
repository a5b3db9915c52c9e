import PinnedDeps.Manifest
import PinnedDeps.Proofs.Reference
import PinnedDeps.Proofs.Text.Bytes
import PinnedDeps.Proofs.Text.Pieces

/-! What a manifest lists. Its entries are the texts it was made of, brought into the order of their
bytes, so it is the same for every order in which they are given. As lines they can be told apart
exactly when no line feed is inside one of them, which nothing checks. -/

namespace PinnedDeps

namespace Manifest

open Reference (IsPinned)

variable {entries other : List String} {references : List Reference} {m m' : Manifest}

/-! ### Entries -/

theorem exists_of_ofEntries (h : ofEntries entries = .ok m) :
    ∃ references, entries.mapM Reference.parse = .ok references ∧
      m.references = references.mergeSort fun a b => a.text ≤ b.text := by
  rw [ofEntries] at h
  cases hr : entries.mapM Reference.parse with
  | error e =>
    rw [hr] at h
    cases h
  | ok references =>
    rw [hr] at h
    obtain rfl := Except.ok.inj h
    exact ⟨references, rfl, rfl⟩

/-- A manifest can be made exactly of pinned references. -/
theorem exists_ofEntries_iff :
    (∃ m, ofEntries entries = .ok m) ↔ ∀ entry ∈ entries, IsPinned entry := by
  constructor
  · rintro ⟨m, h⟩
    obtain ⟨references, hr, -⟩ := exists_of_ofEntries h
    exact (Reference.texts_of_mapM_parse hr).2
  · intro h
    obtain ⟨references, hr⟩ := Reference.exists_mapM_parse h
    refine ⟨⟨references.mergeSort fun a b => a.text ≤ b.text⟩, ?_⟩
    rw [ofEntries, hr]
    rfl

/-- A text that is no reference fails the manifest wherever the list goes on behind it. -/
theorem ofEntries_append_of_error {e : Failure} (h : entries.mapM Reference.parse = .error e)
    (more : List String) : ofEntries (entries ++ more) = .error e := by
  rw [ofEntries, List.mapM_append, h]
  rfl

theorem perm_entries (h : ofEntries entries = .ok m) : m.entries.Perm entries := by
  obtain ⟨references, hr, hm⟩ := exists_of_ofEntries h
  rw [Manifest.entries, hm, ← (Reference.texts_of_mapM_parse hr).1]
  exact (List.mergeSort_perm references _).map Reference.text

theorem sorted_entries (h : ofEntries entries = .ok m) : m.entries.Pairwise (· ≤ ·) := by
  obtain ⟨references, -, hm⟩ := exists_of_ofEntries h
  have hsorted : (references.mergeSort fun a b => a.text ≤ b.text).Pairwise fun a b =>
      decide (a.text ≤ b.text) = true :=
    List.pairwise_mergeSort
      (fun a b c hab hbc => by
        simpa using String.le_trans (of_decide_eq_true hab) (of_decide_eq_true hbc))
      (fun a b => by simpa using String.le_total a.text b.text) references
  rw [Manifest.entries, hm, List.pairwise_map]
  simpa using hsorted

/-! ### One manifest for all orders -/

/-- The first text that is no reference fails the manifest, and nothing else does. -/
theorem ofEntries_eq_error_iff {e : Failure} :
    ofEntries entries = .error e ↔
      ∃ before text after, entries = before ++ text :: after ∧
        (∀ entry ∈ before, IsPinned entry) ∧ ¬IsPinned text ∧ e = .unpinned text := by
  constructor
  · intro h
    apply Reference.exists_of_mapM_parse_error
    cases hr : entries.mapM Reference.parse with
    | error e' =>
      rw [ofEntries, hr] at h
      exact congrArg Except.error (Except.error.inj h)
    | ok references =>
      rw [ofEntries, hr] at h
      cases h
  · rintro ⟨before, text, after, rfl, hbefore, htext, rfl⟩
    rw [ofEntries, Reference.mapM_parse_of_first hbefore htext]
    rfl

/-- The entries of a manifest are read as the references that it holds. -/
theorem mapM_parse_entries (h : ofEntries entries = .ok m) :
    m.entries.mapM Reference.parse = .ok m.references := by
  obtain ⟨references, hr, hm⟩ := exists_of_ofEntries h
  apply Reference.mapM_parse_texts
  intro r hmem
  rw [hm, List.mem_mergeSort] at hmem
  exact Reference.parse_text_of_mem hr hmem

theorem eq_of_entries (h : ofEntries entries = .ok m) (h' : ofEntries other = .ok m')
    (heq : m.entries = m'.entries) : m = m' := by
  have hread : m.entries.mapM Reference.parse = .ok m.references := mapM_parse_entries h
  rw [heq, mapM_parse_entries h'] at hread
  cases m
  cases m'
  exact congrArg Manifest.mk (Except.ok.inj hread).symm

/-- There is only one order in which a manifest can list given texts. -/
theorem entries_eq_of_perm (h : ofEntries entries = .ok m) (h' : ofEntries other = .ok m')
    (hperm : other.Perm entries) : m'.entries = m.entries := by
  apply List.Perm.eq_of_pairwise
  · intro a b _ _ hab hba
    exact String.le_antisymm hab hba
  · exact sorted_entries h'
  · exact sorted_entries h
  · exact (perm_entries h').trans (hperm.trans (perm_entries h).symm)

theorem ofEntries_of_perm (h : ofEntries entries = .ok m) (hperm : other.Perm entries) :
    ofEntries other = .ok m := by
  have hpinned : ∀ entry ∈ other, IsPinned entry := by
    intro entry hentry
    exact exists_ofEntries_iff.mp ⟨m, h⟩ entry (hperm.mem_iff.mp hentry)
  obtain ⟨m', h'⟩ := exists_ofEntries_iff.mpr hpinned
  rw [h', eq_of_entries h' h (entries_eq_of_perm h h' hperm)]

/-- The first text that is no reference fails the manifest. Without one there is a manifest. It
lists the given texts, repeated ones included, in the order of their bytes; whatever order they are
given in it is the same manifest, with the same forms as text and JSON; and made again of its own
entries it does not change. -/
theorem ofEntries_canonical (entries : List String) :
    (∀ e, ofEntries entries = .error e ↔
        ∃ before text after, entries = before ++ text :: after ∧
          (∀ entry ∈ before, IsPinned entry) ∧ ¬IsPinned text ∧ e = .unpinned text) ∧
      ((∀ entry ∈ entries, IsPinned entry) →
        ∃ m, ofEntries entries = .ok m ∧ m.entries.Perm entries ∧
          m.entries.Pairwise (fun a b => Text.bytes a ≤ Text.bytes b) ∧
          (∀ other, other.Perm entries → ∃ m', ofEntries other = .ok m' ∧ m' = m ∧
            m'.render .text = m.render .text ∧ m'.render .json = m.render .json) ∧
          ofEntries m.entries = .ok m) := by
  refine ⟨fun _ => ofEntries_eq_error_iff, fun hpinned => ?_⟩
  obtain ⟨m, h⟩ := exists_ofEntries_iff.mpr hpinned
  refine ⟨m, h, perm_entries h, (sorted_entries h).imp Text.bytes_le, ?_, ?_⟩
  · intro other hperm
    exact ⟨m, ofEntries_of_perm h hperm, rfl, rfl, rfl⟩
  · exact ofEntries_of_perm h (perm_entries h)

theorem ofEntries_canonical_of_repeated :
    let entries := ["b@2", "a@1", "b@2"]
    (∀ entry ∈ entries, IsPinned entry) ∧ (["b@2", "b@2", "a@1"] : List String).Perm entries ∧
      (∃ m, ofEntries entries = .ok m ∧ m.entries.Perm entries ∧
        ofEntries ["b@2", "b@2", "a@1"] = .ok m ∧ ofEntries m.entries = .ok m) ∧
      ¬IsPinned "a" ∧ ¬IsPinned "@1" ∧
      ofEntries ["b@2", "a", "@1"] = .error (.unpinned "a") := by
  intro entries
  have hread : entries.mapM Reference.parse = .ok [⟨"b", "2"⟩, ⟨"a", "1"⟩, ⟨"b", "2"⟩] := by
    decide +kernel
  have hpinned : ∀ entry ∈ entries, IsPinned entry := (Reference.texts_of_mapM_parse hread).2
  have hperm : (["b@2", "b@2", "a@1"] : List String).Perm entries := by decide
  have hnone : Reference.parse "a" = .error (.unpinned "a") := by decide +kernel
  have hempty : Reference.parse "@1" = .error (.unpinned "@1") := by decide +kernel
  have hnot : ¬IsPinned "a" := (Reference.parse_eq_error_iff.mp hnone).1
  have hfirst : ∀ entry ∈ ["b@2"], IsPinned entry := by
    intro entry hentry
    exact hpinned entry (List.mem_of_mem_take (i := 1) hentry)
  obtain ⟨m, hm, hlisted, -, hsame, hagain⟩ := (ofEntries_canonical entries).2 hpinned
  obtain ⟨m', hother, rfl, -⟩ := hsame _ hperm
  refine ⟨hpinned, hperm, ⟨m', hm, hlisted, hother, hagain⟩, hnot,
    (Reference.parse_eq_error_iff.mp hempty).1, ?_⟩
  apply ((ofEntries_canonical _).1 _).mpr
  exact ⟨["b@2"], "a", ["@1"], rfl, hfirst, hnot, rfl⟩

/-! ### Lines -/

/-- The lines of a manifest are those of its entries, one entry after the other. -/
theorem splitOn_toText (m : Manifest) (h : m.entries ≠ []) :
    m.toText.toList.splitOn '\n' = m.entries.flatMap fun entry => entry.toList.splitOn '\n' := by
  have hlines : m.toText.toList = ['\n'].intercalate (m.entries.map String.toList) := by
    rw [toText, String.toList_intercalate]
    rfl
  rw [hlines, Text.splitOn_intercalate '\n' (by simpa using h), List.flatMap_map]

/-- The lines of a manifest are its entries, and references each, exactly when no text it was made
of has a line feed inside. -/
theorem lines_toText_iff (h : ofEntries entries = .ok m) (hne : entries ≠ []) :
    (m.toText.toList.splitOn '\n' = m.entries.map String.toList ∧
        ∀ line ∈ m.toText.toList.splitOn '\n', IsPinned (String.ofList line)) ↔
      ∀ entry ∈ entries, '\n' ∉ entry.toList := by
  have hperm := perm_entries h
  have hm : m.entries ≠ [] := fun hnil => hne (List.nil_perm.mp (hnil ▸ hperm))
  have hpinned : ∀ entry ∈ entries, IsPinned entry := exists_ofEntries_iff.mp ⟨m, h⟩
  constructor
  · rintro ⟨hlines, -⟩ entry hentry
    have hline : entry.toList ∈ m.toText.toList.splitOn '\n' := by
      rw [hlines]
      exact List.mem_map_of_mem (hperm.mem_iff.mpr hentry)
    exact Text.not_mem_of_mem_splitOn hline
  · intro hclean
    have hlines : m.toText.toList.splitOn '\n' = m.entries.map String.toList := by
      have hsingle : ∀ entry ∈ m.entries, entry.toList.splitOn '\n' = [entry.toList] :=
        fun entry hentry => List.splitOn_eq_singleton (hclean entry (hperm.mem_iff.mp hentry))
      rw [splitOn_toText m hm, List.flatMap_def, List.map_congr_left hsingle, ← List.flatMap_def,
        List.map_eq_flatMap]
    refine ⟨hlines, fun line hline => ?_⟩
    rw [hlines, List.mem_map] at hline
    obtain ⟨entry, hentry, rfl⟩ := hline
    rw [String.ofList_toList]
    exact hpinned entry (hperm.mem_iff.mp hentry)

theorem lines_toText_of_two :
    let m : Manifest := ⟨[⟨"a", "1"⟩, ⟨"b", "2"⟩]⟩
    ofEntries ["b@2", "a@1"] = .ok m ∧ ["b@2", "a@1"] ≠ [] ∧
      m.toText.toList.splitOn '\n' = ["a@1".toList, "b@2".toList] := by
  intro m
  have hm : ofEntries ["b@2", "a@1"] = .ok m := by
    have hr : ["b@2", "a@1"].mapM Reference.parse = .ok [⟨"b", "2"⟩, ⟨"a", "1"⟩] := by
      decide +kernel
    rw [ofEntries, hr]
    show Except.ok (Manifest.mk _) = _
    simp [m, List.mergeSort, List.MergeSort.Internal.splitInTwo, Reference.text]
  have hne : ["b@2", "a@1"] ≠ [] := by decide
  exact ⟨hm, hne, ((lines_toText_iff hm hne).mpr (by decide)).1⟩

/-- A reference may have a line feed inside. It is shown as two lines, the first of which is no
reference. -/
theorem lines_toText_of_line_feed :
    let m : Manifest := ⟨[⟨"a\nb", "1"⟩]⟩
    ofEntries ["a\nb@1"] = .ok m ∧ m.entries = ["a\nb@1"] ∧
      m.toText.toList.splitOn '\n' = ["a".toList, "b@1".toList] ∧ ¬IsPinned "a" := by
  refine ⟨by decide +kernel, by decide, by decide, ?_⟩
  rintro ⟨location, revision, h, -, -, -⟩
  have hat : '@' ∈ "a".toList := by
    rw [h]
    simp
  exact absurd hat (by decide)

end Manifest

end PinnedDeps
