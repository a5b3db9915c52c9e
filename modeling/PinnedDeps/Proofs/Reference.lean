import PinnedDeps.Reference
import Mathlib.Data.List.Forall2

/-! What a written reference says. It is read and shown again without a change, and shown and read
again; a list of them is read to its end, or to the first text in it that is none. The short name of
a reference is what stands between the last `/` of its location, or its start, and the next `.`, or
its end. -/

namespace PinnedDeps.Reference

variable {text name : String} {r : Reference} {location revision segment stem : List Char}
  {entries : List String} {references : List Reference}

/-! ### Reading one -/

/-- The last `@` has something on both sides. -/
def IsPinned (text : String) : Prop :=
  ∃ location revision, text.toList = location ++ '@' :: revision ∧
    location ≠ [] ∧ revision ≠ [] ∧ '@' ∉ revision

theorem exists_of_parse (h : parse text = .ok r) :
    ∃ location revision, text.toList = location ++ '@' :: revision ∧
      location ≠ [] ∧ revision ≠ [] ∧ '@' ∉ revision ∧
      r = ⟨String.ofList location, String.ofList revision⟩ := by
  rw [parse] at h
  split at h
  · next found hr =>
    obtain rfl := Except.ok.inj h
    rw [parse?] at hr
    split at hr
    · next location revision hcut =>
      obtain ⟨htext, hlast⟩ := Text.cutLast_eq_some hcut
      split at hr
      · cases hr
      · next hne =>
        rw [not_or] at hne
        exact ⟨location, revision, htext, hne.1, hne.2, hlast, (Option.some.inj hr).symm⟩
    · cases hr
  · cases h

/-- Showing what was read gives the text that was read. -/
theorem text_of_parse (h : parse text = .ok r) : r.text = text := by
  obtain ⟨location, revision, htext, -, -, -, rfl⟩ := exists_of_parse h
  rw [← String.ofList_toList (s := text), htext, Reference.text]
  simp [String.ext_iff]

theorem isPinned_of_parse (h : parse text = .ok r) : IsPinned text := by
  obtain ⟨location, revision, htext, hl, hr, hlast, -⟩ := exists_of_parse h
  exact ⟨location, revision, htext, hl, hr, hlast⟩

theorem parse_of_eq (htext : text.toList = location ++ '@' :: revision) (hl : location ≠ [])
    (hr : revision ≠ []) (hlast : '@' ∉ revision) :
    parse text = .ok ⟨String.ofList location, String.ofList revision⟩ := by
  rw [parse, parse?, htext, Text.cutLast_append_cons hlast]
  simp [hl, hr]

theorem IsPinned.exists_parse (h : IsPinned text) : ∃ r, parse text = .ok r := by
  obtain ⟨location, revision, htext, hl, hr, hlast⟩ := h
  exact ⟨_, parse_of_eq htext hl hr hlast⟩

theorem parse_eq_error_iff {e : Failure} :
    parse text = .error e ↔ ¬IsPinned text ∧ e = .unpinned text := by
  constructor
  · intro h
    have hnot : ¬IsPinned text := by
      intro hp
      obtain ⟨r, hr⟩ := hp.exists_parse
      rw [h] at hr
      cases hr
    refine ⟨hnot, ?_⟩
    rw [parse] at h
    split at h
    · cases h
    · exact (Except.error.inj h).symm
  · rintro ⟨hnot, rfl⟩
    rw [parse]
    split
    · next r hr => exact absurd (isPinned_of_parse (by rw [parse, hr])) hnot
    · rfl

/-! ### Reading a list of them -/

/-- A list is read text by text. -/
theorem forall₂_of_mapM_parse (h : entries.mapM parse = .ok references) :
    List.Forall₂ (fun entry r => parse entry = .ok r) entries references := by
  induction entries generalizing references with
  | nil =>
    obtain rfl : references = [] := (Except.ok.inj h).symm
    exact .nil
  | cons entry entries ih =>
    rw [List.mapM_cons] at h
    cases hp : parse entry with
    | error e =>
      rw [hp] at h
      cases h
    | ok r =>
      rw [hp] at h
      cases hrest : entries.mapM parse with
      | error e =>
        rw [hrest] at h
        cases h
      | ok more =>
        rw [hrest] at h
        obtain rfl : references = r :: more := (Except.ok.inj h).symm
        exact .cons hp (ih hrest)

theorem texts_of_mapM_parse (h : entries.mapM parse = .ok references) :
    references.map Reference.text = entries ∧ ∀ entry ∈ entries, IsPinned entry := by
  have hread := forall₂_of_mapM_parse h
  clear h
  induction hread with
  | nil => simp
  | cons hp _ ih =>
    obtain ⟨htexts, hpinned⟩ := ih
    rw [List.map_cons, text_of_parse hp, htexts]
    exact ⟨rfl, List.forall_mem_cons.mpr ⟨isPinned_of_parse hp, hpinned⟩⟩

theorem exists_mapM_parse (h : ∀ entry ∈ entries, IsPinned entry) :
    ∃ references, entries.mapM parse = .ok references := by
  induction entries with
  | nil => exact ⟨[], rfl⟩
  | cons entry entries ih =>
    obtain ⟨hentry, hrest⟩ := List.forall_mem_cons.mp h
    obtain ⟨r, hr⟩ := hentry.exists_parse
    obtain ⟨more, hmore⟩ := ih hrest
    refine ⟨r :: more, ?_⟩
    rw [List.mapM_cons, hr, hmore]
    rfl

/-- References that were read are read again from what is shown of them. -/
theorem parse_text_of_mem (h : entries.mapM parse = .ok references) (hr : r ∈ references) :
    parse r.text = .ok r := by
  have hread := forall₂_of_mapM_parse h
  clear h
  induction hread with
  | nil => cases hr
  | cons hp _ ih =>
    rcases List.mem_cons.mp hr with rfl | hr
    · rwa [text_of_parse hp]
    · exact ih hr

theorem mapM_parse_texts (h : ∀ r ∈ references, parse r.text = .ok r) :
    (references.map Reference.text).mapM parse = .ok references := by
  induction references with
  | nil => rfl
  | cons r references ih =>
    obtain ⟨hr, hrest⟩ := List.forall_mem_cons.mp h
    rw [List.map_cons, List.mapM_cons, hr, ih hrest]
    rfl

/-- Reading fails at the first text that is no reference. -/
theorem exists_of_mapM_parse_error {e : Failure} (h : entries.mapM parse = .error e) :
    ∃ before text after, entries = before ++ text :: after ∧
      (∀ entry ∈ before, IsPinned entry) ∧ ¬IsPinned text ∧ e = .unpinned text := by
  induction entries with
  | nil => cases h
  | cons entry entries ih =>
    rw [List.mapM_cons] at h
    cases hp : parse entry with
    | error e' =>
      rw [hp] at h
      obtain rfl : e' = e := Except.error.inj h
      obtain ⟨hnot, rfl⟩ := parse_eq_error_iff.mp hp
      exact ⟨[], entry, entries, rfl, by simp, hnot, rfl⟩
    | ok r =>
      rw [hp] at h
      cases hrest : entries.mapM parse with
      | ok more =>
        rw [hrest] at h
        cases h
      | error e' =>
        rw [hrest] at h
        obtain rfl : e' = e := Except.error.inj h
        obtain ⟨before, text, after, rfl, hbefore, hnot, rfl⟩ := ih hrest
        refine ⟨entry :: before, text, after, rfl, ?_, hnot, rfl⟩
        exact List.forall_mem_cons.mpr ⟨isPinned_of_parse hp, hbefore⟩

theorem mapM_parse_of_first {before after : List String}
    (hbefore : ∀ entry ∈ before, IsPinned entry) (htext : ¬IsPinned text) :
    (before ++ text :: after).mapM parse = .error (.unpinned text) := by
  obtain ⟨references, hread⟩ := exists_mapM_parse hbefore
  rw [List.mapM_append, hread, List.mapM_cons, parse_eq_error_iff.mpr ⟨htext, rfl⟩]
  rfl

/-! ### Short names -/

/-- What a location ends in behind its last `/`; the whole of it if there is none. -/
def IsLastSegment (location segment : List Char) : Prop :=
  '/' ∉ segment ∧ (location = segment ∨ ∃ front, location = front ++ '/' :: segment)

/-- What a segment starts with before its first `.`; the whole of it if there is none. -/
def IsStem (segment stem : List Char) : Prop :=
  '.' ∉ stem ∧ (segment = stem ∨ ∃ ending, segment = stem ++ '.' :: ending)

/-- The text is a reference to a repository of that short name. -/
def Names (text name : String) : Prop :=
  ∃ location revision segment, text.toList = location ++ '@' :: revision ∧
    location ≠ [] ∧ revision ≠ [] ∧ '@' ∉ revision ∧
    IsLastSegment location segment ∧ IsStem segment name.toList

theorem lastSegment_eq_iff :
    ((Text.cutLast '/' location).map Prod.snd).getD location = segment ↔
      IsLastSegment location segment := by
  constructor
  · rintro rfl
    cases hcut : Text.cutLast '/' location with
    | none => exact ⟨Text.cutLast_eq_none hcut, .inl rfl⟩
    | some cut =>
      obtain ⟨hlocation, hlast⟩ := Text.cutLast_eq_some hcut
      exact ⟨hlast, .inr ⟨cut.1, hlocation⟩⟩
  · rintro ⟨hlast, rfl | ⟨front, rfl⟩⟩
    · rw [Text.cutLast_of_not_mem hlast]
      rfl
    · rw [Text.cutLast_append_cons hlast]
      rfl

theorem stem_eq_iff :
    ((Text.cutFirst '.' segment).map Prod.fst).getD segment = stem ↔ IsStem segment stem := by
  constructor
  · rintro rfl
    cases hcut : Text.cutFirst '.' segment with
    | none => exact ⟨Text.cutFirst_eq_none hcut, .inl rfl⟩
    | some cut =>
      obtain ⟨hsegment, hfirst⟩ := Text.cutFirst_eq_some hcut
      exact ⟨hfirst, .inr ⟨cut.2, hsegment⟩⟩
  · rintro ⟨hfirst, rfl | ⟨ending, rfl⟩⟩
    · rw [Text.cutFirst_of_not_mem hfirst]
      rfl
    · rw [Text.cutFirst_append_cons hfirst]
      rfl

theorem shortName_eq_iff :
    r.shortName = name ↔
      ∃ segment, IsLastSegment r.location.toList segment ∧ IsStem segment name.toList := by
  have hname : r.shortName = name ↔
      ((Text.cutFirst '.' (((Text.cutLast '/' r.location.toList).map Prod.snd).getD
        r.location.toList)).map Prod.fst).getD (((Text.cutLast '/' r.location.toList).map
          Prod.snd).getD r.location.toList) = name.toList := by
    rw [shortName, String.ext_iff, String.toList_ofList]
  rw [hname, stem_eq_iff]
  constructor
  · intro h
    exact ⟨_, lastSegment_eq_iff.mp rfl, h⟩
  · rintro ⟨segment, hsegment, hstem⟩
    rwa [lastSegment_eq_iff.mpr hsegment]

theorem names_iff : Names text name ↔ ∃ r, parse text = .ok r ∧ r.shortName = name := by
  constructor
  · rintro ⟨location, revision, segment, htext, hl, hr, hlast, hsegment, hstem⟩
    refine ⟨_, parse_of_eq htext hl hr hlast, shortName_eq_iff.mpr ⟨segment, ?_, hstem⟩⟩
    rwa [String.toList_ofList]
  · rintro ⟨r, hr, hname⟩
    obtain ⟨segment, hsegment, hstem⟩ := shortName_eq_iff.mp hname
    obtain ⟨location, revision, htext, hl, hrev, hlast, rfl⟩ := exists_of_parse hr
    rw [String.toList_ofList] at hsegment
    exact ⟨location, revision, segment, htext, hl, hrev, hlast, hsegment, hstem⟩

/-- The short names of references that are read are those that their texts name. -/
theorem mem_shortNames_iff (h : entries.mapM parse = .ok references) :
    name ∈ references.map shortName ↔ ∃ entry ∈ entries, Names entry name := by
  have hread := forall₂_of_mapM_parse h
  clear h
  induction hread with
  | nil => simp
  | cons hp _ ih =>
    simp [ih, names_iff, hp, eq_comm]

/-- Of all that a text starts with and that has no `c` in it, the longest. -/
structure IsLongestWithout (c : Char) (cs start : List Char) : Prop where
  isStart : start <+: cs
  notMem : c ∉ start
  longest : ∀ other, other <+: cs → c ∉ other → other.length ≤ start.length

theorem IsStem.isLongestWithout (h : IsStem segment stem) : IsLongestWithout '.' segment stem := by
  obtain ⟨hfirst, rfl | ⟨ending, rfl⟩⟩ := h
  · exact ⟨List.prefix_refl _, hfirst, fun _ hother _ => hother.length_le⟩
  · refine ⟨List.prefix_append _ _, hfirst, fun other hother hnot => ?_⟩
    by_contra hlonger
    -- a longer start of the segment goes beyond the `.` behind the stem
    have hdot : stem ++ ['.'] <+: stem ++ '.' :: ending :=
      (List.prefix_append_right_inj stem).mpr ⟨ending, rfl⟩
    have hbeyond : stem ++ ['.'] <+: other := by
      apply List.prefix_of_prefix_length_le hdot hother
      rw [List.length_append, List.length_singleton]
      omega
    apply hnot
    apply hbeyond.subset
    simp

theorem IsStem.no_slash (h : IsStem segment stem) (hsegment : '/' ∉ segment) : '/' ∉ stem :=
  fun hmem => hsegment (h.isLongestWithout.isStart.subset hmem)

/-! ### Reading what is shown -/

/-- The text is the two parts with its last `@` between them, and neither is empty. -/
def Splits (text location revision : String) : Prop :=
  text = location ++ "@" ++ revision ∧ location ≠ "" ∧ revision ≠ "" ∧ '@' ∉ revision.toList

theorem parse_eq_ok_iff : parse text = .ok r ↔ Splits text r.location r.revision := by
  constructor
  · intro h
    have htext : r.text = text := text_of_parse h
    obtain ⟨location, revision, -, hl, hr, hlast, rfl⟩ := exists_of_parse h
    refine ⟨htext.symm, ?_, ?_, ?_⟩
    · simpa using hl
    · simpa using hr
    · simpa using hlast
  · rintro ⟨htext, hl, hr, hlast⟩
    have hchars : text.toList = r.location.toList ++ '@' :: r.revision.toList := by
      rw [htext]
      simp
    rw [parse_of_eq hchars (by simpa using hl) (by simpa using hr) hlast, String.ofList_toList,
      String.ofList_toList]

theorem Splits.unique {location revision location' revision' : String}
    (h : Splits text location revision) (h' : Splits text location' revision') :
    location = location' ∧ revision = revision' := by
  have hread : parse text = .ok ⟨location, revision⟩ := parse_eq_ok_iff.mpr h
  have hread' : parse text = .ok ⟨location', revision'⟩ := parse_eq_ok_iff.mpr h'
  exact Reference.mk.inj (Except.ok.inj (hread.symm.trans hread'))

theorem shortName_isLongestWithout (r : Reference) :
    ∃ segment, IsLastSegment r.location.toList segment ∧ '/' ∉ r.shortName.toList ∧
      IsLongestWithout '.' segment r.shortName.toList := by
  obtain ⟨segment, hsegment, hstem⟩ := shortName_eq_iff.mp (rfl : r.shortName = r.shortName)
  exact ⟨segment, hsegment, hstem.no_slash hsegment.1, hstem.isLongestWithout⟩

/-- A text is read as a reference exactly when it splits into a location and a revision. It does so
in one way at most, which is what is read, and showing that gives the text again; a text that does
not is refused. A location and a revision without an `@` are read again from what is shown of them.
The short name has no `/` and no `.`: it is the longest that the last segment of the location starts
with before a `.`. -/
theorem parse_inverts_text (text : String) :
    (∀ r, parse text = .ok r ↔ Splits text r.location r.revision) ∧
      (∀ location revision location' revision', Splits text location revision →
        Splits text location' revision' → location = location' ∧ revision = revision') ∧
      ((∀ location revision, ¬Splits text location revision) →
        parse text = .error (.unpinned text)) ∧
      (∀ r, parse text = .ok r → r.text = text) ∧
      (∀ location revision, location ≠ "" → revision ≠ "" → '@' ∉ revision.toList →
        parse (Reference.text ⟨location, revision⟩) = .ok ⟨location, revision⟩) ∧
      ∀ r, parse text = .ok r → '/' ∉ r.shortName.toList ∧ '.' ∉ r.shortName.toList ∧
        ∃ segment, IsLastSegment r.location.toList segment ∧
          IsLongestWithout '.' segment r.shortName.toList := by
  refine ⟨fun _ => parse_eq_ok_iff, fun _ _ _ _ => Splits.unique, ?_, fun _ => text_of_parse, ?_,
    ?_⟩
  · intro hnone
    cases hread : parse text with
    | ok r => exact absurd (parse_eq_ok_iff.mp hread) (hnone _ _)
    | error e => rw [(parse_eq_error_iff.mp hread).2]
  · intro location revision hl hr hlast
    apply parse_eq_ok_iff.mpr
    exact ⟨rfl, hl, hr, hlast⟩
  · intro r _
    obtain ⟨segment, hsegment, hslash, hlongest⟩ := shortName_isLongestWithout r
    exact ⟨hslash, hlongest.notMem, segment, hsegment, hlongest⟩

theorem parse_inverts_text_userAtHost :
    let location := "https://user@host/a.b/zlib.git.x"
    let text := location ++ "@1"
    Splits text location "1" ∧ parse text = .ok ⟨location, "1"⟩ ∧
      Reference.text ⟨location, "1"⟩ = text ∧
      (∀ l v, Splits text l v → l = location ∧ v = "1") ∧
      parse (Reference.text ⟨location, "1"⟩) = .ok ⟨location, "1"⟩ ∧
      (∃ segment, IsLastSegment location.toList segment ∧
        IsLongestWithout '.' segment "zlib".toList) ∧
      (∀ l v, ¬Splits "@1" l v) ∧ parse "@1" = .error (.unpinned "@1") := by
  intro location text
  have hsplits : Splits text location "1" := ⟨rfl, by decide, by decide, by decide⟩
  have hnone : ∀ l v, ¬Splits "@1" l v := by
    intro l v h
    have hread : parse "@1" = .ok ⟨l, v⟩ := parse_eq_ok_iff.mpr h
    have herror : parse "@1" = .error (.unpinned "@1") := by decide +kernel
    rw [herror] at hread
    cases hread
  have hname : (Reference.mk location "1").shortName = "zlib" := by decide +kernel
  obtain ⟨hiff, hunique, -, htext, hshown, hshort⟩ := parse_inverts_text text
  obtain ⟨-, -, hrefused, -⟩ := parse_inverts_text "@1"
  have hread : parse text = .ok ⟨location, "1"⟩ := (hiff _).mpr hsplits
  refine ⟨hsplits, hread, htext _ hread, fun l v h => hunique l v _ _ h hsplits,
    hshown _ _ (by decide) (by decide) (by decide), ?_, hnone, hrefused hnone⟩
  rw [← hname]
  exact (hshort _ hread).2.2

end PinnedDeps.Reference
