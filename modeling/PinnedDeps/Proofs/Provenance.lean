import PinnedDeps.Provenance
import PinnedDeps.Proofs.Dict
import PinnedDeps.Proofs.Reference

/-! What the check of provenance finds. Two sets of names are compared: the short names of the
dependencies that are references, and the names that some `upstream_` variable is about. The check
passes when they match, exempt dependencies apart, and otherwise tells each name without a partner
once, in ascending order, dependencies first. It compares nothing if some dependency is a string but
no reference. -/

namespace PinnedDeps.Provenance

variable {deps vars : Dict Value} {file : DepsFile} {names others : List String}
  {name text key : String}

/-! ### The two sets -/

/-- Some dependency is a reference of that short name. -/
def Depends (deps : Dict Value) (name : String) : Prop :=
  ∃ key text, (key, .str text) ∈ deps ∧ Reference.Names text name

/-- Some variable is about that name. -/
def HasHome (vars : Dict Value) (name : String) : Prop := "upstream_" ++ name ∈ vars.keys

/-- All dependencies that are strings are references. -/
def AllPinned (deps : Dict Value) : Prop :=
  ∀ key text, (key, .str text) ∈ deps → Reference.IsPinned text

/-- In the order of the keys, the text is the first string among the dependencies that is no
reference. -/
def FirstUnpinned (deps : Dict Value) (text : String) : Prop :=
  ∃ key, (key, .str text) ∈ deps ∧ ¬Reference.IsPinned text ∧
    ∀ key' text', (key', .str text') ∈ deps → key' < key → Reference.IsPinned text'

/-- The list has exactly the names with the property, in ascending order and each once. -/
structure Lists (P : String → Prop) (names : List String) : Prop where
  ascending : names.Pairwise (· < ·)
  mem_iff : ∀ name, name ∈ names ↔ P name

theorem Lists.filter {P Q : String → Prop} [DecidablePred Q] (h : Lists P names) :
    Lists (fun name => P name ∧ Q name) (names.filter fun name => Q name) where
  ascending := h.ascending.filter _
  mem_iff := fun name => by simp [h.mem_iff]

theorem Lists.congr {P Q : String → Prop} (h : Lists P names) (hq : ∀ name, P name ↔ Q name) :
    Lists Q names where
  ascending := h.ascending
  mem_iff := fun name => (h.mem_iff name).trans (hq name)

theorem Lists.eq_nil_iff {P : String → Prop} (h : Lists P names) :
    names = [] ↔ ∀ name, ¬P name := by
  rw [List.eq_nil_iff_forall_not_mem]
  exact forall_congr' fun name => not_congr (h.mem_iff name)

/-! ### Names in order -/

theorem lists_ascending (names : List String) : Lists (· ∈ names) (ascending names) where
  ascending := by
    have h := Dict.ascending_ofPairs (names.map fun name => (name, ()))
    exact List.pairwise_map.mpr h
  mem_iff := fun name => by
    have hget : ∀ value, Dict.get? (names.map fun name => (name, ())).reverse name = some value →
        name ∈ names := by
      intro value h
      have hmem := List.mem_reverse.mp (Dict.mem_of_get? h)
      simpa using hmem
    rw [ascending, Dict.mem_keys_iff]
    simp only [Dict.get?_ofPairs]
    constructor
    · rintro ⟨value, h⟩
      exact hget value h
    · intro h
      rw [← Dict.mem_keys_iff]
      simpa [Dict.keys] using h

theorem subject?_eq_some_iff : subject? key = some name ↔ key = "upstream_" ++ name := by
  have hdrop : ∀ rest, (entryPrefix.toList ++ rest).drop entryPrefix.length = rest := by
    intro rest
    rw [← String.length_toList]
    exact List.drop_left
  rw [subject?]
  constructor
  · intro h
    split at h
    · next hp =>
      obtain ⟨rest, hrest⟩ := List.isPrefixOf_iff_prefix.mp hp
      obtain rfl := Option.some.inj h
      have hname : (String.ofList rest).toList = rest := String.toList_ofList
      rw [String.ext_iff, String.toList_append, ← hrest, hdrop, hname]
      rfl
    · cases h
  · rintro rfl
    have hkey : ("upstream_" ++ name).toList = entryPrefix.toList ++ name.toList :=
      String.toList_append
    rw [hkey, if_pos (List.isPrefixOf_iff_prefix.mpr ⟨name.toList, rfl⟩), hdrop,
      String.ofList_toList]

theorem lists_subjects (vars : Dict Value) : Lists (HasHome vars) (subjects vars) :=
  (lists_ascending _).congr fun name => by
    simp [List.mem_filterMap, subject?_eq_some_iff, HasHome]

/-! ### The strings among the dependencies -/

theorem pinned_eq_filterMap (file : DepsFile) :
    file.pinned = file.deps.filterMap fun entry => entry.2.text? := by
  rw [DepsFile.pinned, Dict.values, List.filterMap_map]
  rfl

theorem mem_pinned_iff : text ∈ file.pinned ↔ ∃ key, (key, .str text) ∈ file.deps := by
  have htext : ∀ value : Value, value.text? = some text ↔ value = .str text := by
    intro value
    cases value <;> simp [Value.text?]
  simp [DepsFile.pinned, Dict.values, htext]

theorem allPinned_iff : AllPinned file.deps ↔ ∀ entry ∈ file.pinned, Reference.IsPinned entry := by
  simp only [AllPinned, mem_pinned_iff]
  exact ⟨fun h entry ⟨key, hk⟩ => h key entry hk, fun h key text hk => h text ⟨key, hk⟩⟩

/-- The first string that is no reference stands behind those at smaller keys. -/
theorem firstUnpinned_of_pinned {before after : List String} (hd : Dict.Ascending file.deps)
    (h : file.pinned = before ++ text :: after)
    (hbefore : ∀ entry ∈ before, Reference.IsPinned entry) (hnot : ¬Reference.IsPinned text) :
    FirstUnpinned file.deps text := by
  rw [pinned_eq_filterMap] at h
  obtain ⟨front, back, hdeps, hfront, hback⟩ := List.filterMap_eq_append_iff.mp h
  obtain ⟨skipped, ⟨key, value⟩, rest, hrest, hskipped, hvalue, -⟩ :=
    List.filterMap_eq_cons_iff.mp hback
  obtain rfl : value = .str text := by
    cases value <;> simp_all [Value.text?]
  have hd' : Dict.Ascending ((front ++ skipped) ++ (key, .str text) :: rest) := by
    rw [List.append_assoc, ← hrest, ← hdeps]
    exact hd
  refine ⟨key, by simp [hdeps, hrest], hnot, ?_⟩
  intro key' text' hmem hlt
  rw [hdeps, hrest, ← List.append_assoc] at hmem
  rcases List.mem_append.mp hmem with hmem | hmem
  · rcases List.mem_append.mp hmem with hmem | hmem
    · refine hbefore text' ?_
      rw [← hfront]
      exact List.mem_filterMap.mpr ⟨_, hmem, rfl⟩
    · exact absurd (hskipped _ hmem) (by simp [Value.text?])
  · have hle : ¬key' < key := by
      rcases List.mem_cons.mp hmem with heq | hmem
      · obtain ⟨rfl, -⟩ := Prod.mk.inj heq
        exact String.lt_irrefl key'
      · have hd'' := (List.pairwise_append.mp hd').2.1
        exact String.lt_asymm ((List.pairwise_cons.mp hd'').1 _ hmem)
    exact absurd hlt hle

theorem FirstUnpinned.unique {text' : String} (hd : Dict.Ascending deps)
    (h : FirstUnpinned deps text) (h' : FirstUnpinned deps text') : text = text' := by
  obtain ⟨key, hmem, hnot, hfirst⟩ := h
  obtain ⟨key', hmem', hnot', hfirst'⟩ := h'
  have hkeys : key = key' := by
    by_contra hne
    by_cases hlt : key < key'
    · exact hnot (hfirst' _ _ hmem hlt)
    · exact hnot' (hfirst _ _ hmem' (Dict.lt_of_not_lt_of_ne hlt hne))
  subst hkeys
  have hget := Dict.get?_of_mem hd hmem
  rw [Dict.get?_of_mem hd hmem'] at hget
  simpa using hget.symm

/-! ### The check -/

theorem outcome_check (file : DepsFile) :
    (check file).outcome =
      dependencies file.pinned >>= fun names =>
        if problems names (subjects file.vars) = [] then .ok ()
        else .error (.inconsistent (problems names (subjects file.vars))) := by
  unfold check
  rw [Traced.outcome_bind, Traced.outcome_bind]
  cases dependencies file.pinned with
  | error e => rfl
  | ok names =>
    simp only [Traced.outcome_bind, Traced.outcome_reportAll, Traced.outcome_ofExcept]
    dsimp only [bind, Except.bind]
    cases problems names (subjects file.vars) with
    | nil => rfl
    | cons first more => rfl

/-- The check passes references on to the comparison, and fails at the first string that is none. -/
theorem outcome_check_cases (file : DepsFile) :
    (∃ e, file.pinned.mapM Reference.parse = .error e ∧ (check file).outcome = .error e) ∨
      ∃ references, file.pinned.mapM Reference.parse = .ok references ∧
        ((check file).outcome = .ok () ∨
          ∃ found, (check file).outcome = .error (.inconsistent found)) := by
  rw [outcome_check, dependencies]
  cases file.pinned.mapM Reference.parse with
  | error e => exact .inl ⟨e, rfl, rfl⟩
  | ok references =>
    refine .inr ⟨references, rfl, ?_⟩
    show (ite _ _ _ = _) ∨ ∃ found, ite _ _ _ = _
    split
    · exact .inl rfl
    · exact .inr ⟨_, rfl⟩

theorem lists_dependencies (h : AllPinned file.deps) :
    ∃ names, dependencies file.pinned = .ok names ∧ Lists (Depends file.deps) names := by
  obtain ⟨references, hread⟩ := Reference.exists_mapM_parse (allPinned_iff.mp h)
  refine ⟨ascending (references.map (·.shortName)), by rw [dependencies, hread]; rfl, ?_⟩
  refine (lists_ascending _).congr fun name => ?_
  rw [Reference.mem_shortNames_iff hread]
  simp only [mem_pinned_iff, Depends]
  exact ⟨fun ⟨text, ⟨key, hk⟩, hn⟩ => ⟨key, text, hk, hn⟩,
    fun ⟨key, text, hk, hn⟩ => ⟨text, ⟨key, hk⟩, hn⟩⟩

theorem allPinned_or_firstUnpinned (hd : Dict.Ascending file.deps) :
    AllPinned file.deps ∨
      ∃ text, FirstUnpinned file.deps text ∧ (check file).outcome = .error (.unpinned text) := by
  rcases outcome_check_cases file with ⟨e, hread, houtcome⟩ | ⟨references, hread, -⟩
  · obtain ⟨before, text, after, hpinned, hbefore, hnot, rfl⟩ :=
      Reference.exists_of_mapM_parse_error hread
    exact .inr ⟨text, firstUnpinned_of_pinned hd hpinned hbefore hnot, houtcome⟩
  · exact .inl (allPinned_iff.mpr (Reference.texts_of_mapM_parse hread).2)

/-- Once all strings are references, the check passes unless a name is without its partner. -/
theorem exists_outcome_check (h : AllPinned file.deps) :
    ∃ homeless unused,
      Lists (fun name => Depends file.deps name ∧ name ∉ exempt ∧ ¬HasHome file.vars name)
        homeless ∧
      Lists (fun name => HasHome file.vars name ∧ ¬Depends file.deps name) unused ∧
      (check file).outcome =
        if homeless = [] ∧ unused = [] then .ok ()
        else
          .error (.inconsistent (homeless.map missingEntry ++ unused.map missingDependency)) := by
  obtain ⟨names, hnames, hlists⟩ := lists_dependencies h
  have hsubjects := lists_subjects file.vars
  have hhomeless : Lists _ (names.filter fun name => name ∉ exempt ∧ name ∉ subjects file.vars) :=
    hlists.filter
  have hunused : Lists _ ((subjects file.vars).filter fun name => name ∉ names) := hsubjects.filter
  refine ⟨_, _, hhomeless.congr fun name => ?_, hunused.congr fun name => ?_, ?_⟩
  · rw [hsubjects.mem_iff]
  · rw [hlists.mem_iff]
  · rw [outcome_check, hnames]
    show (if problems names (subjects file.vars) = [] then Except.ok () else _) = _
    simp only [problems, List.append_eq_nil_iff, List.map_eq_nil_iff]

theorem outcome_check_eq_unpinned_iff (hd : Dict.Ascending file.deps) :
    (check file).outcome = .error (.unpinned text) ↔ FirstUnpinned file.deps text := by
  rcases allPinned_or_firstUnpinned hd with h | ⟨text', hfirst', houtcome⟩
  · obtain ⟨homeless, unused, -, -, houtcome⟩ := exists_outcome_check h
    rw [houtcome]
    constructor
    · intro he
      split at he <;> cases he
    · rintro ⟨key, hmem, hnot, -⟩
      exact absurd (h key text hmem) hnot
  · rw [houtcome]
    constructor
    · intro he
      obtain rfl : text' = text := by simpa using he
      exact hfirst'
    · intro hfirst
      rw [hfirst.unique hd hfirst']

/-- The check fails with the first string among the dependencies that is no reference, if there is
one. Otherwise it passes exactly when the two sets match, and else lists the names of either set
that are without a partner in the other. -/
theorem check_matches (file : DepsFile) (hd : Dict.Ascending file.deps) :
    (∀ text, (check file).outcome = .error (.unpinned text) ↔ FirstUnpinned file.deps text) ∧
    ((∀ text, ¬FirstUnpinned file.deps text) →
      ((check file).outcome = .ok () ↔
        (∀ name, Depends file.deps name → name ∉ exempt → HasHome file.vars name) ∧
        (∀ name, HasHome file.vars name → Depends file.deps name)) ∧
      ∀ e, (check file).outcome = .error e →
        ∃ homeless unused,
          Lists (fun name => Depends file.deps name ∧ name ∉ exempt ∧ ¬HasHome file.vars name)
            homeless ∧
          Lists (fun name => HasHome file.vars name ∧ ¬Depends file.deps name) unused ∧
          e = .inconsistent (homeless.map missingEntry ++ unused.map missingDependency)) := by
  refine ⟨fun text => outcome_check_eq_unpinned_iff hd, fun hnone => ?_⟩
  have hpinned : AllPinned file.deps :=
    (allPinned_or_firstUnpinned hd).resolve_right fun ⟨text, hfirst, _⟩ => hnone text hfirst
  obtain ⟨homeless, unused, hhomeless, hunused, houtcome⟩ := exists_outcome_check hpinned
  have hnil : homeless = [] ∧ unused = [] ↔
      (∀ name, Depends file.deps name → name ∉ exempt → HasHome file.vars name) ∧
      (∀ name, HasHome file.vars name → Depends file.deps name) := by
    rw [hhomeless.eq_nil_iff, hunused.eq_nil_iff]
    simp only [not_and, not_not]
  rw [houtcome]
  constructor
  · rw [← hnil]
    split
    · next hboth => simp [hboth]
    · next hsome => simp [hsome]
  · intro e he
    split at he
    · cases he
    · exact ⟨homeless, unused, hhomeless, hunused, (Except.error.inj he).symm⟩

/-- Two mirrored dependencies, one of them without a home, an exempt one, a package, and a home for
a name that nothing has. -/
def mirrors : DepsFile where
  vars := [("upstream_icu", .str "https://icu.example"), ("upstream_zlib", .str "https://zlib.net")]
  deps := [("a", .str "https://m.example/zlib.git@1"), ("b", .map [("packages", .list [])]),
    ("c", .str "khronos@2"), ("d", .str "git@m.example/skia.main@3")]
  depsOs := []
  scope := []

theorem check_matches_mirrors :
    Dict.Ascending mirrors.deps ∧ (∀ text, ¬FirstUnpinned mirrors.deps text) ∧
      ∃ homeless unused,
        Lists (fun name => Depends mirrors.deps name ∧ name ∉ exempt ∧ ¬HasHome mirrors.vars name)
          homeless ∧
        Lists (fun name => HasHome mirrors.vars name ∧ ¬Depends mirrors.deps name) unused ∧
        ["skia has no 'upstream_skia' entry in vars; every dependency needs an upstream URL",
          "'upstream_icu' in vars has no matching dependency in deps"] =
            homeless.map missingEntry ++ unused.map missingDependency := by
  have hd : Dict.Ascending mirrors.deps := by
    unfold Dict.Ascending
    decide +kernel
  have hpinned : AllPinned mirrors.deps := by
    have hread : (mirrors.pinned.mapM Reference.parse).isOk = true := by decide +kernel
    cases h : mirrors.pinned.mapM Reference.parse with
    | error e =>
      rw [h] at hread
      cases hread
    | ok references => exact allPinned_iff.mpr (Reference.texts_of_mapM_parse h).2
  have hnone : ∀ text, ¬FirstUnpinned mirrors.deps text := by
    rintro text ⟨key, hmem, hnot, -⟩
    exact hnot (hpinned key text hmem)
  have houtcome : (check mirrors).outcome = .error (.inconsistent
      ["skia has no 'upstream_skia' entry in vars; every dependency needs an upstream URL",
        "'upstream_icu' in vars has no matching dependency in deps"]) := by
    decide +kernel
  obtain ⟨-, hmatch⟩ := check_matches mirrors hd
  obtain ⟨homeless, unused, hhomeless, hunused, he⟩ := (hmatch hnone).2 _ houtcome
  exact ⟨hd, hnone, homeless, unused, hhomeless, hunused, by simpa using he⟩

end PinnedDeps.Provenance
