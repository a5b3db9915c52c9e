import PinnedDeps.Path
import PinnedDeps.Proofs.Text.Pieces

/-! Where the file beside another one stands. Splitting a path and joining its pieces again changes
only how it is written: the names on the way are the same, but for dots between them and at the
end. So the file beside a path has the names of its directory and, last, a name of its own. -/

namespace PinnedDeps

namespace Path

variable {p dir : Path} {name : String}

/-! ### Parts -/

theorem parts_ne_nil (p : Path) : p.parts ≠ [] := by
  simp [parts, Text.pieces_eq_splitOn, List.splitOn_ne_nil]

theorem parts_of_no_slash {text : String} (h : '/' ∉ text.toList) : parts ⟨text⟩ = [text] := by
  simp [parts, Text.pieces_eq_splitOn, List.splitOn_eq_singleton h]

theorem parts_empty : parts ⟨""⟩ = [""] := rfl

theorem parts_append_slash (a b : String) : parts ⟨a ++ "/" ++ b⟩ = parts ⟨a⟩ ++ parts ⟨b⟩ := by
  have ht : (a ++ "/" ++ b).toList = a.toList ++ '/' :: b.toList := by simp
  rw [parts, ht, Text.pieces_eq_splitOn, List.splitOn_append_cons_self, List.map_append]
  simp only [parts, Text.pieces_eq_splitOn]

theorem no_slash_of_mem_parts {part : String} (h : part ∈ p.parts) : '/' ∉ part.toList := by
  rw [parts, List.mem_map] at h
  obtain ⟨piece, hp, rfl⟩ := h
  rw [String.toList_ofList]
  exact Text.not_mem_of_mem_piecesOnto List.not_mem_nil hp

theorem parts_intercalate {parts : List String} (h : ∀ part ∈ parts, '/' ∉ part.toList)
    (hn : parts ≠ []) : Path.parts ⟨"/".intercalate parts⟩ = parts := by
  induction parts with
  | nil => exact absurd rfl hn
  | cons part rest ih =>
    have hp : '/' ∉ part.toList := h part (by simp)
    by_cases hr : rest = []
    · subst hr
      rw [String.intercalate_singleton, parts_of_no_slash hp]
    · rw [String.intercalate_cons_of_ne_nil hr, parts_append_slash, parts_of_no_slash hp,
        ih (fun other ho => h other (List.mem_cons_of_mem part ho)) hr]
      rfl

theorem intercalate_parts (p : Path) : "/".intercalate p.parts = p.text := by
  rw [← String.toList_inj, String.toList_intercalate, parts, Text.pieces_eq_splitOn]
  have hm : List.map String.toList (List.map String.ofList (p.text.toList.splitOn '/')) =
      p.text.toList.splitOn '/' := by simp [Function.comp_def]
  rw [hm]
  exact List.intercalate_splitOn '/'

theorem isAbsolute_iff : p.isAbsolute = true ↔ ∃ part rest, p.parts = "" :: part :: rest := by
  constructor
  · intro h
    obtain ⟨text⟩ := p
    rw [isAbsolute, decide_eq_true_iff, List.head?_eq_some_iff] at h
    obtain ⟨cs, hcs⟩ := h
    have ht : text = "" ++ "/" ++ String.ofList cs := by
      rw [← String.toList_inj, hcs]
      simp
    obtain ⟨part, rest, hr⟩ := List.exists_cons_of_ne_nil (parts_ne_nil ⟨String.ofList cs⟩)
    refine ⟨part, rest, ?_⟩
    rw [ht, parts_append_slash, parts_of_no_slash (by simp), hr]
    rfl
  · rintro ⟨part, rest, h⟩
    have ht : p.text = "" ++ "/" ++ "/".intercalate (part :: rest) := by
      rw [← intercalate_parts, h, String.intercalate_cons_of_ne_nil (by simp)]
    simp [isAbsolute, ht]

theorem isAbsolute_iff_of_parts {first : String} {rest : List String}
    (hp : p.parts = first :: rest) (hr : rest ≠ []) : p.isAbsolute = true ↔ first = "" := by
  obtain ⟨part, others, rfl⟩ := List.exists_cons_of_ne_nil hr
  rw [isAbsolute_iff, hp]
  constructor
  · rintro ⟨_, _, h⟩
    exact (List.cons.inj h).1
  · rintro rfl
    exact ⟨part, others, rfl⟩

/-! ### Names on the way -/

/-- The parts that lead somewhere, dots among them. -/
def steps (p : Path) : List String := p.parts.filter (· ≠ "")

theorem exists_of_endsInSlash (h : p.endsInSlash = true) : ∃ text, p = ⟨text ++ "/"⟩ := by
  obtain ⟨text⟩ := p
  rw [endsInSlash, decide_eq_true_iff, List.getLast?_eq_some_iff] at h
  obtain ⟨cs, hcs⟩ := h
  refine ⟨String.ofList cs, ?_⟩
  rw [mk.injEq, ← String.toList_inj, hcs]
  simp

theorem not_isAbsolute_of_no_slash {text : String} (h : '/' ∉ text.toList) :
    isAbsolute ⟨text⟩ = false := by
  rw [isAbsolute, decide_eq_false_iff_not, List.head?_eq_some_iff]
  rintro ⟨cs, hcs⟩
  simp [hcs] at h

/-- A name put behind a path is the last of its steps. -/
theorem steps_join (p : Path) (hn : '/' ∉ name.toList) (he : name ≠ "") :
    (p.join ⟨name⟩).steps = p.steps ++ [name] := by
  have ha : isAbsolute ⟨name⟩ = false := not_isAbsolute_of_no_slash hn
  have hs : [name].filter (· ≠ "") = [name] := by simp [he]
  by_cases ht : p.text = ""
  · obtain ⟨text⟩ := p
    obtain rfl : text = "" := ht
    have hj : join ⟨""⟩ ⟨name⟩ = ⟨name⟩ := by simp [join, ha]
    rw [hj, steps, steps, parts_of_no_slash hn, parts_empty, hs]
    rfl
  · by_cases hl : p.endsInSlash = true
    · obtain ⟨text, rfl⟩ := exists_of_endsInSlash hl
      have hj : join ⟨text ++ "/"⟩ ⟨name⟩ = ⟨text ++ "/" ++ name⟩ := by simp [join, ha, hl]
      have hp : parts ⟨text ++ "/"⟩ = parts ⟨text⟩ ++ [""] := by
        rw [← parts_empty, ← parts_append_slash, String.append_empty]
      rw [hj, steps, steps, parts_append_slash, parts_of_no_slash hn, hp, List.filter_append,
        List.filter_append, hs]
      simp
    · have hj : p.join ⟨name⟩ = ⟨p.text ++ "/" ++ name⟩ := by simp [join, ha, ht, hl]
      rw [hj, steps, steps, parts_append_slash, parts_of_no_slash hn, List.filter_append, hs]

theorem isAbsolute_join (p : Path) (hn : '/' ∉ name.toList) :
    (p.join ⟨name⟩).isAbsolute = p.isAbsolute := by
  have ha : isAbsolute ⟨name⟩ = false := not_isAbsolute_of_no_slash hn
  by_cases ht : p.text = ""
  · have hj : p.join ⟨name⟩ = ⟨name⟩ := by simp [join, ha, ht]
    rw [hj, ha, isAbsolute, ht]
    rfl
  · have hc : p.text.toList ≠ [] := by simpa using ht
    obtain ⟨c, cs, hcs⟩ := List.exists_cons_of_ne_nil hc
    rw [join, if_neg (by simp [ha])]
    split <;> simp [isAbsolute, hcs]

theorem isAbsolute_join_of_isAbsolute (h : p.isAbsolute = true) (q : Path) :
    (p.join q).isAbsolute = true := by
  rw [isAbsolute, decide_eq_true_iff, List.head?_eq_some_iff] at h
  obtain ⟨cs, hcs⟩ := h
  rw [join]
  split
  · assumption
  · split <;> simp [isAbsolute, hcs]

theorem isAbsolute_resolveAgainst (h : dir.isAbsolute = true) (q : Path) :
    (dir.resolveAgainst q).isAbsolute = true := by
  rw [resolveAgainst]
  split
  · assumption
  · exact isAbsolute_join_of_isAbsolute h q

/-- An absolute path is the same from everywhere. -/
theorem resolveAgainst_of_isAbsolute (h : p.isAbsolute = true) (dir : Path) :
    dir.resolveAgainst p = p := if_pos h

theorem text_join (p q : Path) : ∃ text, (p.join q).text = text ++ q.text := by
  rw [join]
  split
  · exact ⟨"", by simp⟩
  · split
    · exact ⟨p.text, rfl⟩
    · exact ⟨p.text ++ "/", rfl⟩

/-! ### The last name -/

theorem exists_trimmed (parts : List String) :
    ∃ skipped, parts = trimmed parts ++ skipped ∧ ∀ part ∈ skipped, isSkipped part = true := by
  refine ⟨(parts.reverse.takeWhile isSkipped).reverse, ?_, ?_⟩
  · rw [trimmed, ← List.reverse_append, List.takeWhile_append_dropWhile, List.reverse_reverse]
  · intro part h
    rw [List.mem_reverse] at h
    exact List.mem_takeWhile_imp h

theorem not_isSkipped_of_trimmed {parts before : List String}
    (h : trimmed parts = before ++ [name]) : isSkipped name = false := by
  rw [trimmed, List.reverse_eq_iff, List.reverse_append] at h
  have hd := List.head?_dropWhile_not isSkipped parts.reverse
  rw [h] at hd
  simpa using hd

theorem ne_empty_of_not_isSkipped (h : isSkipped name = false) : name ≠ "" := by
  rintro rfl
  simp [isSkipped] at h

theorem filter_skipped {parts : List String} (h : ∀ part ∈ parts, isSkipped part = true) :
    ∀ step ∈ parts.filter (· ≠ ""), step = "." := by
  intro step hs
  rw [List.mem_filter] at hs
  have hk := h step hs.1
  simpa [isSkipped, show step ≠ "" by simpa using hs.2] using hk

theorem ne_dot_of_not_isSkipped (h : isSkipped name = false) : name ≠ "." := by
  rintro rfl
  simp [isSkipped] at h

/-- What splitting a path says about its names: only dots stand around the last one. -/
structure EndsIn (p dir : Path) (name : String) : Prop where
  no_slash : '/' ∉ name.toList
  not_skipped : isSkipped name = false
  not_up : name ≠ ".."
  isAbsolute : dir.isAbsolute = p.isAbsolute
  steps : ∃ dots dots', p.steps = dir.steps ++ dots ++ name :: dots' ∧
    (∀ step ∈ dots, step = ".") ∧ ∀ step ∈ dots', step = "."

/-- A path of one part, apart from parts that name nothing. -/
theorem endsIn_of_first {first : String} {rest : List String} (hp : p.parts = first :: rest)
    (hr : trimmed rest = []) (hs : isSkipped first = false) (hu : first ≠ "..") :
    EndsIn p ⟨""⟩ first where
  no_slash := no_slash_of_mem_parts (p := p) (by simp [hp])
  not_skipped := hs
  not_up := hu
  isAbsolute := by
    have ha : p.isAbsolute = false := by
      rw [← Bool.not_eq_true, isAbsolute_iff, hp]
      rintro ⟨part, others, h⟩
      exact ne_empty_of_not_isSkipped hs (List.cons.inj h).1
    rw [ha]
    rfl
  steps := by
    obtain ⟨skipped, ht, hk⟩ := exists_trimmed rest
    rw [hr, List.nil_append] at ht
    have he : first ≠ "" := ne_empty_of_not_isSkipped hs
    refine ⟨[], skipped.filter (· ≠ ""), ?_, by simp, filter_skipped hk⟩
    rw [Path.steps, Path.steps, hp, ht, List.filter_cons_of_pos (by simpa using he)]
    rfl

/-- The last part that is not skipped, and what is skipped around it. -/
theorem exists_parts_of_last {first : String} {rest before : List String}
    (hp : p.parts = first :: rest) (hr : (trimmed rest).reverse = name :: before) :
    ∃ skipped skipped', p.parts = first :: trimmed before.reverse ++ skipped' ++ name :: skipped ∧
      (∀ part ∈ skipped, isSkipped part = true) ∧ (∀ part ∈ skipped', isSkipped part = true) ∧
      isSkipped name = false := by
  obtain ⟨skipped, ht, hk⟩ := exists_trimmed rest
  obtain ⟨skipped', hb, hk'⟩ := exists_trimmed before.reverse
  have hl : trimmed rest = before.reverse ++ [name] := by
    rw [List.reverse_eq_iff] at hr
    simpa using hr
  refine ⟨skipped, skipped', ?_, hk, hk', not_isSkipped_of_trimmed hl⟩
  calc p.parts
    _ = first :: (before.reverse ++ [name] ++ skipped) := by rw [hp, ht, hl]
    _ = first :: (trimmed before.reverse ++ skipped' ++ [name] ++ skipped) := by rw [← hb]
    _ = first :: trimmed before.reverse ++ skipped' ++ name :: skipped := by simp

/-- A directory put together from parts. The root alone is a slash. -/
theorem steps_of_directory {first : String} {parts : List String}
    (h : ∀ part ∈ first :: parts, '/' ∉ part.toList) :
    Path.steps ⟨if first :: parts = [""] then "/" else "/".intercalate (first :: parts)⟩ =
      (first :: parts).filter (· ≠ "") := by
  by_cases hroot : first :: parts = [""]
  · rw [if_pos hroot, hroot]
    rfl
  · rw [if_neg hroot, Path.steps, parts_intercalate h (by simp)]

theorem isAbsolute_of_directory {first : String} {parts : List String}
    (h : ∀ part ∈ first :: parts, '/' ∉ part.toList) :
    Path.isAbsolute ⟨if first :: parts = [""] then "/" else "/".intercalate (first :: parts)⟩ =
      true ↔ first = "" := by
  by_cases hroot : first :: parts = [""]
  · rw [if_pos hroot]
    simp [(List.cons.inj hroot).1, isAbsolute]
  · rw [if_neg hroot, isAbsolute_iff, parts_intercalate h (by simp)]
    constructor
    · rintro ⟨_, _, hcons⟩
      exact (List.cons.inj hcons).1
    · rintro rfl
      have hne : parts ≠ [] := fun hnil => hroot (by rw [hnil])
      obtain ⟨part, others, ho⟩ := List.exists_cons_of_ne_nil hne
      exact ⟨part, others, by rw [ho]⟩

theorem endsIn_of_last {first name : String} {rest before : List String}
    (hp : p.parts = first :: rest) (hr : (trimmed rest).reverse = name :: before)
    (hu : name ≠ "..") :
    EndsIn p
      ⟨if first :: trimmed before.reverse = [""] then "/"
        else "/".intercalate (first :: trimmed before.reverse)⟩ name := by
  obtain ⟨skipped, skipped', hparts, hk, hk', hs⟩ := exists_parts_of_last hp hr
  have hslash : ∀ part ∈ first :: trimmed before.reverse, '/' ∉ part.toList := by
    intro part h
    refine no_slash_of_mem_parts (p := p) ?_
    rw [hparts]
    exact List.mem_append_left _ (List.mem_append_left _ h)
  refine ⟨no_slash_of_mem_parts (p := p) (by simp [hparts]), hs, hu, ?_,
    skipped'.filter (· ≠ ""), skipped.filter (· ≠ ""), ?_, filter_skipped hk', filter_skipped hk⟩
  · have hrest : rest ≠ [] := by
      rintro rfl
      simp [trimmed] at hr
    rw [Bool.eq_iff_iff, isAbsolute_iff_of_parts hp hrest, isAbsolute_of_directory hslash]
  · have hname : (name :: skipped).filter (· ≠ "") = name :: skipped.filter (· ≠ "") :=
      List.filter_cons_of_pos (by simpa using ne_empty_of_not_isSkipped hs)
    rw [steps_of_directory hslash, Path.steps, hparts, List.filter_append, List.filter_append,
      hname]

theorem endsIn_of_split (h : p.split? = some (dir, name)) : EndsIn p dir name := by
  obtain ⟨first, rest, hp⟩ := List.exists_cons_of_ne_nil (parts_ne_nil p)
  rw [split?, hp] at h
  cases hr : (trimmed rest).reverse with
  | nil =>
    simp only [hr] at h
    split at h
    · cases h
    · next hc =>
      obtain ⟨rfl, rfl⟩ : (⟨""⟩ : Path) = dir ∧ first = name := by simpa using h
      rw [not_or] at hc
      exact endsIn_of_first hp (by simpa using hr) (by simpa using hc.1) hc.2
  | cons last before =>
    simp only [hr] at h
    split at h
    · cases h
    · next hu =>
      rw [Option.some.injEq, Prod.mk.injEq] at h
      obtain ⟨rfl, rfl⟩ := h
      exact endsIn_of_last hp hr hu

/-! ### The file beside -/

theorem no_slash_tmp (hn : '/' ∉ name.toList) : '/' ∉ (name ++ ".tmp").toList := by
  simpa using hn

theorem ne_empty_tmp (name : String) : name ++ ".tmp" ≠ "" := by
  intro h
  rw [← String.toList_inj, String.toList_append] at h
  simp at h

theorem ne_tmp (name : String) : name ≠ name ++ ".tmp" := by
  intro h
  rw [← String.toList_inj, String.toList_append] at h
  simp at h

theorem tmp_ne_dot (name : String) : name ++ ".tmp" ≠ "." := by
  intro h
  have hlast := congrArg (·.toList.getLast?) h
  simp at hlast

theorem tmp_ne_up (name : String) : name ++ ".tmp" ≠ ".." := by
  intro h
  have hlast := congrArg (·.toList.getLast?) h
  simp at hlast

theorem temporary_of_split (h : p.split? = some (dir, name)) :
    p.temporary = dir.join ⟨name ++ ".tmp"⟩ := by
  simp [temporary, withLastName, h]

theorem temporary_of_none (h : p.split? = none) : p.temporary = p.join ⟨".tmp"⟩ := by
  simp [temporary, withLastName, h]

theorem steps_temporary_of_split (h : p.split? = some (dir, name)) :
    p.temporary.steps = dir.steps ++ [name ++ ".tmp"] := by
  rw [temporary_of_split h]
  exact steps_join dir (no_slash_tmp (endsIn_of_split h).no_slash) (ne_empty_tmp name)

theorem steps_temporary_of_none (h : p.split? = none) :
    p.temporary.steps = p.steps ++ [".tmp"] := by
  rw [temporary_of_none h]
  exact steps_join p (by simp) (by simp)

/-- The last name of the file beside, of which every path has one. -/
theorem exists_steps_temporary (p : Path) :
    ∃ before name, p.temporary.steps = before ++ [name ++ ".tmp"] := by
  cases h : p.split? with
  | none => exact ⟨p.steps, "", steps_temporary_of_none h⟩
  | some split =>
    obtain ⟨dir, name⟩ := split
    exact ⟨dir.steps, name, steps_temporary_of_split h⟩

theorem isAbsolute_temporary (p : Path) : p.temporary.isAbsolute = p.isAbsolute := by
  cases h : p.split? with
  | none => rw [temporary_of_none h, isAbsolute_join p (by simp)]
  | some split =>
    obtain ⟨dir, name⟩ := split
    have he : EndsIn p dir name := endsIn_of_split h
    rw [temporary_of_split h, isAbsolute_join dir (no_slash_tmp he.no_slash), he.isAbsolute]

theorem endsInSlash_temporary (p : Path) : p.temporary.endsInSlash = false := by
  have ht : ∃ text, p.temporary.text = text ++ ".tmp" := by
    cases h : p.split? with
    | none =>
      rw [temporary_of_none h]
      exact text_join p ⟨".tmp"⟩
    | some split =>
      obtain ⟨dir, name⟩ := split
      obtain ⟨text, ht⟩ := text_join dir ⟨name ++ ".tmp"⟩
      exact ⟨text ++ name, by rw [temporary_of_split h, ht, String.append_assoc]⟩
  obtain ⟨text, ht⟩ := ht
  have hl : (text ++ ".tmp").toList.getLast? = some 'p' := by
    rw [String.toList_append, List.getLast?_append]
    rfl
  rw [endsInSlash, ht, hl]
  rfl

end Path

end PinnedDeps
