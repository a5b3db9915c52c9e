import PinnedDeps.Storage.Disk
import PinnedDeps.Proofs.Path

/-! What a disk keeps when a file changes. Every operation touches one place, and never a directory,
so a path that leads somewhere by way of directories leads there afterwards too. `OnlyAt` is that
relation between two disks; paths, look-ups and the operations are told in its terms. -/

namespace PinnedDeps.Storage.Disk

variable {d d' d'' : Disk} {here next place other : Location} {p : Path} {name : String}

/-! ### Look-up after a change -/

theorem get?_of_ne_nil (h : place ≠ []) : d.get? place = d.nodes.lookup place := by
  cases place with
  | nil => exact absurd rfl h
  | cons => rfl

theorem lookup_filter_ne (nodes : List (Location × Node)) (place other : Location) :
    (nodes.filter fun entry => entry.1 ≠ place).lookup other =
      if other = place then none else nodes.lookup other := by
  induction nodes with
  | nil => simp
  | cons entry nodes ih =>
    obtain ⟨key, node⟩ := entry
    by_cases hk : key = place
    · rw [List.filter_cons_of_neg (by simpa using hk), ih]
      subst hk
      by_cases ho : other = key
      · simp [ho]
      · have hb : (other == key) = false := by simpa using ho
        simp [ho, List.lookup_cons, hb]
    · rw [List.filter_cons_of_pos (by simpa using hk), List.lookup_cons, List.lookup_cons, ih]
      by_cases ho : other = key
      · subst ho
        simp [hk]
      · have hb : (other == key) = false := by simpa using ho
        simp [hb]

theorem get?_erase_of_ne (h : other ≠ place) : (d.erase place).get? other = d.get? other := by
  by_cases ho : other = []
  · rw [ho]
    rfl
  · rw [get?_of_ne_nil ho, get?_of_ne_nil ho, erase, lookup_filter_ne, if_neg h]

theorem get?_erase_self (h : place ≠ []) : (d.erase place).get? place = none := by
  rw [get?_of_ne_nil h, erase, lookup_filter_ne, if_pos rfl]

theorem get?_set_self (h : place ≠ []) (node : Node) :
    (d.set place node).get? place = some node := by
  rw [get?_of_ne_nil h]
  simp [set]

theorem get?_set_of_ne (h : other ≠ place) (node : Node) :
    (d.set place node).get? other = d.get? other := by
  by_cases ho : other = []
  · rw [ho]
    rfl
  · have hb : (other == place) = false := by simpa using h
    have he : d.get? other = (d.erase place).nodes.lookup other := by
      rw [← get?_of_ne_nil ho, get?_erase_of_ne h]
    rw [he, get?_of_ne_nil ho]
    show ((place, node) :: (d.erase place).nodes).lookup other = (d.erase place).nodes.lookup other
    rw [List.lookup_cons, hb]

theorem isDirectory_iff : d.isDirectory place = true ↔ d.get? place = some .directory := by
  unfold isDirectory
  split <;> simp_all

theorem ne_nil_of_not_directory (h : d.isDirectory place = false) : place ≠ [] := by
  rintro rfl
  simp [isDirectory, get?] at h

theorem isDirectory_set_file (h : place ≠ []) (bytes : ByteArray) :
    (d.set place (.file bytes)).isDirectory place = false := by
  simp [isDirectory, get?_set_self h]

theorem isDirectory_erase (h : place ≠ []) : (d.erase place).isDirectory place = false := by
  simp [isDirectory, get?_erase_self h]

/-! ### A change over another -/

@[simp]
theorem erase_erase (d : Disk) (place : Location) :
    (d.erase place).erase place = d.erase place := by
  simp [erase]

@[simp]
theorem erase_set (d : Disk) (place : Location) (node : Node) :
    (d.set place node).erase place = d.erase place := by
  simp [set, erase]

@[simp]
theorem set_set (d : Disk) (place : Location) (node node' : Node) :
    (d.set place node).set place node' = d.set place node' := by
  simp [set, erase]

theorem erase_set_of_ne (h : place ≠ other) (node : Node) :
    (d.set place node).erase other = (d.erase other).set place node := by
  simp [set, erase, h, Bool.and_comm]

/-- The disk on which a file was written beside another one and then took its place. -/
def replaced (d : Disk) (beside place : Location) (bytes : ByteArray) : Disk :=
  (d.erase beside).set place (.file bytes)

/-- Writing the same file once more changes nothing at all. -/
theorem replaced_replaced (d : Disk) (beside place : Location) (bytes : ByteArray) :
    (d.replaced beside place bytes).replaced beside place bytes =
      d.replaced beside place bytes := by
  unfold replaced
  by_cases h : place = beside
  · rw [h, erase_set, erase_erase]
  · rw [erase_set_of_ne h, erase_erase, set_set]

/-! ### Disks that differ at one place -/

/-- The disks agree but for one place, at which neither has a directory. -/
structure OnlyAt (place : Location) (d d' : Disk) : Prop where
  cwd : d'.cwd = d.cwd
  get? : ∀ other, other ≠ place → d'.get? other = d.get? other
  before : d.isDirectory place = false
  after : d'.isDirectory place = false

namespace OnlyAt

theorem trans (h : OnlyAt place d d') (h' : OnlyAt place d' d'') : OnlyAt place d d'' where
  cwd := h'.cwd.trans h.cwd
  get? := fun other ho => (h'.get? other ho).trans (h.get? other ho)
  before := h.before
  after := h'.after

theorem symm (h : OnlyAt place d d') : OnlyAt place d' d where
  cwd := h.cwd.symm
  get? := fun other ho => (h.get? other ho).symm
  before := h.after
  after := h.before

theorem isDirectory (h : OnlyAt place d d') (other : Location) :
    d'.isDirectory other = d.isDirectory other := by
  by_cases ho : other = place
  · rw [ho, h.before, h.after]
  · rw [Disk.isDirectory, Disk.isDirectory, h.get? other ho]

theorem set_file (h : d.isDirectory place = false) (bytes : ByteArray) :
    OnlyAt place d (d.set place (.file bytes)) where
  cwd := rfl
  get? := fun _ ho => get?_set_of_ne ho _
  before := h
  after := isDirectory_set_file (ne_nil_of_not_directory h) bytes

theorem erase (h : d.isDirectory place = false) : OnlyAt place d (d.erase place) where
  cwd := rfl
  get? := fun _ ho => get?_erase_of_ne ho
  before := h
  after := isDirectory_erase (ne_nil_of_not_directory h)

end OnlyAt

theorem get?_replaced_of_ne {beside : Location} (h : other ≠ place) (h' : other ≠ beside)
    (bytes : ByteArray) : (d.replaced beside place bytes).get? other = d.get? other := by
  rw [replaced, get?_set_of_ne h, get?_erase_of_ne h']

/-! ### Walking over directories -/

theorem child_congr (h : d'.isDirectory here = d.isDirectory here) (name : String) :
    d'.child here name = d.child here name := by
  unfold child
  rw [h]

theorem isDirectory_of_child (h : d.child here name = .ok next) : d.isDirectory here = true := by
  unfold child at h
  split at h
  · cases h
  · simp_all

/-- Where one name leads, as a path is read without looking anything up. -/
def follow (here : Location) (name : String) : Location :=
  if name = "." then here else if name = ".." then here.dropLast else here ++ [name]

theorem follow_of_name (hdot : name ≠ ".") (hup : name ≠ "..") (here : Location) :
    follow here name = here ++ [name] := by
  rw [follow, if_neg hdot, if_neg hup]

theorem foldl_follow_dots {dots : List String} (h : ∀ name ∈ dots, name = ".") (here : Location) :
    dots.foldl follow here = here := by
  induction dots with
  | nil => rfl
  | cons name dots ih =>
    obtain ⟨rfl, hdots⟩ := List.forall_mem_cons.mp h
    exact ih hdots

theorem locate_eq (d : Disk) (p : Path) : d.locate p = p.steps.foldl follow (d.origin p) := rfl

theorem child_eq_ok (h : d.child here name = .ok next) : next = follow here name := by
  unfold child at h
  split at h
  · cases h
  · unfold follow
    split at h
    · next hd =>
      rw [if_pos hd]
      exact (Except.ok.inj h).symm
    · next hd =>
      rw [if_neg hd]
      split at h
      · next hdd =>
        rw [if_pos hdd]
        exact (Except.ok.inj h).symm
      · next hdd =>
        rw [if_neg hdd]
        split at h
        · cases h
        · exact (Except.ok.inj h).symm

theorem child_of_name (h : d.child here name = .ok next) (hd : name ≠ ".") (hdd : name ≠ "..") :
    next = here ++ [name] := by
  rw [child_eq_ok h, follow_of_name hd hdd]

theorem walk_cons_of_child {rest : List String} (h : d.child here name = .ok next)
    (hs : rest = [] ∨ (d.get? next).isSome = true) :
    d.walk here (name :: rest) = d.walk next rest := by
  rw [walk, h]
  rcases hs with rfl | hs
  · simp
  · have hn : (d.get? next).isNone = false := by simpa [Option.isSome_iff_ne_none] using hs
    simp [hn]

theorem walk_cons_eq_ok {rest : List String} (h : d.walk here (name :: rest) = .ok place) :
    ∃ next, d.child here name = .ok next ∧ (rest = [] ∨ (d.get? next).isSome = true) ∧
      d.walk next rest = .ok place := by
  rw [walk] at h
  cases hc : d.child here name with
  | error fault =>
    rw [hc] at h
    cases h
  | ok next =>
    rw [hc] at h
    by_cases hs : rest ≠ [] ∧ (d.get? next).isNone = true
    · simp [hs] at h
    · have hn : rest = [] ∨ (d.get? next).isSome = true := by
        by_cases hr : rest = []
        · exact .inl hr
        · refine .inr ?_
          rw [Option.isSome_iff_ne_none]
          simpa [hr] using hs
      simp only [if_neg hs] at h
      exact ⟨next, rfl, hn, h⟩

theorem walk_singleton (d : Disk) (here : Location) (name : String) :
    d.walk here [name] = d.child here name := by
  rw [walk]
  cases d.child here name with
  | error fault => rfl
  | ok next => simp [walk]

/-- Behind a directory that some names lead to, a walk goes on from there. -/
theorem walk_append {names : List String} (h : d.walk here names = .ok place)
    (hp : d.isDirectory place = true) (rest : List String) :
    d.walk here (names ++ rest) = d.walk place rest := by
  induction names generalizing here with
  | nil =>
    obtain rfl : here = place := Except.ok.inj h
    rfl
  | cons name names ih =>
    obtain ⟨next, hc, hs, hw⟩ := walk_cons_eq_ok h
    rw [List.cons_append, ← ih hw]
    apply walk_cons_of_child hc
    rcases hs with rfl | hs
    · obtain rfl : next = place := Except.ok.inj hw
      exact .inr (by rw [isDirectory_iff.mp hp]; rfl)
    · exact .inr hs

/-- What was reached by way of directories is reached wherever those are directories too. -/
theorem walk_of_directories {names : List String}
    (hd : ∀ place, d.isDirectory place = true → d'.isDirectory place = true)
    (h : d.walk here names = .ok place) : d'.walk here names = .ok place := by
  induction names generalizing here with
  | nil => exact h
  | cons name names ih =>
    obtain ⟨next, hc, -, hw⟩ := walk_cons_eq_ok h
    have hh : d.isDirectory here = true := isDirectory_of_child hc
    have hc' : d'.child here name = .ok next := by
      rw [child_congr ((hd here hh).trans hh.symm), hc]
    rw [walk_cons_of_child hc' ?_]
    · exact ih hw
    · -- a walk that goes on from `next` finds a directory there
      cases names with
      | nil => exact .inl rfl
      | cons following names =>
        obtain ⟨_, hn, -⟩ := walk_cons_eq_ok hw
        refine .inr ?_
        rw [isDirectory_iff.mp (hd next (isDirectory_of_child hn))]
        rfl

theorem walk_concat_eq_ok {names : List String} (h : d.walk here (names ++ [name]) = .ok place) :
    ∃ next, d.walk here names = .ok next ∧ d.child next name = .ok place := by
  induction names generalizing here with
  | nil => exact ⟨here, rfl, by rwa [← walk_singleton]⟩
  | cons first names ih =>
    obtain ⟨following, hc, hs, hw⟩ := walk_cons_eq_ok h
    obtain ⟨next, hnext, hlast⟩ := ih hw
    refine ⟨next, ?_, hlast⟩
    rw [walk_cons_of_child hc (.inr (hs.resolve_left (by simp)))]
    exact hnext

theorem walk_eq_ok {names : List String} (h : d.walk here names = .ok place) :
    place = names.foldl follow here := by
  induction names generalizing here with
  | nil => exact (Except.ok.inj h).symm
  | cons name names ih =>
    obtain ⟨next, hc, -, hw⟩ := walk_cons_eq_ok h
    rw [List.foldl_cons, ← child_eq_ok hc]
    exact ih hw

/-! ### Dots -/

theorem walk_dots {dots : List String} (h : ∀ step ∈ dots, step = ".")
    (hd : d.isDirectory here = true) : d.walk here dots = .ok here := by
  induction dots with
  | nil => rfl
  | cons step dots ih =>
    obtain rfl : step = "." := h step (by simp)
    have hc : d.child here "." = .ok here := by simp [child, hd]
    have hs : (d.get? here).isSome = true := by rw [isDirectory_iff.mp hd]; rfl
    rw [walk_cons_of_child hc (.inr hs)]
    exact ih fun other ho => h other (List.mem_cons_of_mem "." ho)

/-- Dots lead nowhere else, and all they ask is what stands there. -/
theorem walk_dots_congr {dots : List String} (h : ∀ step ∈ dots, step = ".")
    (hg : d'.get? here = d.get? here) : d'.walk here dots = d.walk here dots := by
  have hi : d'.isDirectory here = d.isDirectory here := by rw [isDirectory, isDirectory, hg]
  by_cases hd : d.isDirectory here = true
  · rw [walk_dots h hd, walk_dots h (hi.trans hd)]
  · cases dots with
    | nil => rfl
    | cons step dots =>
      have hc : d.child here step = .error .notDirectory := by simp [child, hd]
      rw [walk, walk, child_congr hi, hc]

theorem walk_dots_eq_ok {dots : List String} (h : ∀ step ∈ dots, step = ".")
    (hw : d.walk here dots = .ok place) : place = here := by
  cases dots with
  | nil => exact (Except.ok.inj hw).symm
  | cons step dots =>
    obtain ⟨_, hc, -⟩ := walk_cons_eq_ok hw
    rw [walk_dots h (isDirectory_of_child hc)] at hw
    exact (Except.ok.inj hw).symm

theorem walk_name_congr {dots : List String} (h : ∀ step ∈ dots, step = ".") (hdot : name ≠ ".")
    (hup : name ≠ "..") (hh : d'.get? here = d.get? here)
    (hg : d'.get? (here ++ [name]) = d.get? (here ++ [name])) :
    d'.walk here (name :: dots) = d.walk here (name :: dots) := by
  have hi : d'.isDirectory here = d.isDirectory here := by rw [isDirectory, isDirectory, hh]
  rw [walk, walk, child_congr hi]
  cases hc : d.child here name with
  | error fault => rfl
  | ok next =>
    obtain rfl : next = here ++ [name] := child_of_name hc hdot hup
    simp only [hg, walk_dots_congr h hg]

theorem walk_name_eq_ok {dots : List String} (h : ∀ step ∈ dots, step = ".") (hdot : name ≠ ".")
    (hup : name ≠ "..") (hw : d.walk here (name :: dots) = .ok place) : place = here ++ [name] := by
  obtain ⟨next, hc, -, hw⟩ := walk_cons_eq_ok hw
  rw [walk_dots_eq_ok h hw, child_of_name hc hdot hup]

/-! ### Where a path leads -/

theorem names_eq_ok {names : List String} (h : Disk.names p = .ok names) : names = p.steps := by
  unfold Disk.names at h
  split at h
  · cases h
  · split at h
    · cases h
    · split at h
      · cases h
      · exact (Except.ok.inj h).symm

theorem find_of_names (h : names p = .ok p.steps) :
    d.find p =
      match d.walk (d.origin p) (p.steps ++ if p.endsInSlash then ["."] else []) with
      | .error fault => .error fault
      | .ok place =>
        match d.get? place with
        | some node => .ok node
        | none => .error .notFound := by
  unfold find
  rw [h]
  cases hw : d.walk (d.origin p) (p.steps ++ if p.endsInSlash then ["."] else []) with
  | error fault => simp [bind, Except.bind, hw]
  | ok place =>
    cases hg : d.get? place <;>
      simp [bind, Except.bind, hw, hg, throw, throwThe, MonadExceptOf.throw, pure, Except.pure]

theorem find_of_names_error {fault : Fault} (h : names p = .error fault) :
    d.find p = .error fault := by
  unfold find
  rw [h]
  rfl

/-- The name that a path ends in, if it is one. -/
def lastName (names : List String) : Option String :=
  match names.getLast? with
  | none | some "." | some ".." => none
  | some name => some name

theorem lastName_eq_some {names : List String} (h : lastName names = some name) :
    names = names.dropLast ++ [name] ∧ name ≠ "." ∧ name ≠ ".." := by
  unfold lastName at h
  split at h
  · cases h
  · cases h
  · cases h
  · next last hd hdd hl =>
    obtain rfl : last = name := Option.some.inj h
    rw [List.getLast?_eq_some_iff] at hl
    obtain ⟨before, rfl⟩ := hl
    refine ⟨by simp, ?_, ?_⟩
    · rintro rfl
      exact hd rfl
    · rintro rfl
      exact hdd rfl

theorem lastName_concat (before : List String) (hdot : name ≠ ".") (hup : name ≠ "..") :
    lastName (before ++ [name]) = some name := by
  unfold lastName
  rw [List.getLast?_concat]
  split <;> simp_all

theorem directoryOf_of_names (h : names p = .ok p.steps) :
    d.directoryOf p =
      match d.walk (d.origin p) p.steps.dropLast with
      | .error fault => .error fault
      | .ok here =>
        if d.isDirectory here then .ok (here, lastName p.steps)
        else .error (if (d.get? here).isNone then .notFound else .notDirectory) := by
  unfold directoryOf
  rw [h]
  cases hw : d.walk (d.origin p) p.steps.dropLast with
  | error fault => simp [bind, Except.bind, hw]
  | ok here =>
    by_cases hd : d.isDirectory here = true
    · simp only [bind, Except.bind, hw, hd, lastName, Bool.not_true, Bool.false_eq_true, if_false,
        if_true]
      split <;> simp_all [pure, Except.pure]
    · simp [bind, Except.bind, hw, hd, throw, throwThe, MonadExceptOf.throw]

theorem directoryOf_eq_ok {name? : Option String} (h : d.directoryOf p = .ok (here, name?)) :
    names p = .ok p.steps ∧ d.walk (d.origin p) p.steps.dropLast = .ok here ∧
      d.isDirectory here = true ∧ name? = lastName p.steps := by
  cases hn : names p with
  | error fault =>
    unfold directoryOf at h
    rw [hn] at h
    cases h
  | ok names =>
    obtain rfl : names = p.steps := names_eq_ok hn
    rw [directoryOf_of_names hn] at h
    split at h
    · cases h
    · next place hw =>
      split at h
      · next hd =>
        obtain ⟨rfl, rfl⟩ := Prod.mk.inj (Except.ok.inj h)
        exact ⟨rfl, hw, hd, rfl⟩
      · cases h

theorem fileLocation_eq_ok (h : d.fileLocation p = .ok place) :
    ∃ here name, d.directoryOf p = .ok (here, some name) ∧ d.child here name = .ok place ∧
      p.endsInSlash = false ∧ d.isDirectory place = false := by
  unfold fileLocation at h
  cases hd : d.directoryOf p with
  | error fault =>
    rw [hd] at h
    cases h
  | ok found =>
    obtain ⟨here, name?⟩ := found
    rw [hd] at h
    cases name? with
    | none => cases h
    | some name =>
      cases hc : d.child here name with
      | error fault => simp [bind, Except.bind, hc] at h
      | ok next =>
        by_cases hs : p.endsInSlash = true ∨ d.isDirectory next = true
        · simp [bind, Except.bind, hc, hs, throw, throwThe, MonadExceptOf.throw] at h
        · simp only [bind, Except.bind, hc, if_neg hs] at h
          obtain rfl : next = place := Except.ok.inj h
          rw [not_or] at hs
          exact ⟨here, name, rfl, hc, by simpa using hs.1, by simpa using hs.2⟩

theorem fileLocation_of_directoryOf (hd : d.directoryOf p = .ok (here, some name))
    (hc : d.child here name = .ok place) (hs : p.endsInSlash = false)
    (hf : d.isDirectory place = false) : d.fileLocation p = .ok place := by
  unfold fileLocation
  rw [hd]
  simp [bind, Except.bind, hc, hs, hf, pure, Except.pure]

/-- A file's place, told by the names of its path. -/
theorem fileLocation_names (h : d.fileLocation p = .ok place) :
    ∃ here before name, p.steps = before ++ [name] ∧ name ≠ "." ∧ name ≠ ".." ∧
      names p = .ok p.steps ∧ d.walk (d.origin p) before = .ok here ∧
      d.isDirectory here = true ∧ d.child here name = .ok place ∧ place = here ++ [name] ∧
      p.endsInSlash = false := by
  obtain ⟨here, name, hd, hc, hs, -⟩ := fileLocation_eq_ok h
  obtain ⟨hn, hw, hh, hl⟩ := directoryOf_eq_ok hd
  obtain ⟨hb, hdot, hup⟩ := lastName_eq_some hl.symm
  exact ⟨here, p.steps.dropLast, name, hb, hdot, hup, hn, hw, hh, hc, child_of_name hc hdot hup, hs⟩

theorem locate_concat {before : List String} (h : p.steps = before ++ [name]) (hdot : name ≠ ".")
    (hup : name ≠ "..") (d : Disk) :
    d.locate p = before.foldl follow (d.origin p) ++ [name] := by
  rw [locate_eq, h, List.foldl_append, List.foldl_cons, follow_of_name hdot hup]
  rfl

theorem locate_of_fileLocation (h : d.fileLocation p = .ok place) : place = d.locate p := by
  obtain ⟨here, before, name, hb, hdot, hup, -, hw, -, -, rfl, -⟩ := fileLocation_names h
  rw [locate_concat hb hdot hup, walk_eq_ok hw]

/-- A walk over all names of a path comes to its place, also where a slash asks for a directory. -/
theorem locate_of_walk
    (h : d.walk (d.origin p) (p.steps ++ if p.endsInSlash then ["."] else []) = .ok place) :
    place = d.locate p := by
  have hdots : ∀ name ∈ if p.endsInSlash then ["."] else [], name = "." := by
    split <;> simp
  rw [walk_eq_ok h, List.foldl_append, foldl_follow_dots hdots, locate_eq]

theorem find_of_walk (hn : names p = .ok p.steps)
    (hw : d.walk (d.origin p) (p.steps ++ if p.endsInSlash then ["."] else []) = .ok place)
    {node : Node} (hg : d.get? place = some node) : d.find p = .ok node := by
  rw [find_of_names hn, hw]
  simp only [hg]

theorem find_of_fileLocation (h : d.fileLocation p = .ok place) {node : Node}
    (hg : d.get? place = some node) : d.find p = .ok node := by
  obtain ⟨here, before, name, hb, -, -, hn, hw, hh, hc, -, hs⟩ := fileLocation_names h
  have ha : d.walk (d.origin p) (p.steps ++ if p.endsInSlash then ["."] else []) = .ok place := by
    rw [hs, hb, if_neg (by simp), List.append_nil, walk_append hw hh, walk_singleton, hc]
  exact find_of_walk hn ha hg

/-- What is found at all is found by way of directories. -/
theorem find_eq_ok {node : Node} (h : d.find p = .ok node) :
    names p = .ok p.steps ∧
      d.walk (d.origin p) (p.steps ++ if p.endsInSlash then ["."] else []) = .ok (d.locate p) ∧
      d.get? (d.locate p) = some node := by
  cases hn : names p with
  | error fault =>
    rw [find_of_names_error hn] at h
    cases h
  | ok names =>
    obtain rfl : names = p.steps := names_eq_ok hn
    rw [find_of_names hn] at h
    cases hw : d.walk (d.origin p) (p.steps ++ if p.endsInSlash then ["."] else []) with
    | error fault =>
      rw [hw] at h
      cases h
    | ok place =>
      obtain rfl : place = d.locate p := locate_of_walk hw
      refine ⟨rfl, rfl, ?_⟩
      rw [hw] at h
      dsimp only at h
      cases hg : d.get? (d.locate p) with
      | none =>
        rw [hg] at h
        cases h
      | some found =>
        rw [hg] at h
        rw [Except.ok.inj h]

theorem read_eq_ok_iff {bytes : ByteArray} :
    d.read p = .ok bytes ↔ d.find p = .ok (.file bytes) := by
  unfold read
  cases hf : d.find p with
  | error fault => simp [bind, Except.bind]
  | ok node =>
    cases node <;> simp [bind, Except.bind, pure, Except.pure, throw, throwThe,
      MonadExceptOf.throw]

/-- A file can be written where one is read. -/
theorem fileLocation_of_read {before : List String} {bytes : ByteArray}
    (hsteps : p.steps = before ++ [name]) (hdot : name ≠ ".") (hup : name ≠ "..")
    (hslash : p.endsInSlash = false) (h : d.read p = .ok bytes) :
    d.fileLocation p = .ok (d.locate p) := by
  obtain ⟨hn, hw, hg⟩ := find_eq_ok (read_eq_ok_iff.mp h)
  rw [hslash, if_neg (by simp), List.append_nil, hsteps] at hw
  obtain ⟨here, hhere, hchild⟩ := walk_concat_eq_ok hw
  have hdirectory : d.directoryOf p = .ok (here, some name) := by
    rw [directoryOf_of_names hn, hsteps, List.dropLast_concat, hhere, lastName_concat _ hdot hup]
    exact if_pos (isDirectory_of_child hchild)
  refine fileLocation_of_directoryOf hdirectory hchild hslash ?_
  simp [isDirectory, hg]

/-! ### Operations -/

theorem create_eq_ok (h : d.create p = .ok d') :
    ∃ place, d.fileLocation p = .ok place ∧ d' = d.set place (.file .empty) := by
  unfold create at h
  cases hp : d.fileLocation p with
  | error fault =>
    rw [hp] at h
    cases h
  | ok place =>
    rw [hp] at h
    exact ⟨place, rfl, (Except.ok.inj h).symm⟩

theorem append_eq_ok {bytes : ByteArray} (h : d.append p bytes = .ok d') :
    ∃ place old, d.fileLocation p = .ok place ∧ d.get? place = some (.file old) ∧
      d' = d.set place (.file (old ++ bytes)) := by
  unfold append at h
  cases hp : d.fileLocation p with
  | error fault =>
    rw [hp] at h
    cases h
  | ok place =>
    simp only [hp, bind, Except.bind] at h
    split at h
    · next old hg => exact ⟨place, old, rfl, hg, (Except.ok.inj h).symm⟩
    · cases h

theorem remove_eq_ok (h : d.remove p = .ok d') :
    ∃ place, d.fileLocation p = .ok place ∧ d' = d.erase place := by
  unfold remove at h
  cases hp : d.fileLocation p with
  | error fault =>
    rw [hp] at h
    cases h
  | ok place =>
    simp only [hp, bind, Except.bind] at h
    split at h
    · exact ⟨place, rfl, (Except.ok.inj h).symm⟩
    · cases h

/-- A file that is moved was one, and comes to be where a file of the other path would be. -/
theorem rename_eq_ok {source target : Path} (hs : source.endsInSlash = false)
    (h : d.rename source target = .ok d') :
    ∃ old new bytes, d.fileLocation source = .ok old ∧ d.get? old = some (.file bytes) ∧
      d.fileLocation target = .ok new ∧ d' = (d.erase old).set new (.file bytes) := by
  unfold rename at h
  cases hd₁ : d.directoryOf source with
  | error fault => simp [hd₁, bind, Except.bind] at h
  | ok found₁ =>
  cases hd₂ : d.directoryOf target with
  | error fault => simp [hd₁, hd₂, bind, Except.bind] at h
  | ok found₂ =>
  obtain ⟨here₁, name₁⟩ := found₁
  obtain ⟨here₂, name₂⟩ := found₂
  simp only [hd₁, hd₂, bind, Except.bind] at h
  cases name₁ with
  | none => cases h
  | some name₁ =>
  cases name₂ with
  | none => cases h
  | some name₂ =>
  cases hc₁ : d.child here₁ name₁ with
  | error fault => simp [hc₁] at h
  | ok old =>
  cases hc₂ : d.child here₂ name₂ with
  | error fault => simp [hc₁, hc₂] at h
  | ok new =>
  simp only [hc₁, hc₂] at h
  cases hg : d.get? old with
  | none => simp [hg, throw, throwThe, MonadExceptOf.throw] at h
  | some node =>
  cases node with
  | directory => simp [hg, throw, throwThe, MonadExceptOf.throw] at h
  | file bytes =>
    simp only [hg] at h
    split at h
    · cases h
    · next ht =>
      split at h
      · cases h
      · next hn =>
        have hold : d.isDirectory old = false := by simp [isDirectory, hg]
        refine ⟨old, new, bytes, fileLocation_of_directoryOf hd₁ hc₁ hs hold, hg, ?_, ?_⟩
        · exact fileLocation_of_directoryOf hd₂ hc₂ (by simpa using ht) (by simpa using hn)
        · exact (Except.ok.inj h).symm

theorem create_of_fileLocation (h : d.fileLocation p = .ok place) :
    d.create p = .ok (d.set place (.file .empty)) := by
  rw [create, h]
  rfl

theorem append_of_fileLocation (h : d.fileLocation p = .ok place) {old : ByteArray}
    (hg : d.get? place = some (.file old)) (bytes : ByteArray) :
    d.append p bytes = .ok (d.set place (.file (old ++ bytes))) := by
  unfold append
  rw [h]
  simp [bind, Except.bind, hg, pure, Except.pure]

theorem rename_of_fileLocation {source target : Path} {old new : Location} {bytes : ByteArray}
    (hs : d.fileLocation source = .ok old) (hg : d.get? old = some (.file bytes))
    (ht : d.fileLocation target = .ok new) :
    d.rename source target = .ok ((d.erase old).set new (.file bytes)) := by
  obtain ⟨here, name, hd, hc, -, -⟩ := fileLocation_eq_ok hs
  obtain ⟨here', name', hd', hc', hslash, hn⟩ := fileLocation_eq_ok ht
  unfold rename
  rw [hd, hd']
  simp [bind, Except.bind, hc, hc', hg, hslash, hn, pure, Except.pure]

theorem not_isDirectory_of_fileLocation (h : d.fileLocation p = .ok place) :
    d.isDirectory place = false := by
  obtain ⟨_, _, -, -, -, hf⟩ := fileLocation_eq_ok h
  exact hf

theorem onlyAt_create (h : d.create p = .ok d') :
    ∃ place, d.fileLocation p = .ok place ∧ OnlyAt place d d' := by
  obtain ⟨place, hp, rfl⟩ := create_eq_ok h
  exact ⟨place, hp, .set_file (not_isDirectory_of_fileLocation hp) _⟩

theorem onlyAt_append {bytes : ByteArray} (h : d.append p bytes = .ok d') :
    ∃ place, d.fileLocation p = .ok place ∧ OnlyAt place d d' := by
  obtain ⟨place, old, hp, -, rfl⟩ := append_eq_ok h
  exact ⟨place, hp, .set_file (not_isDirectory_of_fileLocation hp) _⟩

theorem onlyAt_remove (h : d.remove p = .ok d') :
    ∃ place, d.fileLocation p = .ok place ∧ OnlyAt place d d' := by
  obtain ⟨place, hp, rfl⟩ := remove_eq_ok h
  exact ⟨place, hp, .erase (not_isDirectory_of_fileLocation hp)⟩

namespace OnlyAt

theorem origin (h : OnlyAt place d d') (p : Path) : d'.origin p = d.origin p := by
  rw [Disk.origin, Disk.origin, h.cwd]

theorem walk (h : OnlyAt place d d') {names : List String} (hw : d.walk here names = .ok next) :
    d'.walk here names = .ok next :=
  walk_of_directories (fun other ho => (h.isDirectory other).trans ho) hw

theorem directoryOf (h : OnlyAt place d d') {name? : Option String}
    (hd : d.directoryOf p = .ok (here, name?)) : d'.directoryOf p = .ok (here, name?) := by
  obtain ⟨hn, hw, hh, hl⟩ := directoryOf_eq_ok hd
  have hw' : d'.walk (d'.origin p) p.steps.dropLast = .ok here := by
    rw [h.origin]
    exact h.walk hw
  rw [directoryOf_of_names hn, hw']
  simp [h.isDirectory, hh, hl]

theorem fileLocation (h : OnlyAt place d d') {file : Location}
    (hf : d.fileLocation p = .ok file) : d'.fileLocation p = .ok file := by
  obtain ⟨here, name, hd, hc, hs, hn⟩ := fileLocation_eq_ok hf
  refine fileLocation_of_directoryOf (h.directoryOf hd) ?_ hs ((h.isDirectory file).trans hn)
  rw [child_congr (h.isDirectory here), hc]

theorem locate (h : OnlyAt place d d') (p : Path) : d'.locate p = d.locate p := by
  rw [locate_eq, locate_eq, h.origin]

/-- What is found elsewhere stays, and the way to it is the same. -/
theorem find (h : OnlyAt place d d') (hne : d.locate p ≠ place) {node : Node}
    (hf : d.find p = .ok node) : d'.find p = .ok node := by
  obtain ⟨hn, hw, hg⟩ := find_eq_ok hf
  have hw' := h.walk hw
  rw [← h.origin] at hw'
  exact find_of_walk hn hw' ((h.get? _ hne).trans hg)

/-- Elsewhere nothing is lost and nothing appears. -/
theorem find_eq_ok_iff (h : OnlyAt place d d') (hne : d.locate p ≠ place) {node : Node} :
    d'.find p = .ok node ↔ d.find p = .ok node := by
  refine ⟨?_, h.find hne⟩
  apply h.symm.find
  rwa [h.locate]

/-- What is at a path does not depend on the file beside it: on the way there are only directories,
and the last names differ. -/
theorem find_of_beside (h : OnlyAt place d d') (hp : d.fileLocation p.temporary = .ok place) :
    d'.find p = d.find p := by
  obtain ⟨here, before, last, hb, -, -, -, hw, hh, -, hplace, -⟩ := fileLocation_names hp
  have ho : d.origin p.temporary = d.origin p := by
    rw [Disk.origin, Disk.origin, Path.isAbsolute_temporary]
  rw [ho] at hw
  have hw' : d'.walk (d'.origin p) before = .ok here := by
    rw [h.origin]
    exact h.walk hw
  have hh' : d'.isDirectory here = true := (h.isDirectory here).trans hh
  have hg : d'.get? here = d.get? here := by
    rw [isDirectory_iff.mp hh, isDirectory_iff.mp hh']
  cases hn : names p with
  | error fault => rw [find_of_names_error hn, find_of_names_error hn]
  | ok names =>
    obtain rfl : names = p.steps := names_eq_ok hn
    rw [find_of_names hn, find_of_names hn]
    generalize htail : (if p.endsInSlash then ["."] else []) = tail
    have htail : ∀ step ∈ tail, step = "." := by
      rw [← htail]
      split <;> simp
    cases hs : p.split? with
    | none =>
      -- the path is that of the directory itself
      have hbefore : before = p.steps := by
        rw [Path.steps_temporary_of_none hs] at hb
        exact ((List.append_inj' hb rfl).1).symm
      subst hbefore
      rw [walk_append hw hh, walk_append hw' hh', walk_dots htail hh, walk_dots htail hh']
      simp [hg]
    | some split =>
      obtain ⟨dir, name⟩ := split
      obtain ⟨-, hk, hup, -, dots, dots', hsteps, hdots, hdots'⟩ := Path.endsIn_of_split hs
      rw [Path.steps_temporary_of_split hs] at hb
      obtain ⟨rfl, hlast⟩ := List.append_inj' hb rfl
      have hdot : name ≠ "." := Path.ne_dot_of_not_isSkipped hk
      have hne : here ++ [name] ≠ place := by
        rw [hplace, ← hlast]
        simpa using Path.ne_tmp name
      have hrest : ∀ step ∈ dots' ++ tail, step = "." := by
        intro step hm
        rcases List.mem_append.mp hm with hm | hm
        · exact hdots' step hm
        · exact htail step hm
      have hall : p.steps ++ tail = dir.steps ++ (dots ++ name :: (dots' ++ tail)) := by
        rw [hsteps]
        simp
      have hw₁ : d.walk (d.origin p) (p.steps ++ tail) = d.walk here (name :: (dots' ++ tail)) := by
        rw [hall, walk_append hw hh, walk_append (walk_dots hdots hh) hh]
      have hw₂ : d'.walk (d'.origin p) (p.steps ++ tail) =
          d.walk here (name :: (dots' ++ tail)) := by
        rw [hall, walk_append hw' hh', walk_append (walk_dots hdots hh') hh']
        exact walk_name_congr hrest hdot hup hg (h.get? _ hne)
      rw [hw₁, hw₂]
      cases hc : d.walk here (name :: (dots' ++ tail)) with
      | error fault => rfl
      | ok file =>
        obtain rfl : file = here ++ [name] := walk_name_eq_ok hrest hdot hup hc
        simp only [h.get? _ hne]

end OnlyAt

/-! ### A file written anew -/

variable {beside : Location} {q : Path}

theorem onlyAt_erase_of_fileLocation (h : d.fileLocation q = .ok beside) :
    OnlyAt beside d (d.erase beside) :=
  .erase (not_isDirectory_of_fileLocation h)

theorem onlyAt_replaced (h : d.fileLocation q = .ok beside) (hp : d.fileLocation p = .ok place)
    (bytes : ByteArray) : OnlyAt place (d.erase beside) (d.replaced beside place bytes) :=
  .set_file (not_isDirectory_of_fileLocation ((onlyAt_erase_of_fileLocation h).fileLocation hp)) _

/-- Files are where they were, or would be. -/
theorem fileLocation_replaced (h : d.fileLocation q = .ok beside)
    (hp : d.fileLocation p = .ok place) (bytes : ByteArray) {p' : Path} {file : Location}
    (hf : d.fileLocation p' = .ok file) :
    (d.replaced beside place bytes).fileLocation p' = .ok file :=
  (onlyAt_replaced h hp bytes).fileLocation ((onlyAt_erase_of_fileLocation h).fileLocation hf)

theorem read_replaced_self (h : d.fileLocation q = .ok beside) (hp : d.fileLocation p = .ok place)
    (bytes : ByteArray) : (d.replaced beside place bytes).read p = .ok bytes := by
  have hplace := fileLocation_replaced h hp bytes hp
  have hnil := ne_nil_of_not_directory (not_isDirectory_of_fileLocation hp)
  rw [read, find_of_fileLocation hplace (get?_set_self hnil _)]
  rfl

/-- What is found at other places is not touched. -/
theorem find_replaced_eq_ok_iff (h : d.fileLocation q = .ok beside)
    (hp : d.fileLocation p = .ok place) (bytes : ByteArray) {p' : Path} {node : Node}
    (hplace : d.locate p' ≠ place) (hbeside : d.locate p' ≠ beside) :
    (d.replaced beside place bytes).find p' = .ok node ↔ d.find p' = .ok node :=
  ((onlyAt_replaced h hp bytes).find_eq_ok_iff hplace).trans
    ((onlyAt_erase_of_fileLocation h).find_eq_ok_iff hbeside)

end PinnedDeps.Storage.Disk
