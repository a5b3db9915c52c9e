import PinnedDeps.Proofs.Evaluation
import Mathlib.Data.List.Induction

/-! What a program assigns, told statement by statement. A history lists the statements run so far
with their values. The scope of the run binds each name as the history last did, and the targets
that take mappings are bound to mappings only; so the variables seen by a statement are those of the
last `vars` before it, and setting the three targets apart in the end loses nothing. -/

namespace PinnedDeps.Evaluation

variable {platform : Platform} {name : String} {s : Statement} {value : Value}
  {scope scope' d : Dict Value}

/-! ### Histories -/

/-- Statements that were run, in order, each with its value. -/
abbrev History := List (Statement × Value)

/-- The value last given to a name. -/
def History.last? (h : History) (name : String) : Option Value :=
  (h.reverse.find? fun entry => entry.1.target = name).map Prod.snd

/-- The mapping last given to a name; the empty one if the name was given nothing. -/
def History.Binds (h : History) (name : String) (d : Dict Value) : Prop :=
  h.last? name = some (.map d) ∨ h.last? name = none ∧ d = []

def Takes (target : String) (value : Value) : Prop :=
  target ∈ mappingNames → ∃ d, value = .map d

/-- Behind the history, the statement has the value, and its target takes it. -/
def Passes (platform : Platform) (h : History) (s : Statement) (value : Value) : Prop :=
  ∃ vars, h.Binds "vars" vars ∧ Evaluates platform vars s.value (.ok value) ∧
    Takes s.target value

/-- Behind the history, the statement stops the run: its value cannot be had, or not be taken. -/
def Fails (platform : Platform) (h : History) (s : Statement) (e : EvalError) : Prop :=
  ∃ vars, h.Binds "vars" vars ∧
    (Evaluates platform vars s.value (.error e) ∨
      ∃ value, Evaluates platform vars s.value (.ok value) ∧ ¬Takes s.target value ∧
        e = .malformed ⟨s.pos, .notAMapping s.target value.kind⟩)

/-- Each statement passes behind those before it. -/
def History.Valid (platform : Platform) (h : History) : Prop :=
  ∀ before s value after, h = before ++ (s, value) :: after → Passes platform before s value

/-- The file holds what the history last gave to each name, the three special ones set apart. -/
structure Describes (h : History) (file : DepsFile) : Prop where
  vars : h.Binds "vars" file.vars
  deps : h.Binds "deps" file.deps
  depsOs : h.Binds "deps_os" file.depsOs
  ascending : Dict.Ascending file.scope
  scope : ∀ name, Dict.get? file.scope name =
    if name ∈ mappingNames then none else h.last? name

variable {h : History}

theorem last?_append_singleton (h : History) (s : Statement) (value : Value) (name : String) :
    History.last? (h ++ [(s, value)]) name =
      if name = s.target then some value else h.last? name := by
  unfold History.last?
  rw [List.reverse_append, List.reverse_singleton, List.singleton_append, List.find?_cons]
  by_cases hn : name = s.target
  · simp [hn]
  · rw [if_neg hn]
    simp [Ne.symm hn]

theorem valid_nil (platform : Platform) : History.Valid platform [] := by
  intro before s value after h
  simp at h

theorem History.Valid.append (hv : h.Valid platform) (hp : Passes platform h s value) :
    History.Valid platform (h ++ [(s, value)]) := by
  intro before s' value' after heq
  rcases List.eq_nil_or_concat after with rfl | ⟨after', last, rfl⟩
  · obtain ⟨rfl, hlast⟩ := List.append_inj' heq rfl
    obtain ⟨rfl, rfl⟩ : s = s' ∧ value = value' := by simpa using hlast
    exact hp
  · have heq' : h ++ [(s, value)] = before ++ (s', value') :: after' ++ [last] := by simpa using heq
    exact hv before s' value' after' (List.append_inj' heq' rfl).1

theorem History.Valid.of_append {more : History} (hv : History.Valid platform (h ++ more)) :
    h.Valid platform := by
  intro before s value after heq
  refine hv before s value (after ++ more) ?_
  rw [heq]
  simp

/-- In a valid history, a name that takes mappings only was last given one, if anything. -/
theorem History.Valid.exists_mapping (hv : h.Valid platform) (hn : name ∈ mappingNames)
    (hl : h.last? name = some value) : ∃ d, value = .map d := by
  induction h using List.reverseRecOn with
  | nil => cases hl
  | append_singleton h last ih =>
    obtain ⟨s, v⟩ := last
    rw [last?_append_singleton] at hl
    split at hl
    · next heq =>
      obtain rfl := Option.some.inj hl
      obtain ⟨_, -, -, ht⟩ := hv h s v [] rfl
      exact ht (heq ▸ hn)
    · exact ih hv.of_append hl

theorem History.Valid.exists_binds (hv : h.Valid platform) (hn : name ∈ mappingNames) :
    ∃ d, h.Binds name d := by
  cases hl : h.last? name with
  | none => exact ⟨[], .inr ⟨hl, rfl⟩⟩
  | some value =>
    obtain ⟨d, rfl⟩ := hv.exists_mapping hn hl
    exact ⟨d, .inl hl⟩

theorem binds_unique {d' : Dict Value} (hd : h.Binds name d) (hd' : h.Binds name d') : d = d' := by
  rcases hd with hd | ⟨hd, rfl⟩ <;> rcases hd' with hd' | ⟨hd', rfl⟩
  · rw [hd] at hd'
    simpa using hd'
  · rw [hd] at hd'
    cases hd'
  · rw [hd] at hd'
    cases hd'
  · rfl

theorem describes_unique {file file' : DepsFile} (hd : Describes h file)
    (hd' : Describes h file') : file = file' := by
  obtain ⟨vars, deps, depsOs, scope⟩ := file
  obtain ⟨vars', deps', depsOs', scope'⟩ := file'
  obtain rfl : vars = vars' := binds_unique hd.vars hd'.vars
  obtain rfl : deps = deps' := binds_unique hd.deps hd'.deps
  obtain rfl : depsOs = depsOs' := binds_unique hd.depsOs hd'.depsOs
  obtain rfl : scope = scope' :=
    hd.ascending.ext hd'.ascending fun name => by rw [hd.scope, hd'.scope]
  rfl

/-! ### The scope of a run -/

/-- The scope binds each name to the value that the history last gave it. -/
structure Mirrors (h : History) (scope : Dict Value) : Prop where
  ascending : Dict.Ascending scope
  get? : ∀ name, Dict.get? scope name = h.last? name

theorem mirrors_nil : Mirrors [] [] := ⟨Dict.ascending_nil, fun _ => rfl⟩

theorem Mirrors.insert (hm : Mirrors h scope) (s : Statement) (value : Value) :
    Mirrors (h ++ [(s, value)]) (Dict.insert s.target value scope) where
  ascending := Dict.ascending_insert hm.ascending s.target value
  get? := fun name => by rw [Dict.get?_insert, last?_append_singleton, hm.get?]

/-- The mapping that a scope is read for is the one the history gave: the fallback for a value of
another kind is never taken. -/
theorem Mirrors.binds_mappingOf (hm : Mirrors h scope) (hv : h.Valid platform)
    (hn : name ∈ mappingNames) : h.Binds name (mappingOf scope name) := by
  unfold mappingOf
  rw [hm.get?]
  cases hl : h.last? name with
  | none => exact .inr ⟨hl, rfl⟩
  | some value =>
    obtain ⟨d, rfl⟩ := hv.exists_mapping hn hl
    exact .inl hl

theorem Mirrors.varsOf_eq (hm : Mirrors h scope) (hv : h.Valid platform) {vars : Dict Value}
    (hb : h.Binds "vars" vars) : varsOf scope = vars :=
  binds_unique (hm.binds_mappingOf hv (by decide)) hb

theorem Mirrors.describes (hm : Mirrors h scope) (hv : h.Valid platform) :
    Describes h (.ofScope scope) where
  vars := hm.binds_mappingOf hv (by decide)
  deps := hm.binds_mappingOf hv (by decide)
  depsOs := hm.binds_mappingOf hv (by decide)
  ascending :=
    Dict.ascending_erase (Dict.ascending_erase (Dict.ascending_erase hm.ascending _) _) _
  scope := fun name => by
    show Dict.get? (((scope.erase "vars").erase "deps").erase "deps_os") name = _
    rw [Dict.get?_erase, Dict.get?_erase, Dict.get?_erase, hm.get?]
    by_cases hn : name ∈ mappingNames
    · rw [if_pos hn]
      rcases (by simpa [mappingNames] using hn : name = "vars" ∨ name = "deps" ∨ name = "deps_os")
        with rfl | rfl | rfl <;> simp
    · rw [if_neg hn]
      simp only [mappingNames, List.mem_cons, List.not_mem_nil, or_false, not_or] at hn
      rw [if_neg hn.2.2, if_neg hn.2.1, if_neg hn.1]

/-! ### One statement -/

theorem outcome_step (platform : Platform) (scope : Dict Value) (s : Statement) :
    (step platform scope s).outcome =
      (eval platform (varsOf scope) s.value).outcome >>= fun value =>
        checkTarget s value >>= fun _ => .ok (scope.insert s.target value) := by
  simp [step, ok_bind]

theorem checkTarget_ok (h : Takes s.target value) : checkTarget s value = .ok () := by
  unfold checkTarget
  rw [if_neg]
  rintro ⟨hn, hnone⟩
  obtain ⟨d, rfl⟩ := h hn
  cases hnone

theorem checkTarget_error (h : ¬Takes s.target value) :
    checkTarget s value = .error (.malformed ⟨s.pos, .notAMapping s.target value.kind⟩) := by
  unfold checkTarget
  rw [if_pos]
  unfold Takes at h
  rw [Classical.not_imp] at h
  obtain ⟨hn, hmap⟩ := h
  refine ⟨hn, ?_⟩
  cases value with
  | map d => exact absurd ⟨d, rfl⟩ hmap
  | _ => rfl

theorem step_of_passes (hm : Mirrors h scope) (hv : h.Valid platform)
    (hp : Passes platform h s value) :
    (step platform scope s).outcome = .ok (scope.insert s.target value) := by
  obtain ⟨vars, hb, he, ht⟩ := hp
  rw [outcome_step, hm.varsOf_eq hv hb, he.outcome_eval, ok_bind, checkTarget_ok ht]
  rfl

theorem step_of_fails {e : EvalError} (hm : Mirrors h scope) (hv : h.Valid platform)
    (hf : Fails platform h s e) : (step platform scope s).outcome = .error e := by
  obtain ⟨vars, hb, he | ⟨value, he, ht, rfl⟩⟩ := hf
  · rw [outcome_step, hm.varsOf_eq hv hb, he.outcome_eval]
    rfl
  · rw [outcome_step, hm.varsOf_eq hv hb, he.outcome_eval, ok_bind, checkTarget_error ht]
    rfl

/-- Behind a valid history, a statement passes with some value or fails with some error. -/
theorem passes_or_fails (hm : Mirrors h scope) (hv : h.Valid platform) (s : Statement) :
    (∃ value, Passes platform h s value) ∨ ∃ e, Fails platform h s e := by
  have hb : h.Binds "vars" (varsOf scope) := hm.binds_mappingOf hv (by decide)
  have he : Evaluates platform (varsOf scope) s.value _ := evaluates_eval s.value
  cases ho : (eval platform (varsOf scope) s.value).outcome with
  | error e =>
    rw [ho] at he
    exact .inr ⟨e, varsOf scope, hb, .inl he⟩
  | ok value =>
    rw [ho] at he
    by_cases ht : Takes s.target value
    · exact .inl ⟨value, varsOf scope, hb, he, ht⟩
    · exact .inr ⟨_, varsOf scope, hb, .inr ⟨value, he, ht, rfl⟩⟩

/-! ### Runs -/

theorem runFrom_append (done : Eval (Dict Value)) (program more : List Statement) :
    runFrom platform done (program ++ more) = runFrom platform (runFrom platform done program) more := by
  induction program generalizing done with
  | nil => rfl
  | cons s program ih => exact ih _

theorem outcome_runFrom_error {done : Eval (Dict Value)} {e : EvalError}
    (h : done.outcome = .error e) (program : List Statement) :
    (runFrom platform done program).outcome = .error e := by
  induction program generalizing done with
  | nil => exact h
  | cons s program ih =>
    refine ih ?_
    rw [Traced.outcome_bind, h]
    rfl

/-- A valid history is run through, and the scope then mirrors it. -/
theorem runFrom_of_valid (hv : h.Valid platform) :
    ∃ scope, (runFrom platform (pure []) (h.map Prod.fst)).outcome = .ok scope ∧
      Mirrors h scope := by
  induction h using List.reverseRecOn with
  | nil => exact ⟨[], rfl, mirrors_nil⟩
  | append_singleton h last ih =>
    obtain ⟨s, value⟩ := last
    have hv' : History.Valid platform h := hv.of_append
    obtain ⟨scope, ho, hm⟩ := ih hv'
    have hp : Passes platform h s value := hv h s value [] rfl
    refine ⟨scope.insert s.target value, ?_, hm.insert s value⟩
    rw [List.map_append, runFrom_append]
    show (runFrom platform (pure []) (h.map Prod.fst) >>= fun scope => step platform scope s).outcome
      = _
    rw [Traced.outcome_bind, ho, ok_bind, step_of_passes hm hv' hp]

/-- A statement that fails behind a valid history ends the run, whatever follows it. -/
theorem runFrom_of_fails {e : EvalError} (hv : h.Valid platform) (hf : Fails platform h s e)
    (rest : List Statement) :
    (runFrom platform (pure []) (h.map Prod.fst ++ s :: rest)).outcome = .error e := by
  obtain ⟨scope, ho, hm⟩ := runFrom_of_valid hv
  rw [runFrom_append]
  refine outcome_runFrom_error ?_ rest
  rw [Traced.outcome_bind, ho, ok_bind, step_of_fails hm hv hf]

/-- Every program has a history to its end or to its first statement that fails. -/
theorem exists_history (platform : Platform) (program : List Statement) :
    (∃ h : History, h.map Prod.fst = program ∧ h.Valid platform) ∨
      ∃ (h : History) (s : Statement) (rest : List Statement) (e : EvalError),
        program = h.map Prod.fst ++ s :: rest ∧ h.Valid platform ∧ Fails platform h s e := by
  induction program using List.reverseRecOn with
  | nil => exact .inl ⟨[], rfl, valid_nil platform⟩
  | append_singleton program s ih =>
    rcases ih with ⟨h, rfl, hv⟩ | ⟨h, s', rest, e, rfl, hv, hf⟩
    · obtain ⟨scope, -, hm⟩ := runFrom_of_valid hv
      rcases passes_or_fails hm hv s with ⟨value, hp⟩ | ⟨e, hf⟩
      · exact .inl ⟨h ++ [(s, value)], by simp, hv.append hp⟩
      · exact .inr ⟨h, s, [], e, rfl, hv, hf⟩
    · exact .inr ⟨h, s', rest ++ [s], e, by simp, hv, hf⟩

theorem outcome_run (platform : Platform) (program : List Statement) :
    (run platform program).outcome =
      (runFrom platform (pure []) program).outcome >>= fun scope => .ok (.ofScope scope) := by
  simp [run]

theorem run_of_valid (hv : h.Valid platform) :
    ∃ file, (run platform (h.map Prod.fst)).outcome = .ok file ∧ Describes h file := by
  obtain ⟨scope, ho, hm⟩ := runFrom_of_valid hv
  exact ⟨.ofScope scope, by rw [outcome_run, ho, ok_bind], hm.describes hv⟩

theorem run_of_fails {e : EvalError} (hv : h.Valid platform) (hf : Fails platform h s e)
    (rest : List Statement) :
    (run platform (h.map Prod.fst ++ s :: rest)).outcome = .error e := by
  rw [outcome_run, runFrom_of_fails hv hf]
  rfl

/-- What a run gives is described by the history of the whole program. -/
theorem exists_history_of_run {program : List Statement} {file : DepsFile}
    (hrun : (run platform program).outcome = .ok file) :
    ∃ h : History, h.map Prod.fst = program ∧ h.Valid platform ∧ Describes h file := by
  rcases exists_history platform program with ⟨h, rfl, hv⟩ | ⟨h, s, rest, e, rfl, hv, hf⟩
  · obtain ⟨file', hrun', hd⟩ := run_of_valid hv
    rw [hrun] at hrun'
    obtain rfl : file = file' := Except.ok.inj hrun'
    exact ⟨h, rfl, hv, hd⟩
  · rw [run_of_fails hv hf] at hrun
    cases hrun

/-- A run that fails has a history up to the first statement that fails. -/
theorem exists_failure_of_run {program : List Statement} {e : EvalError}
    (hrun : (run platform program).outcome = .error e) :
    ∃ (h : History) (s : Statement) (rest : List Statement),
      program = h.map Prod.fst ++ s :: rest ∧ h.Valid platform ∧ Fails platform h s e := by
  rcases exists_history platform program with ⟨h, rfl, hv⟩ | ⟨h, s, rest, e', rfl, hv, hf⟩
  · obtain ⟨file, hrun', -⟩ := run_of_valid hv
    rw [hrun] at hrun'
    cases hrun'
  · rw [run_of_fails hv hf] at hrun
    obtain rfl : e' = e := Except.error.inj hrun
    exact ⟨h, s, rest, rfl, hv, hf⟩

/-- A program runs through exactly when each of its statements passes behind those before it, and
then assigns what the last statements of the names gave. Otherwise the first statement that fails
tells the error. -/
theorem run_refines_history (platform : Platform) (program : List Statement) :
    (∀ file, (run platform program).outcome = .ok file ↔
      ∃ h : History, h.map Prod.fst = program ∧ h.Valid platform ∧ Describes h file) ∧
    (∀ e, (run platform program).outcome = .error e ↔
      ∃ (h : History) (s : Statement) (rest : List Statement),
        program = h.map Prod.fst ++ s :: rest ∧ h.Valid platform ∧ Fails platform h s e) := by
  refine ⟨fun file => ⟨exists_history_of_run, ?_⟩, fun e => ⟨exists_failure_of_run, ?_⟩⟩
  · rintro ⟨h, rfl, hv, hd⟩
    obtain ⟨file', hrun, hd'⟩ := run_of_valid hv
    rw [hrun, describes_unique hd hd']
  · rintro ⟨h, s, rest, rfl, hv, hf⟩
    exact run_of_fails hv hf rest

end PinnedDeps.Evaluation
