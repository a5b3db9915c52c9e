import PinnedDeps.Proofs.Evaluation.Program
import PinnedDeps.Proofs.Value

/-! Evaluated mappings are in order. A mapping literal puts its entries in order, sums and look-ups
only move values around, and the variables that a statement sees are values of earlier statements;
so every mapping in what a program assigns has its keys ascending, each once. -/

namespace PinnedDeps

namespace Value

/-- Mappings are in order. -/
def IsOrdered : Value → Prop
  | .map entries => Dict.Ascending entries
  | _ => True

variable {P : Value → Prop}

theorem everywhereItems_iff {items : List Value} :
    EverywhereItems P items ↔ ∀ item ∈ items, item.Everywhere P := by
  induction items with
  | nil => simp [EverywhereItems]
  | cons item items ih => rw [EverywhereItems, ih, List.forall_mem_cons]

theorem everywhereEntries_iff {entries : List (String × Value)} :
    EverywhereEntries P entries ↔ ∀ entry ∈ entries, entry.2.Everywhere P := by
  induction entries with
  | nil => simp [EverywhereEntries]
  | cons entry entries ih => rw [EverywhereEntries, ih, List.forall_mem_cons]

theorem everywhereItems_append {a b : List Value} :
    EverywhereItems P (a ++ b) ↔ EverywhereItems P a ∧ EverywhereItems P b := by
  simp only [everywhereItems_iff, List.forall_mem_append]

/-- What is looked up is one of the values. -/
theorem everywhere_of_get? {d : Dict Value} {name : String} {value : Value}
    (h : EverywhereEntries P d) (hg : d.get? name = some value) : value.Everywhere P :=
  everywhereEntries_iff.mp h (name, value) (Dict.mem_of_get? hg)

end Value

namespace Evaluation

open Value

variable {platform : Platform} {vars : Dict Value} {value : Value} {name : String}

/-- If there is a value, it has the property. -/
def Yields {α : Type} (P : α → Prop) (outcome : Except EvalError α) : Prop :=
  ∀ a, outcome = .ok a → P a

theorem yields_ok {α : Type} {P : α → Prop} {a : α} (h : P a) : Yields P (.ok a) := by
  intro b hb
  obtain rfl : a = b := Except.ok.inj hb
  exact h

theorem yields_error {α : Type} {P : α → Prop} {e : EvalError} : Yields P (.error e) := by
  intro a ha
  cases ha

theorem Yields.map {α β : Type} {P : α → Prop} {Q : β → Prop} {f : α → β}
    {outcome : Except EvalError α} (h : Yields P outcome) (hf : ∀ a, P a → Q (f a)) :
    Yields Q (outcome.map f) := by
  cases outcome with
  | error e => exact yields_error
  | ok a => exact yields_ok (hf a (h a rfl))

mutual

/-- With ordered variables, an expression has an ordered value. -/
theorem Evaluates.yields_ordered (hvars : EverywhereEntries IsOrdered vars) {e : Expr}
    {outcome : Except EvalError Value} :
    Evaluates platform vars e outcome → Yields (Value.Everywhere IsOrdered) outcome
  | .str => yields_ok trivial
  | .int => yields_ok trivial
  | .bool => yields_ok trivial
  | .none => yields_ok trivial
  | .list h => (h.yields_ordered hvars).map fun items hi => ⟨trivial, hi⟩
  | .map h ha hg => by
    have hp := everywhereEntries_iff.mp (h.yields_ordered hvars _ rfl)
    refine yields_ok ⟨ha, everywhereEntries_iff.mpr fun entry he => hp entry ?_⟩
    have hget := Dict.get?_of_mem ha he
    rw [hg] at hget
    exact List.mem_reverse.mp (Dict.mem_of_get? hget)
  | .mapFails _ => yields_error
  | .sum h hs => hs.yields_ordered hvars (h.yields_ordered hvars _ rfl)
  | .sumFails _ => yields_error
  | .varBound _ hv => yields_ok (everywhere_of_get? hvars hv)
  | .varOfPlatform _ _ _ => yields_ok trivial
  | .varUndefined _ _ _ => yields_error
  | .varKind _ _ => yields_error
  | .varFails _ => yields_error

theorem EvaluatesItems.yields_ordered (hvars : EverywhereEntries IsOrdered vars)
    {items : List Expr} {outcome : Except EvalError (List Value)} :
    EvaluatesItems platform vars items outcome → Yields (EverywhereItems IsOrdered) outcome
  | .nil => yields_ok trivial
  | .cons h hr => (hr.yields_ordered hvars).map fun _ hi => ⟨h.yields_ordered hvars _ rfl, hi⟩
  | .fails _ => yields_error

theorem EvaluatesEntries.yields_ordered (hvars : EverywhereEntries IsOrdered vars)
    {entries : List (Expr × Expr)} {outcome : Except EvalError (List (String × Value))} :
    EvaluatesEntries platform vars entries outcome → Yields (EverywhereEntries IsOrdered) outcome
  | .nil => yields_ok trivial
  | .cons _ hv hr => (hr.yields_ordered hvars).map fun _ hp => ⟨hv.yields_ordered hvars _ rfl, hp⟩
  | .keyFails _ => yields_error
  | .keyKind _ _ => yields_error
  | .valueFails _ _ => yields_error

theorem EvaluatesSum.yields_ordered (hvars : EverywhereEntries IsOrdered vars) {left : Value}
    {rest : List (Position × Expr)} {outcome : Except EvalError Value}
    (h : EvaluatesSum platform vars left rest outcome) (hl : left.Everywhere IsOrdered) :
    Yields (Value.Everywhere IsOrdered) outcome :=
  match h with
  | .nil => yields_ok hl
  | .strings _ hr => hr.yields_ordered hvars trivial
  | .lists h hr =>
    hr.yields_ordered hvars
      ⟨trivial, everywhereItems_append.mpr ⟨hl.2, (h.yields_ordered hvars _ rfl).2⟩⟩
  | .kinds _ _ => yields_error
  | .fails _ => yields_error

end

/-! ### Runs -/

theorem mem_of_last? {h : History} (hl : h.last? name = some value) :
    ∃ s, (s, value) ∈ h := by
  unfold History.last? at hl
  rw [Option.map_eq_some_iff] at hl
  obtain ⟨entry, hf, rfl⟩ := hl
  exact ⟨entry.1, List.mem_reverse.mp (List.mem_of_find?_eq_some hf)⟩

/-- What holds of the empty mapping and of the values of a history holds of each mapping that the
history binds a name to. -/
theorem History.Binds.mapping {P : Value → Prop} {h : History} {d : Dict Value}
    (hb : h.Binds name d) (hnil : P (.map [])) (hP : ∀ entry ∈ h, P entry.2) : P (.map d) := by
  rcases hb with hb | ⟨-, rfl⟩
  · obtain ⟨s, hs⟩ := mem_of_last? hb
    exact hP _ hs
  · exact hnil

theorem History.Valid.ordered {h : History} (hv : h.Valid platform) :
    ∀ entry ∈ h, entry.2.Everywhere IsOrdered := by
  induction h using List.reverseRecOn with
  | nil => simp
  | append_singleton h last ih =>
    obtain ⟨s, value⟩ := last
    have hbefore := ih hv.of_append
    obtain ⟨vars, hb, he, -⟩ := hv h s value [] rfl
    have hvars : (Value.map vars).Everywhere IsOrdered :=
      hb.mapping ⟨Dict.ascending_nil, trivial⟩ hbefore
    intro entry hentry
    rcases List.mem_append.mp hentry with hentry | hentry
    · exact hbefore entry hentry
    · obtain rfl : entry = (s, value) := by simpa using hentry
      exact he.yields_ordered hvars.2 value rfl

end Evaluation

/-- The names of a file with their values, the special targets first. -/
def DepsFile.bindings (d : DepsFile) : List (String × Value) :=
  ("vars", .map d.vars) :: ("deps", .map d.deps) :: ("deps_os", .map d.depsOs) :: d.scope

/-- All mappings of the file are in order, and its scope is without the special targets. -/
structure DepsFile.Ordered (d : DepsFile) : Prop where
  scope : Dict.Ascending d.scope
  names : ∀ binding ∈ d.scope, binding.1 ∉ Evaluation.mappingNames
  values : ∀ binding ∈ d.bindings, binding.2.Everywhere Value.IsOrdered

namespace Evaluation

/-- What a file has in its scope was last given in the history. -/
theorem Describes.last?_of_mem {h : History} {d : DepsFile} (hd : Describes h d)
    {binding : String × Value} (hb : binding ∈ d.scope) :
    binding.1 ∉ mappingNames ∧ h.last? binding.1 = some binding.2 := by
  have hget := Dict.get?_of_mem hd.ascending hb
  rw [hd.scope] at hget
  split at hget
  · cases hget
  · next hn => exact ⟨hn, hget⟩

theorem Describes.forall_bindings {P : Value → Prop} {h : History} {d : DepsFile}
    (hd : Describes h d) (hnil : P (.map [])) (hP : ∀ entry ∈ h, P entry.2) :
    ∀ binding ∈ d.bindings, P binding.2 := by
  simp only [DepsFile.bindings, List.forall_mem_cons]
  refine ⟨hd.vars.mapping hnil hP, hd.deps.mapping hnil hP, hd.depsOs.mapping hnil hP, ?_⟩
  intro binding hb
  obtain ⟨s, hs⟩ := mem_of_last? (hd.last?_of_mem hb).2
  exact hP _ hs

theorem Describes.ordered {h : History} {d : DepsFile} (hd : Describes h d)
    (ho : ∀ entry ∈ h, entry.2.Everywhere Value.IsOrdered) : d.Ordered where
  scope := hd.ascending
  names := fun _ hb => (hd.last?_of_mem hb).1
  values := hd.forall_bindings ⟨Dict.ascending_nil, trivial⟩ ho

theorem ordered_of_run {platform : Platform} {program : List Statement} {d : DepsFile}
    (h : (run platform program).outcome = .ok d) : d.Ordered := by
  obtain ⟨history, -, hv, hd⟩ := exists_history_of_run h
  exact hd.ordered hv.ordered

theorem outcome_evaluate (platform : Platform) (source text : String) :
    (evaluate platform source text).outcome =
      (tokenize text).mapError EvalError.malformed >>= fun tokens =>
        (parse tokens).mapError EvalError.malformed >>= fun program =>
          (run platform program).outcome := by
  simp [evaluate, ok_bind]

/-- What a text evaluates to is ordered. -/
theorem ordered_of_evaluate {platform : Platform} {source text : String} {d : DepsFile}
    (h : (evaluate platform source text).outcome = .ok d) : d.Ordered := by
  rw [outcome_evaluate] at h
  obtain ⟨tokens, -, hprogram⟩ := exists_of_bind_eq_ok h
  obtain ⟨program, -, hrun⟩ := exists_of_bind_eq_ok hprogram
  exact ordered_of_run hrun

end Evaluation

end PinnedDeps
