import PinnedDeps.Proofs.Evaluation
import PinnedDeps.Proofs.Grammar.Completeness

/-! Sums in brackets. However the operands of a sum are put together, it comes to what they are in
their order: all texts, or all lists, one after the other. A sum in brackets is an operand like any
other to the evaluator, and what it comes to is that of its own operands; so the values of a
grouping are told by the one list of operands that it has when the brackets are left out. -/

namespace PinnedDeps.Evaluation

/-! ### Groupings -/

mutual

/-- The expression adds the operands, in their order, in groups of any kind. -/
inductive Grouped : List Expr → Expr → Prop where
  | operand (e : Expr) : Grouped [e] e
  | sum {operands more pos first rest} :
      Grouped operands first → GroupedRest more rest →
      Grouped (operands ++ more) (.sum pos first rest)

/-- What follows the first group of a sum. -/
inductive GroupedRest : List Expr → List (Position × Expr) → Prop where
  | nil : GroupedRest [] []
  | cons {operands more plus group rest} :
      Grouped operands group → GroupedRest more rest →
      GroupedRest (operands ++ more) ((plus, group) :: rest)

end

theorem Grouped.ne_nil {operands : List Expr} {e : Expr} : Grouped operands e → operands ≠ []
  | .operand _ => List.cons_ne_nil _ _
  | .sum h _ => List.append_ne_nil_of_left_ne_nil h.ne_nil _

end PinnedDeps.Evaluation

namespace PinnedDeps.Grammar

open Evaluation (Grouped GroupedRest)

mutual

/-- The operands of a sum with those of the sums in brackets in their places. -/
def Primary.operands : Primary → List Expr
  | .paren _ inner _ => inner.operands
  | .strings pos text more => [.str pos (joined text more)]
  | .integer pos value => [.int pos value]
  | .constant pos constant => [constant.tree pos]
  | .map opening entries _ => [.map opening entries.trees]
  | .list opening items _ => [.list opening items.trees]
  | .var name _ argument _ => [.var name argument.tree]

def Expression.operands : Expression → List Expr
  | .sum first rest => first.operands ++ rest.operands

def Summands.operands : Summands → List Expr
  | .done => []
  | .plus _ operand rest => operand.operands ++ rest.operands

end

mutual

/-- Brackets group. -/
theorem Primary.grouped : (p : Primary) → Grouped p.operands p.tree
  | .paren _ inner _ => inner.grouped
  | .strings _ _ _ | .integer _ _ | .constant _ _ | .map _ _ _ | .list _ _ _ | .var _ _ _ _ =>
    .operand _

theorem Expression.grouped : (x : Expression) → Grouped x.operands x.tree
  | .sum first .done => by
    rw [Expression.operands, Summands.operands, List.append_nil]
    exact first.grouped
  | .sum first (.plus _ operand rest) => .sum first.grouped (.cons operand.grouped rest.grouped)

theorem Summands.grouped : (s : Summands) → GroupedRest s.operands s.trees
  | .done => .nil
  | .plus _ operand rest => .cons operand.grouped rest.grouped

end

theorem joined_eq_join (text : String) (more : List (Located String)) :
    joined text more = String.join (text :: more.map (·.item)) := by
  induction more generalizing text with
  | nil => simp [joined]
  | cons literal more ih =>
    refine (ih (text ++ literal.item)).trans ?_
    simp [String.append_assoc]

end PinnedDeps.Grammar

namespace PinnedDeps.Evaluation

open Grammar

variable {platform : Platform} {vars : Dict Value} {plus : Position} {a b v : Value}
  {xs ys : List Value} {operands more : List Expr}

/-! ### What values add up to -/

/-- What the values add up to, from the first to the last. -/
inductive Total : List Value → Value → Prop where
  | single (v : Value) : Total [v] v
  | strings {texts : List String} : texts ≠ [] → Total (texts.map .str) (.str (String.join texts))
  | lists {parts : List (List Value)} : parts ≠ [] → Total (parts.map .list) (.list parts.flatten)

theorem total_str_iff {text : String} :
    Total xs (.str text) ↔
      ∃ texts, texts ≠ [] ∧ xs = texts.map .str ∧ text = String.join texts := by
  constructor
  · intro h
    cases h with
    | single => exact ⟨[text], List.cons_ne_nil _ _, rfl, by simp⟩
    | strings h => exact ⟨_, h, rfl, rfl⟩
  · rintro ⟨texts, h, rfl, rfl⟩
    exact .strings h

theorem total_list_iff {items : List Value} :
    Total xs (.list items) ↔
      ∃ parts, parts ≠ [] ∧ xs = parts.map .list ∧ items = parts.flatten := by
  constructor
  · intro h
    cases h with
    | single => exact ⟨[items], List.cons_ne_nil _ _, rfl, by simp⟩
    | lists h => exact ⟨_, h, rfl, rfl⟩
  · rintro ⟨parts, h, rfl, rfl⟩
    exact .lists h

theorem total_singleton_iff : Total [a] v ↔ v = a := by
  constructor
  · generalize hxs : [a] = xs
    intro h
    cases h with
    | single => exact (List.singleton_inj.mp hxs).symm
    | strings =>
      obtain ⟨text, rfl, rfl⟩ := List.map_eq_singleton_iff.mp hxs.symm
      simp
    | lists =>
      obtain ⟨items, rfl, rfl⟩ := List.map_eq_singleton_iff.mp hxs.symm
      simp
  · rintro rfl
    exact .single v

theorem add_eq_ok_iff : add plus a b = .ok v ↔
    (∃ s t, a = .str s ∧ b = .str t ∧ v = .str (s ++ t)) ∨
      ∃ s t, a = .list s ∧ b = .list t ∧ v = .list (s ++ t) := by
  cases a <;> cases b <;> simp [add, eq_comm]

/-- Values add up in two parts as they do at once. -/
theorem total_append_iff (plus : Position) (hxs : xs ≠ []) (hys : ys ≠ []) :
    Total (xs ++ ys) v ↔ ∃ a b, Total xs a ∧ Total ys b ∧ add plus a b = .ok v := by
  constructor
  · generalize hzs : xs ++ ys = zs
    intro h
    cases h with
    | single =>
      rcases List.append_eq_singleton_iff.mp hzs with ⟨rfl, -⟩ | ⟨-, rfl⟩
      · exact absurd rfl hxs
      · exact absurd rfl hys
    | @strings texts _ =>
      obtain ⟨s, t, rfl, rfl, rfl⟩ := List.append_eq_map_iff.mp hzs
      refine ⟨_, _, .strings fun hs => ?_, .strings fun ht => ?_, ?_⟩
      · exact hxs (by simp [hs])
      · exact hys (by simp [ht])
      · simp [add, String.join_append]
    | lists =>
      obtain ⟨s, t, rfl, rfl, rfl⟩ := List.append_eq_map_iff.mp hzs
      refine ⟨_, _, .lists fun hs => ?_, .lists fun ht => ?_, ?_⟩
      · exact hxs (by simp [hs])
      · exact hys (by simp [ht])
      · simp [add]
  · rintro ⟨a, b, ha, hb, hadd⟩
    rcases add_eq_ok_iff.mp hadd with ⟨s, t, rfl, rfl, rfl⟩ | ⟨s, t, rfl, rfl, rfl⟩
    · obtain ⟨ss, hss, rfl, rfl⟩ := total_str_iff.mp ha
      obtain ⟨ts, hts, rfl, rfl⟩ := total_str_iff.mp hb
      exact total_str_iff.mpr ⟨ss ++ ts, by simp [hss], by simp, by simp [String.join_append]⟩
    · obtain ⟨ss, hss, rfl, rfl⟩ := total_list_iff.mp ha
      obtain ⟨ts, hts, rfl, rfl⟩ := total_list_iff.mp hb
      exact total_list_iff.mpr ⟨ss ++ ts, by simp [hss], by simp, by simp⟩

/-! ### What operands add up to -/

section

variable (platform : Platform) (vars : Dict Value)

/-- The operands all have values, and these add up to `v`. -/
def SumsTo (operands : List Expr) (v : Value) : Prop :=
  ∃ values : List Value,
    (operands.map fun e => (eval platform vars e).outcome) = values.map .ok ∧ Total values v

end

theorem sumsTo_singleton_iff (e : Expr) :
    SumsTo platform vars [e] v ↔ (eval platform vars e).outcome = .ok v := by
  constructor
  · rintro ⟨values, hvalues, htotal⟩
    obtain ⟨value, rfl, he⟩ := List.map_eq_singleton_iff.mp hvalues.symm
    rw [total_singleton_iff] at htotal
    rw [htotal, he]
  · intro h
    exact ⟨[v], by simp [h], .single v⟩

theorem sumsTo_append_iff (plus : Position) (hone : operands ≠ []) (hmore : more ≠ []) :
    SumsTo platform vars (operands ++ more) v ↔
      ∃ a b, SumsTo platform vars operands a ∧ SumsTo platform vars more b ∧
        add plus a b = .ok v := by
  have hne {es : List Expr} {values : List Value} (hes : es ≠ [])
      (h : (es.map fun e => (eval platform vars e).outcome) = values.map .ok) : values ≠ [] := by
    rintro rfl
    exact hes (List.map_eq_nil_iff.mp h)
  constructor
  · rintro ⟨values, hvalues, htotal⟩
    rw [List.map_append] at hvalues
    obtain ⟨xs, ys, rfl, hxs, hys⟩ := List.map_eq_append_iff.mp hvalues.symm
    obtain ⟨a, b, ha, hb, hadd⟩ :=
      (total_append_iff plus (hne hone hxs.symm) (hne hmore hys.symm)).mp htotal
    exact ⟨a, b, ⟨xs, hxs.symm, ha⟩, ⟨ys, hys.symm, hb⟩, hadd⟩
  · rintro ⟨a, b, ⟨xs, hxs, ha⟩, ⟨ys, hys, hb⟩, hadd⟩
    refine ⟨xs ++ ys, by simp [hxs, hys], ?_⟩
    exact (total_append_iff plus (hne hone hxs) (hne hmore hys)).mpr ⟨a, b, ha, hb, hadd⟩

/-! ### Every grouping -/

mutual

/-- A grouping has the value that its operands add up to. -/
theorem Grouped.eval_eq_ok_iff {operands : List Expr} {e : Expr} :
    Grouped operands e →
      ∀ v, (eval platform vars e).outcome = .ok v ↔ SumsTo platform vars operands v
  | .operand e, v => (sumsTo_singleton_iff e).symm
  | .sum hfirst hrest, v => by
    rw [outcome_sum, bind_eq_ok_iff, ← hrest.foldlM_eq_ok_iff hfirst.ne_nil]
    simp only [hfirst.eval_eq_ok_iff]

/-- By the groups, the first of which joins what is in front. -/
theorem GroupedRest.foldlM_eq_ok_iff {more : List Expr} {rest : List (Position × Expr)} :
    GroupedRest more rest → ∀ {operands : List Expr} {v : Value}, operands ≠ [] →
      ((∃ left, SumsTo platform vars operands left ∧
          rest.foldlM (operandOutcome platform vars) left = .ok v) ↔
        SumsTo platform vars (operands ++ more) v)
  | .nil, operands, v, _ => by
    rw [List.append_nil]
    constructor
    · rintro ⟨left, h, hleft⟩
      exact Except.ok.inj hleft ▸ h
    · exact fun h => ⟨v, h, rfl⟩
  | @GroupedRest.cons _ _ plus _ _ hgroup hrest, operands, v, hne => by
    rw [← List.append_assoc, ← hrest.foldlM_eq_ok_iff (List.append_ne_nil_of_left_ne_nil hne _)]
    simp only [sumsTo_append_iff plus hne hgroup.ne_nil, List.foldlM_cons, bind_eq_ok_iff,
      operandOutcome, hgroup.eval_eq_ok_iff]
    constructor
    · rintro ⟨left, hleft, next, ⟨b, hb, hadd⟩, hnext⟩
      exact ⟨next, ⟨left, b, hleft, hb, hadd⟩, hnext⟩
    · rintro ⟨next, ⟨left, b, hleft, hb, hadd⟩, hnext⟩
      exact ⟨left, hleft, next, ⟨b, hb, hadd⟩, hnext⟩

end

/-- Two values or more add up only if all are texts or all are lists. -/
theorem total_iff_of_two (htwo : 2 ≤ xs.length) :
    Total xs v ↔
      (∃ texts : List String, xs = texts.map .str ∧ v = .str (String.join texts)) ∨
        ∃ parts : List (List Value), xs = parts.map .list ∧ v = .list parts.flatten := by
  have hne : xs ≠ [] := List.ne_nil_of_length_pos (Nat.zero_lt_of_lt htwo)
  constructor
  · intro h
    cases h with
    | single => exact absurd htwo (by simp)
    | strings => exact .inl ⟨_, rfl, rfl⟩
    | lists => exact .inr ⟨_, rfl, rfl⟩
  · rintro (⟨texts, rfl, rfl⟩ | ⟨parts, rfl, rfl⟩)
    · exact .strings fun h => hne (by simp [h])
    · exact .lists fun h => hne (by simp [h])

/-! ### Literals -/

/-- The literals, each an operand of its own. -/
def literalOperands (literals : List (Located String)) : List Expr :=
  literals.map fun s => .str s.pos s.item

theorem sumsTo_literals {literals : List (Located String)} (h : literals ≠ []) :
    SumsTo platform vars (literalOperands literals)
      (.str (String.join (literals.map (·.item)))) := by
  refine ⟨(literals.map (·.item)).map .str, ?_, .strings (by simpa using h)⟩
  simp [literalOperands, eval]

theorem nestedWithin_literals (literals : List (Located String)) :
    NestedWithin 0 (literals.map fun s => ⟨s.pos, .string s.item⟩) := by
  induction literals with
  | nil => trivial
  | cons s literals ih => exact ⟨Nat.zero_le _, ih⟩

section

variable (target : String) (place sign stop : Position) (first : Located String)
  (more : List (Located String))

/-- The literals side by side, assigned to a target. -/
def sideBySide : Program :=
  .last ⟨place, target, sign, .sum (.strings first.pos first.item more) .done⟩ stop

theorem tokens_sideBySide :
    (sideBySide target place sign stop first more).tokens =
      ⟨place, .name target⟩ :: ⟨sign, .assign⟩ ::
        ((first :: more).map (fun s => ⟨s.pos, .string s.item⟩) ++ [⟨stop, .eof⟩]) := by
  simp [sideBySide, Program.tokens, Assignment.tokens, Expression.tokens, Primary.tokens,
    Summands.tokens]

/-- They are one text. -/
theorem parse_sideBySide :
    parse (sideBySide target place sign stop first more).tokens =
      .ok [⟨target, place, .str first.pos (String.join ((first :: more).map (·.item)))⟩] := by
  have hn : NestedWithin 0 (sideBySide target place sign stop first more).tokens := by
    rw [tokens_sideBySide]
    refine ⟨Nat.zero_le _, Nat.zero_le _, (nestedWithin_append _ _ _).mpr ⟨?_, ?_⟩⟩
    · exact nestedWithin_literals (first :: more)
    · rw [depthBehind_literals]
      exact ⟨Nat.zero_le _, trivial⟩
  rw [Program.parse_tokens _ hn, List.map_cons, ← joined_eq_join]
  rfl

end

/-! ### What a grouping comes to -/

/-- A grouping of two operands or more has a value if all operands have values and these are all
texts or all lists, and then it is the texts or the items one after the other. So all groupings have
the same value, those that brackets make among them, and that of literals is the value that they
have side by side. -/
theorem eval_grouped (platform : Platform) (vars : Dict Value) {operands : List Expr} {e : Expr}
    (h : Grouped operands e) (htwo : 2 ≤ operands.length) :
    (∀ v, (eval platform vars e).outcome = .ok v ↔
      ∃ values : List Value,
        (operands.map fun o => (eval platform vars o).outcome) = values.map .ok ∧
          ((∃ texts : List String, values = texts.map .str ∧ v = .str (String.join texts)) ∨
            ∃ parts : List (List Value), values = parts.map .list ∧ v = .list parts.flatten)) ∧
      (∀ e', Grouped operands e' → ∀ v,
        (eval platform vars e).outcome = .ok v ↔ (eval platform vars e').outcome = .ok v) ∧
      (∀ x : Expression, x.operands = operands → ∀ v,
        (eval platform vars e).outcome = .ok v ↔ (eval platform vars x.tree).outcome = .ok v) ∧
      ∀ literals : List (Located String), operands = literalOperands literals →
        ∀ target place sign stop, ∃ beside : Expr,
          parse (⟨place, .name target⟩ :: ⟨sign, .assign⟩ ::
              (literals.map (fun s => ⟨s.pos, .string s.item⟩) ++ [⟨stop, .eof⟩])) =
            .ok [⟨target, place, beside⟩] ∧
          (eval platform vars beside).outcome = (eval platform vars e).outcome := by
  have halike : ∀ e', Grouped operands e' → ∀ v,
      (eval platform vars e).outcome = .ok v ↔ (eval platform vars e').outcome = .ok v :=
    fun e' h' v => (h.eval_eq_ok_iff v).trans (h'.eval_eq_ok_iff v).symm
  refine ⟨fun v => ?_, halike, fun x hx => halike x.tree (hx ▸ x.grouped),
    fun literals hliterals target place sign stop => ?_⟩
  · refine (h.eval_eq_ok_iff v).trans (exists_congr fun values => and_congr_right fun hvalues => ?_)
    have hlength : operands.length = values.length := by
      simpa using congrArg List.length hvalues
    exact total_iff_of_two (hlength ▸ htwo)
  · subst hliterals
    cases literals with
    | nil => exact absurd htwo (by simp [literalOperands])
    | cons first more =>
      rw [← tokens_sideBySide, parse_sideBySide]
      refine ⟨_, rfl, ?_⟩
      exact ((h.eval_eq_ok_iff _).mpr (sumsTo_literals (List.cons_ne_nil first more))).symm

/-- `'a' + ('b' + 'c')` -/
theorem eval_grouped_right :
    let literals : List (Located String) := [⟨⟨1, 5⟩, "a"⟩, ⟨⟨1, 12⟩, "b"⟩, ⟨⟨1, 18⟩, "c"⟩]
    let e : Expr := .sum ⟨1, 9⟩ (.str ⟨1, 5⟩ "a")
      [(⟨1, 9⟩, .sum ⟨1, 16⟩ (.str ⟨1, 12⟩ "b") [(⟨1, 16⟩, .str ⟨1, 18⟩ "c")])]
    Grouped (literalOperands literals) e ∧ 2 ≤ (literalOperands literals).length ∧
      (eval .builtIn [] e).outcome = .ok (.str "abc") := by
  intro literals e
  have h : Grouped (literalOperands literals) e :=
    .sum (.operand _) (.cons (.sum (.operand _) (.cons (.operand _) .nil)) .nil)
  have htwo : 2 ≤ (literalOperands literals).length := by decide
  refine ⟨h, htwo, ((eval_grouped .builtIn [] h htwo).1 _).mpr ?_⟩
  exact ⟨[.str "a", .str "b", .str "c"], rfl, .inl ⟨["a", "b", "c"], rfl, rfl⟩⟩

end PinnedDeps.Evaluation
