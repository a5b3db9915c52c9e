import PinnedDeps.Proofs.Evaluation.Lines
import PinnedDeps.Proofs.Evaluation.Lookups

/-! What the platform table can change. It is asked only for names that the variables leave open, so
a table that defines more names gives values where there were none, and changes nothing else; where
the variables bind every name that is looked up, no table counts at all. Both are seen by running
one text under two tables, the look-ups of the first run telling how far the second may differ. -/

namespace PinnedDeps

/-- The second table defines what the first one does, with the same values. -/
def Platform.Within (p q : Platform) : Prop :=
  ∀ name text, p.get? name = some text → q.get? name = some text

namespace Platform

variable {p q r : Platform} {name : String}

theorem Within.trans (h : p.Within q) (h' : q.Within r) : p.Within r :=
  fun name text ht => h' name text (h name text ht)

/-- A name that the table leaves open can be defined. -/
theorem within_define (h : p.get? name = none) (value : String) :
    p.Within (p.define name value) := by
  intro x text hx
  rw [get?_define]
  split
  · next hname =>
    rw [hname, h] at hx
    cases hx
  · exact hx

theorem empty_within_builtIn : empty.Within builtIn := by
  have hos : (empty.define "host_cpu" "x64").get? "host_os" = none := by
    rw [get?_define, get?_empty, if_neg (by decide)]
  exact (within_define (get?_empty "host_cpu") "x64").trans (within_define hos "linux")

end Platform

namespace Evaluation

variable {p q : Platform} {vars : Dict Value} {gaps : String → Prop}

/-! ### Filling gaps -/

/-- The second outcome is the first, but may be any at all where the first is that a name in a gap
is undefined. -/
inductive Fills (gaps : String → Prop) {α : Type} :
    Except EvalError α → Except EvalError α → Prop where
  | ok (a : α) : Fills gaps (.ok a) (.ok a)
  | malformed (e : SyntaxError) : Fills gaps (.error (.malformed e)) (.error (.malformed e))
  | undefined {name : String} (outcome : Except EvalError α) :
      gaps name → Fills gaps (.error (.undefined name)) outcome

theorem Fills.bind {α β : Type} {x y : Except EvalError α} {f g : α → Except EvalError β}
    (h : Fills gaps x y) (hfg : ∀ a, x = .ok a → Fills gaps (f a) (g a)) :
    Fills gaps (x >>= f) (y >>= g) := by
  cases h with
  | ok a => exact hfg a rfl
  | malformed e => exact .malformed e
  | undefined outcome hname => exact .undefined _ hname

theorem Fills.eq_ok {α : Type} {y : Except EvalError α} {a : α} (h : Fills gaps (.ok a) y) :
    y = .ok a := by
  cases h
  rfl

theorem Fills.eq_malformed {α : Type} {y : Except EvalError α} {e : SyntaxError}
    (h : Fills gaps (.error (.malformed e)) y) : y = .error (.malformed e) := by
  cases h
  rfl

theorem Fills.gap {α : Type} {y : Except EvalError α} {name : String}
    (h : Fills gaps (.error (.undefined name)) y) : gaps name := by
  cases h
  assumption

theorem Fills.eq_of_no_gaps {α : Type} {x y : Except EvalError α}
    (h : Fills (fun _ => False) x y) : y = x := by
  cases h with
  | ok a => rfl
  | malformed e => rfl
  | undefined outcome hname => exact hname.elim

/-- What the platform has no part in. -/
theorem Fills.of_defined {α : Type} {x : Except EvalError α}
    (h : ∀ name, x ≠ .error (.undefined name)) : Fills gaps x x := by
  cases x with
  | ok a => exact .ok a
  | error e =>
    cases e with
    | malformed e => exact .malformed e
    | undefined name => exact absurd rfl (h name)

theorem fills_add (plus : Position) (a b : Value) : Fills gaps (add plus a b) (add plus a b) := by
  refine .of_defined fun name => ?_
  cases a <;> cases b <;> simp [add]

theorem fills_keyText (pos : Position) (value : Value) :
    Fills gaps (keyText pos value) (keyText pos value) := by
  refine .of_defined fun name => ?_
  cases value <;> simp [keyText]

theorem fills_nameText (pos : Position) (value : Value) :
    Fills gaps (nameText pos value) (nameText pos value) := by
  refine .of_defined fun name => ?_
  cases value <;> simp [nameText]

theorem fills_checkTarget (s : Statement) (value : Value) :
    Fills gaps (checkTarget s value) (checkTarget s value) := by
  refine .of_defined fun name => ?_
  unfold checkTarget
  split <;> simp

/-- A name that the first table defines, the second one with the same value, is found either way. -/
theorem fills_lookup_of_within (h : p.Within q) (name : String) :
    Fills (fun name => p.get? name = none) (lookup p vars name) (lookup q vars name) := by
  unfold lookup
  cases vars.get? name with
  | some value => exact .ok value
  | none =>
    cases hp : p.get? name with
    | some text =>
      rw [h name text hp]
      exact .ok _
    | none => exact .undefined _ hp

/-- A name that the variables bind is found without a table, so no gaps are met. -/
theorem fills_lookup_of_bound {name : String} {value : Value} (h : vars.get? name = some value) :
    Fills (fun _ => False) (lookup p vars name) (lookup q vars name) := by
  unfold lookup
  rw [h]
  exact .ok value

/-! ### Evaluation under two tables -/

mutual

/-- Where all look-ups fill gaps, so does the evaluation. Only those of the first table count: behind
a gap, the second one may look up anything. -/
theorem fills_eval : (e : Expr) →
    (∀ name, LooksUp p vars e name → Fills gaps (lookup p vars name) (lookup q vars name)) →
      Fills gaps (eval p vars e).outcome (eval q vars e).outcome
  | .str _ _, _ => .ok _
  | .int _ _, _ => .ok _
  | .bool _ _, _ => .ok _
  | .none _, _ => .ok _
  | .list pos items, h => by
    rw [outcome_list, outcome_list]
    exact (fills_items items fun name hn => h name (.list hn)).bind fun values _ => .ok _
  | .map pos entries, h => by
    rw [outcome_map, outcome_map]
    exact (fills_entries entries fun name hn => h name (.map hn)).bind fun pairs _ => .ok _
  | .sum pos first rest, h => by
    rw [outcome_sum, outcome_sum]
    refine (fills_eval first fun name hn => h name (.first hn)).bind fun left hleft => ?_
    exact fills_operands left rest fun name hn => h name (.rest (evaluates_iff.mpr hleft) hn)
  | .var pos argument, h => by
    rw [outcome_var, outcome_var]
    refine (fills_eval argument fun name hn => h name (.argument hn)).bind fun value hvalue => ?_
    refine (fills_nameText argument.pos value).bind fun name hname => ?_
    obtain rfl := nameText_eq_ok_iff.mp hname
    exact h name (.name (evaluates_iff.mpr hvalue))

theorem fills_items : (items : List Expr) →
    (∀ name, LooksUpItems p vars items name →
      Fills gaps (lookup p vars name) (lookup q vars name)) →
      Fills gaps (items.mapM fun item => (eval p vars item).outcome)
        (items.mapM fun item => (eval q vars item).outcome)
  | [], _ => .ok _
  | item :: rest, h => by
    rw [List.mapM_cons, List.mapM_cons]
    refine (fills_eval item fun name hn => h name (.head hn)).bind fun value hvalue => ?_
    have hrest := fills_items rest fun name hn => h name (.tail (evaluates_iff.mpr hvalue) hn)
    exact hrest.bind fun values _ => .ok _

theorem fills_entries : (entries : List (Expr × Expr)) →
    (∀ name, LooksUpEntries p vars entries name →
      Fills gaps (lookup p vars name) (lookup q vars name)) →
      Fills gaps (entries.mapM (entryOutcome p vars)) (entries.mapM (entryOutcome q vars))
  | [], _ => .ok _
  | (key, value) :: rest, h => by
    rw [List.mapM_cons, List.mapM_cons]
    simp only [entryOutcome, bind_assoc]
    refine (fills_eval key fun name hn => h name (.key hn)).bind fun k hk => ?_
    refine (fills_keyText key.pos k).bind fun text htext => ?_
    obtain rfl := keyText_eq_ok_iff.mp htext
    have hkey := evaluates_iff.mpr hk
    refine (fills_eval value fun name hn => h name (.value hkey hn)).bind fun v hv => ?_
    have hrest := fills_entries rest fun name hn => h name (.tail hkey (evaluates_iff.mpr hv) hn)
    exact hrest.bind fun pairs _ => .ok _

theorem fills_operands : (left : Value) → (rest : List (Position × Expr)) →
    (∀ name, LooksUpOperands p vars left rest name →
      Fills gaps (lookup p vars name) (lookup q vars name)) →
      Fills gaps (rest.foldlM (operandOutcome p vars) left)
        (rest.foldlM (operandOutcome q vars) left)
  | left, [], _ => .ok left
  | left, (plus, operand) :: rest, h => by
    rw [List.foldlM_cons, List.foldlM_cons]
    unfold operandOutcome
    rw [bind_assoc, bind_assoc]
    refine (fills_eval operand fun name hn => h name (.head hn)).bind fun right hright => ?_
    refine (fills_add plus left right).bind fun sum hsum => ?_
    exact fills_operands sum rest fun name hn =>
      h name (.tail (evaluates_iff.mpr hright) hsum hn)

end

theorem fills_step {scope : Dict Value} {s : Statement}
    (h : ∀ name, LooksUp p (varsOf scope) s.value name →
      Fills gaps (lookup p (varsOf scope) name) (lookup q (varsOf scope) name)) :
    Fills gaps (step p scope s).outcome (step q scope s).outcome := by
  rw [outcome_step, outcome_step]
  refine (fills_eval s.value h).bind fun value _ => ?_
  exact (fills_checkTarget s value).bind fun _ _ => .ok _

theorem fills_foldlM {scope : Dict Value} {program : List Statement}
    (h : ∀ vars name, RunLooksUp p scope program vars name →
      Fills gaps (lookup p vars name) (lookup q vars name)) :
    Fills gaps (program.foldlM (fun scope s => (step p scope s).outcome) scope)
      (program.foldlM (fun scope s => (step q scope s).outcome) scope) := by
  induction program generalizing scope with
  | nil => exact .ok scope
  | cons s rest ih =>
    rw [List.foldlM_cons, List.foldlM_cons]
    refine (fills_step fun name hn => h _ name (.head hn)).bind fun scope' hscope => ?_
    exact ih fun vars name hn => h vars name (.tail hscope hn)

theorem fills_run {program : List Statement}
    (h : ∀ vars name, RunLooksUp p [] program vars name →
      Fills gaps (lookup p vars name) (lookup q vars name)) :
    Fills gaps (run p program).outcome (run q program).outcome := by
  rw [outcome_run, outcome_run, outcome_runFrom, outcome_runFrom]
  exact (fills_foldlM h).bind fun scope _ => .ok _

/-- Reading a text does not involve the platform, so only its statements count. -/
theorem fills_evaluate {source text : String}
    (h : ∀ program vars name, statementsOf text = .ok program → RunLooksUp p [] program vars name →
      Fills gaps (lookup p vars name) (lookup q vars name)) :
    Fills gaps (evaluate p source text).outcome (evaluate q source text).outcome := by
  rw [Lines.outcome_evaluate_eq, Lines.outcome_evaluate_eq]
  cases hread : statementsOf text with
  | error e => exact .malformed e
  | ok program => exact fills_run fun vars name => h program vars name hread

/-- A table that defines more names than another changes nothing but complaints that a name is
undefined, which are about names that the table leaves open. Where the variables in effect bind
every name that a run looks up, the table does not matter. -/
theorem evaluate_under_tables (source text : String) (p : Platform) :
    (∀ q, p.Within q →
      (∀ file, (evaluate p source text).outcome = .ok file →
        (evaluate q source text).outcome = .ok file) ∧
      ∀ e, (evaluate p source text).outcome = .error (.malformed e) →
        (evaluate q source text).outcome = .error (.malformed e)) ∧
    (∀ name, (evaluate p source text).outcome = .error (.undefined name) →
      p.get? name = none) ∧
    ((∀ program vars name, statementsOf text = .ok program → RunLooksUp p [] program vars name →
        ∃ value, vars.get? name = some value) →
      ∀ q, (evaluate q source text).outcome = (evaluate p source text).outcome) := by
  have hfills : ∀ q, p.Within q → Fills (fun name => p.get? name = none)
      (evaluate p source text).outcome (evaluate q source text).outcome := fun q hq =>
    fills_evaluate fun _ _ name _ _ => fills_lookup_of_within hq name
  refine ⟨fun q hq => ⟨fun file h => ?_, fun e h => ?_⟩, fun name h => ?_, fun hbound q => ?_⟩
  · exact (h ▸ hfills q hq).eq_ok
  · exact (h ▸ hfills q hq).eq_malformed
  · exact (h ▸ hfills p fun _ _ hp => hp).gap
  · have hq : Fills (fun _ => False) (evaluate p source text).outcome
        (evaluate q source text).outcome := by
      refine fills_evaluate fun program vars name hread hrun => ?_
      obtain ⟨value, hvalue⟩ := hbound program vars name hread hrun
      exact fills_lookup_of_bound hvalue
    exact hq.eq_of_no_gaps

/-! ### A variable that is bound, one that is not, and none at all -/

def boundUse : String := Lines.varsLine ++ "\n" ++ "x = Var('a')"

def boundUseStatements : List Statement :=
  [⟨"vars", ⟨1, 1⟩, .map ⟨1, 8⟩ [(.str ⟨1, 9⟩ "a", .str ⟨1, 14⟩ "b")]⟩,
    ⟨"x", ⟨3, 1⟩, .var ⟨3, 5⟩ (.str ⟨3, 9⟩ "a")⟩]

theorem statementsOf_boundUse : statementsOf boundUse = .ok boundUseStatements := by
  have hheight : Lines.height Lines.varsLine = 2 := by decide +kernel
  rw [boundUse, Lines.statementsOf_below Lines.statementsOf_varsLine, Lines.statementsOf_use,
    hheight]
  rfl

/-- The one name that is looked up is bound. -/
theorem bound_of_boundUse {vars : Dict Value} {name : String}
    (h : RunLooksUp .empty [] boundUseStatements vars name) :
    ∃ value, vars.get? name = some value := by
  obtain ⟨-, hvars⟩ | ⟨scope, hstep, hrest⟩ := runLooksUp_cons_iff.mp h
  · obtain hkey | ⟨-, -, hvalue | ⟨-, hnil⟩⟩ :=
      looksUpEntries_cons_iff.mp (looksUp_map_iff.mp hvars)
    · cases hkey
    · cases hvalue
    · cases hnil
  · obtain rfl : [("vars", .map [("a", .str "b")])] = scope := Except.ok.inj hstep
    obtain ⟨rfl, huse⟩ | ⟨last, hlast, hnil⟩ := runLooksUp_cons_iff.mp hrest
    · obtain hargument | hname := looksUp_var_iff.mp huse
      · cases hargument
      · obtain rfl : "a" = name := Value.str.inj (Except.ok.inj hname)
        exact ⟨.str "b", rfl⟩
    · cases hnil

theorem evaluate_under_tables_uses :
    (∀ q, (evaluate q "DEPS" boundUse).outcome =
      .ok ⟨[("a", .str "b")], [], [], [("x", .str "b")]⟩) ∧
    Platform.empty.Within .builtIn ∧
    (evaluate .builtIn "DEPS" "x = Var(1)").outcome =
      .error (.malformed ⟨⟨1, 9⟩, .varNotString .int⟩) ∧
    Platform.builtIn.get? "a" = none := by
  have hbound : (evaluate .empty "DEPS" boundUse).outcome =
      .ok ⟨[("a", .str "b")], [], [], [("x", .str "b")]⟩ := by
    rw [Lines.outcome_evaluate_eq, statementsOf_boundUse]
    rfl
  have hmalformed : (evaluate .empty "DEPS" "x = Var(1)").outcome =
      .error (.malformed ⟨⟨1, 9⟩, .varNotString .int⟩) := by
    have htokens : tokenize "x = Var(1)" = .ok [⟨⟨1, 1⟩, .name "x"⟩, ⟨⟨1, 3⟩, .assign⟩,
        ⟨⟨1, 5⟩, .name "Var"⟩, ⟨⟨1, 8⟩, .openParen⟩, ⟨⟨1, 9⟩, .integer 1⟩,
        ⟨⟨1, 10⟩, .closeParen⟩, ⟨⟨1, 11⟩, .eof⟩] := by
      decide +kernel
    rw [Lines.outcome_evaluate_eq, statementsOf, htokens]
    rfl
  have hundefined : (evaluate .builtIn "DEPS" "x = Var('a')").outcome =
      .error (.undefined "a") := by
    rw [Lines.outcome_evaluate_eq, Lines.statementsOf_use]
    rfl
  refine ⟨fun q => ?_, Platform.empty_within_builtIn, ?_, ?_⟩
  · rw [(evaluate_under_tables "DEPS" boundUse .empty).2.2 ?_ q, hbound]
    intro program vars name hread hrun
    rw [statementsOf_boundUse] at hread
    obtain rfl := Except.ok.inj hread
    exact bound_of_boundUse hrun
  · exact ((evaluate_under_tables "DEPS" _ .empty).1 .builtIn
      Platform.empty_within_builtIn).2 _ hmalformed
  · exact (evaluate_under_tables "DEPS" _ .builtIn).2.1 "a" hundefined

end Evaluation

end PinnedDeps
