import PinnedDeps.Proofs.Evaluation.Printed
import PinnedDeps.Proofs.Evaluation.Nesting

/-! Texts whose values nest deepest. The variables are assigned again and again, each time with
brackets around what they were before, and in the end a last statement puts brackets around what was
reached. No bracket is deeper than may be, and the bound on values is met exactly. -/

namespace PinnedDeps

namespace Deepest

open Lexer Evaluation Grammar Displayed
open Source (locate)

variable {vars : Dict Value} {depth : Nat} {inner : List Char} {v : Value}

/-! ### Expressions -/

/-- So many lists around a value. -/
def enclosed (v : Value) : Nat → Value
  | 0 => v
  | n + 1 => .list [enclosed v n]

theorem nesting_enclosed (v : Value) (n : Nat) : (enclosed v n).nesting = v.nesting + n := by
  induction n with
  | zero => rfl
  | succ n ih =>
    rw [enclosed, Value.nesting, Value.nestingItems, Value.nestingItems, ih]
    omega

theorem enclosed_enclosed (v : Value) (m n : Nat) :
    enclosed (enclosed v m) n = enclosed v (m + n) := by
  induction n with
  | zero => rfl
  | succ n ih => rw [enclosed, ih, ← Nat.add_assoc, enclosed]

/-- So many list brackets around what is written. -/
def bracketed (n : Nat) (inner : List Char) : List Char :=
  List.replicate n '[' ++ (inner ++ List.replicate n ']')

theorem bracketed_succ (n : Nat) (inner : List Char) :
    bracketed (n + 1) inner = '[' :: (bracketed n inner ++ [']']) := by
  rw [bracketed, bracketed, List.replicate_succ, List.replicate_succ']
  simp

/-- Wherever they stand, the characters are read as an expression that has the value where these are
the variables, on any platform. -/
def ReadsUnder (vars : Dict Value) (depth : Nat) (cs : List Char) (v : Value) : Prop :=
  ∀ p rest, Stops rest →
    ∃ x : Expression, Lexes depth (locate p cs) x.tokens depth rest ∧
      ∀ platform, Evaluates platform vars x.tree (.ok v)

/-- An operand alone is an expression. -/
theorem readsUnder_operand {cs : List Char} (h : ∀ p rest, Stops rest →
    ∃ x : Primary, Lexes depth (locate p cs) x.tokens depth rest ∧
      ∀ platform, Evaluates platform vars x.tree (.ok v)) : ReadsUnder vars depth cs v := by
  intro p rest hr
  obtain ⟨x, hx, hv⟩ := h p rest hr
  refine ⟨.sum x .done, ?_, hv⟩
  rwa [Expression.tokens, Summands.tokens, List.append_nil]

theorem readsUnder_empty (vars : Dict Value) (hd : depth + 1 ≤ maxNesting) :
    ReadsUnder vars depth ['[', ']'] (.list []) := by
  intro p rest hr
  obtain ⟨x, hx, hv⟩ := reads_list_nil hd p rest hr
  exact ⟨x, hx, fun platform => hv platform vars⟩

theorem ReadsUnder.bracketed {n : Nat} (hd : depth + n ≤ maxNesting)
    (h : ReadsUnder vars (depth + n) inner v) :
    ReadsUnder vars depth (bracketed n inner) (enclosed v n) := by
  induction n generalizing depth with
  | zero => simpa [Deepest.bracketed, enclosed] using h
  | succ n ih =>
    rw [← Nat.add_assoc, Nat.add_right_comm] at hd h
    refine readsUnder_operand fun p rest _ => ?_
    let closing := (p.after '[').afterAll (Deepest.bracketed n inner)
    obtain ⟨x, hx, hv⟩ := ih hd h (p.after '[') (⟨closing, ']'⟩ :: rest)
      (StartsIn.cons (by decide) closing rest)
    refine ⟨.list p (.first x .done) closing, ?_, fun platform => .list (.cons (hv platform) .nil)⟩
    rw [bracketed_succ, Primary.tokens, Items.tokens, MoreItems.tokens, List.append_nil]
    exact lexes_bracketed (by omega) hx

/-- The key of the only variable. -/
theorem lexes_key (hd : depth ≤ maxNesting) (p : Position) {c : Char} (hc : c ≠ '\'')
    (q : Position) (rest : List (Located Char)) :
    Lexes depth (locate p ['\'', 'a', '\'']) [⟨p, .string "a"⟩] depth (⟨q, c⟩ :: rest) := by
  refine lexes_escaped rfl "a" ?_ hd p
  intro d hd
  obtain rfl : ⟨q, c⟩ = d := by simpa using hd
  exact hc

/-- A look-up of the variable. -/
def use : List Char := ['V', 'a', 'r', '(', '\'', 'a', '\'', ')']

theorem readsUnder_use (hd : depth + 1 ≤ maxNesting) (hv : vars.get? "a" = some v) :
    ReadsUnder vars depth use v := by
  refine readsUnder_operand fun p rest _ => ?_
  let opening := p.afterAll ['V', 'a', 'r']
  let closing := (opening.after '(').afterAll ['\'', 'a', '\'']
  refine ⟨.var p opening (.sum (.strings (opening.after '(') "a" []) .done) closing, ?_,
    fun platform => .varBound .str hv⟩
  have hargument : Lexes depth (locate opening ['(', '\'', 'a', '\'', ')'])
      [⟨opening, .openParen⟩, ⟨opening.after '(', .string "a"⟩, ⟨closing, .closeParen⟩] depth
      rest :=
    lexes_enclosed (fun _ _ => rfl) (fun _ _ => rfl) rfl rfl hd opening
      (lexes_key hd (opening.after '(') (by decide) closing rest)
  have hname : Lexes depth (locate p ['V', 'a', 'r']) [⟨p, .name "Var"⟩] depth
      (locate opening ['(', '\'', 'a', '\'', ')'] ++ rest) := by
    have hisName : IsName "Var" := ⟨'V', ['a', 'r'], rfl, by decide, by decide⟩
    refine lexes_name hisName ?_ (by omega) p
    intro d hd
    obtain rfl : ⟨opening, '('⟩ = d := by simpa using hd
    exact ⟨rfl, rfl⟩
  exact hname.locate_append hargument

/-- A mapping of the variable. -/
def entry (inner : List Char) : List Char :=
  '\x7b' :: (['\'', 'a', '\''] ++ ([':', ' '] ++ inner) ++ ['\x7d'])

theorem ReadsUnder.entry (hd : depth + 1 ≤ maxNesting) (h : ReadsUnder vars (depth + 1) inner v) :
    ReadsUnder vars depth (entry inner) (.map [("a", v)]) := by
  refine readsUnder_operand fun p rest _ => ?_
  let key := p.after '\x7b'
  let colon := key.afterAll ['\'', 'a', '\'']
  let value := colon.afterAll [':', ' ']
  let closing := key.afterAll (['\'', 'a', '\''] ++ ([':', ' '] ++ inner))
  have hclosing : closing = value.afterAll inner := by
    show List.foldl _ _ _ = List.foldl _ (List.foldl _ (List.foldl _ _ _) _) _
    rw [List.foldl_append, List.foldl_append]
  obtain ⟨x, hx, hv⟩ := h value (⟨closing, '\x7d'⟩ :: rest) (StartsIn.cons (by decide) closing rest)
  refine ⟨.map p (.first (.sum (.strings key "a" []) .done) colon x .done) closing, ?_,
    fun platform => .map (.cons .str (hv platform) .nil) (List.pairwise_singleton _ _) fun _ => rfl⟩
  have hkey : Lexes (depth + 1) (locate key ['\'', 'a', '\'']) [⟨key, .string "a"⟩] (depth + 1)
      (locate colon ([':', ' '] ++ inner) ++ ⟨closing, '\x7d'⟩ :: rest) := by
    rw [List.cons_append, Source.locate_cons colon, List.cons_append]
    exact lexes_key hd key (by decide) _ _
  have hmap := lexes_braced hd (hkey.locate_append ((lexes_colon hd colon _).locate_append hx))
  rw [Primary.tokens, Entries.tokens, MoreEntries.tokens, List.append_nil]
  exact hmap

/-! ### Statements -/

/-- An assignment. -/
def line (name : String) (value : List Char) : String :=
  name ++ String.ofList ([' ', '=', ' '] ++ value)

theorem exists_statement {name : String} {cs : List Char} (hname : IsName name)
    (h : ReadsUnder vars 0 cs v) :
    ∃ s : Statement, statementsOf (line name cs) = .ok [s] ∧ s.target = name ∧
      ∀ platform, Evaluates platform vars s.value (.ok v) := by
  have htext : (line name cs).toList = name.toList ++ ([' ', '=', ' '] ++ cs) := by
    rw [line, String.toList_append, String.toList_ofList]
  let sign := Position.start.afterAll name.toList
  let stop := Position.start.afterAll (line name cs).toList
  obtain ⟨x, hx, hv⟩ := h (sign.afterAll [' ', '=', ' ']) [] (StartsIn.nil _)
  let a : Assignment := ⟨.start, name, sign.after ' ', x⟩
  have hread := Printed.lexes_line hname hx stop []
  rw [List.append_nil, List.append_nil, tokensFrom_end, ← htext, List.reverse_reverse] at hread
  have htokens : tokenize (line name cs) = .ok (Program.last a stop).tokens := hread
  refine ⟨a.tree, ?_, rfl, hv⟩
  rw [statementsOf, htokens, ok_bind, (Program.last a stop).parse_tokens
    (nestedWithin_of_tokenize htokens)]
  rfl

/-! ### Runs -/

/-- Run on any platform, the text assigns the variables so many times and leaves the scope. -/
def Leaves (text : String) (times : Nat) (scope : Dict Value) : Prop :=
  ∃ program, statementsOf text = .ok program ∧ rebindings program = times ∧
    ∀ platform, (runFrom platform (pure []) program).outcome = .ok scope

variable {text : String} {times : Nat} {scope : Dict Value} {cs : List Char} {name : String}

theorem outcome_runFrom_single {platform : Platform} {s : Statement}
    (hv : Evaluates platform (varsOf scope) s.value (.ok v)) (ht : Takes s.target v) :
    (runFrom platform (pure scope) [s]).outcome = .ok (scope.insert s.target v) := by
  rw [outcome_runFrom, Traced.outcome_pure, ok_bind, List.foldlM_cons, outcome_step,
    hv.outcome_eval, ok_bind, checkTarget_ok ht]
  rfl

theorem leaves_line (hname : IsName name) (h : ReadsUnder [] 0 cs v) (ht : Takes name v) :
    Leaves (line name cs) (if name = "vars" then 1 else 0) [(name, v)] := by
  obtain ⟨s, hs, rfl, hv⟩ := exists_statement hname h
  refine ⟨[s], hs, ?_, fun platform => outcome_runFrom_single (hv platform) ht⟩
  simp [rebindings, List.countP_cons]

theorem Leaves.line (hl : Leaves text times scope) (hname : IsName name)
    (h : ReadsUnder (varsOf scope) 0 cs v) (ht : Takes name v) :
    Leaves (text ++ "\n" ++ line name cs) (times + if name = "vars" then 1 else 0)
      (scope.insert name v) := by
  obtain ⟨program, hp, rfl, hrun⟩ := hl
  obtain ⟨s, hs, rfl, hv⟩ := exists_statement hname h
  have hbelow := Lines.statementsOf_below hp (Deepest.line s.target cs)
  rw [hs] at hbelow
  refine ⟨_, hbelow, ?_, fun platform => ?_⟩
  · rw [rebindings_append]
    simp [rebindings, List.countP_cons, Statement.moved]
  · rw [runFrom_append, outcome_runFrom_bind, hrun, ok_bind, outcome_runFrom_moved,
      outcome_runFrom_single (hv platform) ht]
    rfl

/-! ### The bound is reached -/

/-- The variable so deep in lists. -/
def boundTo (n : Nat) : Dict Value := [("a", enclosed (.list []) n)]

/-- Assignments of the variables, each but the first around what they were before. -/
def deepening : Nat → String
  | 0 => line "vars" (entry (bracketed 98 ['[', ']']))
  | n + 1 => deepening n ++ "\n" ++ line "vars" (entry (bracketed 98 use))

theorem leaves_deepening (n : Nat) :
    Leaves (deepening n) (n + 1) [("vars", .map (boundTo (98 * (n + 1))))] := by
  have hname : IsName "vars" := ⟨'v', ['a', 'r', 's'], rfl, by decide, by decide⟩
  induction n with
  | zero =>
    have hread : ReadsUnder [] 0 (entry (bracketed 98 ['[', ']'])) (.map (boundTo 98)) :=
      .entry (by decide) (.bracketed (by decide) (readsUnder_empty [] (by decide)))
    exact leaves_line hname hread fun _ => ⟨_, rfl⟩
  | succ n ih =>
    have hread : ReadsUnder (boundTo (98 * (n + 1))) 0 (entry (bracketed 98 use))
        (.map (boundTo (98 * (n + 1) + 98))) := by
      rw [boundTo, boundTo, ← enclosed_enclosed _ _ 98]
      exact .entry (by decide) (.bracketed (by decide) (readsUnder_use (by decide) rfl))
    exact ih.line hname hread fun _ => ⟨_, rfl⟩

/-- A statement behind the assignments puts so many brackets around the variable. -/
theorem leaves_use (n : Nat) {m : Nat} (hm : m + 1 ≤ maxNesting) :
    Leaves (deepening n ++ "\n" ++ line "x" (bracketed m use)) (n + 1)
      [("vars", .map (boundTo (98 * (n + 1)))), ("x", enclosed (.list []) (98 * (n + 1) + m))] := by
  have hread : ReadsUnder (boundTo (98 * (n + 1))) 0 (bracketed m use)
      (enclosed (.list []) (98 * (n + 1) + m)) := by
    rw [← enclosed_enclosed]
    exact .bracketed (by omega) (readsUnder_use (by omega) rfl)
  exact (leaves_deepening n).line ⟨'x', [], rfl, by decide, by decide⟩ hread
    fun hx => absurd hx (by decide)

theorem leaves_list :
    Leaves (line "x" (bracketed 99 ['[', ']'])) 0 [("x", enclosed (.list []) 99)] :=
  leaves_line ⟨'x', [], rfl, by decide, by decide⟩
    (.bracketed (by decide) (readsUnder_empty [] (by decide))) fun hx => absurd hx (by decide)

/-- What a text leaves bound to `x` is a value of the file. -/
theorem Leaves.outcome_evaluate (hl : Leaves text times scope) (hx : ("x", v) ∈ scope) :
    ∃ program d, statementsOf text = .ok program ∧ rebindings program = times ∧
      (∀ platform source, (evaluate platform source text).outcome = .ok d) ∧
      ("x", v) ∈ d.bindings := by
  obtain ⟨program, hp, ht, hrun⟩ := hl
  refine ⟨program, .ofScope scope, hp, ht, fun platform source => ?_, ?_⟩
  · rw [Lines.outcome_evaluate_eq, hp]
    show (run platform program).outcome = _
    rw [outcome_run, hrun, ok_bind]
  · have hscope : ("x", v) ∈ (DepsFile.ofScope scope).scope := by
      simp [DepsFile.ofScope, Dict.erase, hx]
    simp [DepsFile.bindings, hscope]

end Deepest

namespace Evaluation

open Deepest

/-- For any number of assignments of `vars` some text reaches the bound. -/
theorem nesting_reached (n : Nat) :
    ∃ (text : String) (program : List Statement) (d : DepsFile),
      statementsOf text = .ok program ∧ rebindings program = n ∧
        (∀ platform source, (evaluate platform source text).outcome = .ok d) ∧
        ∃ binding ∈ d.bindings, binding.2.nesting = maxNesting + growth n := by
  cases n with
  | zero =>
    obtain ⟨program, d, hp, ht, hd, hx⟩ := leaves_list.outcome_evaluate List.mem_cons_self
    refine ⟨_, program, d, hp, ht, hd, _, hx, ?_⟩
    rw [nesting_enclosed]
    rfl
  | succ n =>
    obtain ⟨program, d, hp, ht, hd, hx⟩ := (leaves_use n (m := 99) (by decide)).outcome_evaluate
      (List.mem_cons_of_mem _ List.mem_cons_self)
    refine ⟨_, program, d, hp, ht, hd, _, hx, ?_⟩
    rw [nesting_enclosed, growth]
    show 1 + (98 * (n + 1) + 99) = 100 + 98 * (n + 1)
    omega

/-- The limit on open brackets does not bound evaluated values. It does where `vars` is not
assigned; each assignment of `vars` lets values nest two brackets short of the limit deeper, and no
smaller bound holds of all texts with as many. -/
theorem nesting_evaluated (platform : Platform) (source text : String) {program : List Statement}
    {d : DepsFile} (hp : statementsOf text = .ok program)
    (h : (evaluate platform source text).outcome = .ok d) :
    (∀ binding ∈ d.bindings, binding.2.nesting ≤ maxNesting + growth (rebindings program)) ∧
      ∃ (text' : String) (program' : List Statement) (d' : DepsFile),
        statementsOf text' = .ok program' ∧ rebindings program' = rebindings program ∧
          (∀ platform source, (evaluate platform source text').outcome = .ok d') ∧
          ∃ binding ∈ d'.bindings,
            binding.2.nesting = maxNesting + growth (rebindings program) :=
  ⟨nesting_of_evaluate hp h, nesting_reached (rebindings program)⟩

/-- One assignment of `vars`. -/
theorem nesting_evaluated_vars :
    statementsOf Lines.varsLine = .ok Lines.varsStatements ∧
      (evaluate .builtIn "DEPS" Lines.varsLine).outcome = .ok ⟨[("a", .str "b")], [], [], []⟩ ∧
      ∀ binding ∈ (⟨[("a", .str "b")], [], [], []⟩ : DepsFile).bindings,
        binding.2.nesting ≤ maxNesting + growth (rebindings Lines.varsStatements) := by
  have hvalue : (evaluate .builtIn "DEPS" Lines.varsLine).outcome =
      .ok ⟨[("a", .str "b")], [], [], []⟩ := by
    rw [Lines.outcome_evaluate_eq, Lines.statementsOf_varsLine]
    rfl
  exact ⟨Lines.statementsOf_varsLine, hvalue,
    (nesting_evaluated .builtIn "DEPS" Lines.varsLine Lines.statementsOf_varsLine hvalue).1⟩

/-- A list of as many brackets as may be open inside the mapping around it, and two more around its
look-up. -/
theorem nesting_beyond_limit :
    ∃ d, (evaluate .builtIn "DEPS" ("vars = \x7b'a': " ++ String.ofList (bracketed 99 []) ++
        "\x7d\nx = [[Var('a')]]")).outcome = .ok d ∧
      ∃ binding ∈ d.bindings, maxNesting < binding.2.nesting := by
  have htext : "vars = \x7b'a': " ++ String.ofList (bracketed 99 []) ++ "\x7d\nx = [[Var('a')]]" =
      deepening 0 ++ "\n" ++ line "x" (bracketed 2 use) := by
    decide +kernel
  obtain ⟨-, d, -, -, hd, hx⟩ := (leaves_use 0 (m := 2) (by decide)).outcome_evaluate
    (List.mem_cons_of_mem _ List.mem_cons_self)
  refine ⟨d, ?_, _, hx, ?_⟩
  · rw [htext]
    exact hd .builtIn "DEPS"
  · rw [nesting_enclosed]
    decide

end Evaluation

end PinnedDeps
