import PinnedDeps.Proofs.Syntax.Descent

/-! Both readers read the same. A call of the reader by descent stands for a stretch of the tokens
that the other one takes one by one, from a point of its own to another: the brackets that are open
are the levels there, and a call that fails is a token that is refused. So what descent gives is
what parsing gives, and where descent ends parsing ends. -/

namespace PinnedDeps

open Reader Grammar

namespace Descent

variable {tokens : List Token} {call : Call} {i j : Nat} {outcome : Except SyntaxError call.Result}
  {r r' : Reader} {t : Token} {e : SyntaxError}

/-! ### From the cursor on -/

/-- The reader goes on with the tokens from the cursor on. -/
def resume (tokens : List Token) (r : Reader) (i : Nat) : Except SyntaxError Reader :=
  r.readAll (tokens.drop i)

theorem drop_of_getElem? (ht : tokens[i]? = some t) : tokens.drop i = t :: tokens.drop (i + 1) := by
  obtain ⟨hlt, rfl⟩ := List.getElem?_eq_some_iff.mp ht
  exact List.drop_eq_getElem_cons hlt

theorem resume_step (r' : Reader) (ht : tokens[i]? = some t) (h : r.read t = .ok r')
    (hne : t.item ≠ .eof) : resume tokens r i = resume tokens r' (i + 1) := by
  unfold resume
  rw [drop_of_getElem? ht]
  exact readAll_cons r' h hne _

theorem resume_refused (ht : tokens[i]? = some t) (h : r.read t = .error e) :
    resume tokens r i = .error e := by
  unfold resume
  rw [drop_of_getElem? ht, readAll, h]

theorem resume_congr (ht : tokens[i]? = some t) (h : r.read t = r'.read t) :
    resume tokens r i = resume tokens r' i := by
  unfold resume
  rw [drop_of_getElem? ht]
  exact readAll_cons_congr h _

theorem resume_stop (ht : tokens[i]? = some t) (h : r.read t = .ok r') (heof : t.item = .eof) :
    resume tokens r i = .ok r' := by
  unfold resume
  rw [drop_of_getElem? ht, readAll, h]
  exact if_pos heof

theorem resume_opened {done : List Statement} {target : String} {place : Position}
    {outer : List Level} {before : Option Operands} {pos : Position} (bracket : Bracket)
    (ht : tokens[i]? = some t)
    (h : r.read t = (enter ⟨target, place, outer, before⟩ pos bracket).map (⟨done, ·⟩))
    (hne : t.item ≠ .eof) (hdepth : outer.length < maxNesting) :
    resume tokens r i =
      resume tokens ⟨done, .value ⟨target, place, ⟨bracket, before⟩ :: outer, none⟩⟩ (i + 1) :=
  resume_step _ ht (h.trans (map_enter hdepth done)) hne

theorem map_then {ε α β γ : Type} (x : Except ε α) (f : α → β) (g : β → Except ε γ) :
    (x.map f >>= g) = x >>= fun a => g (f a) := by
  cases x <;> rfl

/-! ### Points and calls -/

/-- With nothing in front of it the token closes the innermost bracket, so no value starts there. -/
def Closes : List Level → Lexeme → Prop
  | ⟨.list _ _, _⟩ :: _, l => l = .closeBracket
  | ⟨.key _ _, _⟩ :: _, l => l = .closeBrace
  | _, _ => False

/-- The call takes the reader from a point to another, or to the token that it refuses. -/
def Call.Agrees (tokens : List Token) :
    (call : Call) → Nat → Except SyntaxError call.Result → Nat → Prop
  | .literals text, i, outcome, j => ∀ done ctx pos,
    resume tokens ⟨done, .text ctx pos text⟩ i =
      outcome >>= fun joined => resume tokens ⟨done, .operand ctx (.str pos joined)⟩ j
  | .primary depth, i, outcome, j => ∀ done target place levels before, levels.length = depth →
    (∀ t, before = none → tokens[i]? = some t → ¬Closes levels t.item) →
    resume tokens ⟨done, .value ⟨target, place, levels, before⟩⟩ i =
      outcome >>= fun e => resume tokens ⟨done, .operand ⟨target, place, levels, before⟩ e⟩ j
  | .expression depth, i, outcome, j => ∀ done target place levels, levels.length = depth →
    (∀ t, tokens[i]? = some t → ¬Closes levels t.item) →
    resume tokens ⟨done, .value ⟨target, place, levels, none⟩⟩ i =
      outcome >>= fun e => resume tokens ⟨done, .operand ⟨target, place, levels, none⟩ e⟩ j
  | .summands depth, i, outcome, j => ∀ done target place levels before e, levels.length = depth →
    resume tokens ⟨done, .operand ⟨target, place, levels, before⟩ e⟩ i =
      outcome >>= fun more =>
        resume tokens ⟨done, .operand ⟨target, place, levels, none⟩ (sumOnto before e more)⟩ j
  | .parenthesized depth, i, outcome, j => ∀ done target place outer before,
    outer.length + 1 = depth →
    resume tokens ⟨done, .value ⟨target, place, ⟨.paren, before⟩ :: outer, none⟩⟩ i =
      outcome >>= fun e => resume tokens ⟨done, .operand ⟨target, place, outer, before⟩ e⟩ j
  | .argument depth, i, outcome, j => ∀ done target place outer before pos,
    outer.length + 1 = depth →
    resume tokens ⟨done, .value ⟨target, place, ⟨.var pos, before⟩ :: outer, none⟩⟩ i =
      outcome >>= fun e =>
        resume tokens ⟨done, .operand ⟨target, place, outer, before⟩ (.var pos e)⟩ j
  | .items depth, i, outcome, j => ∀ done target place outer before pos read,
    outer.length + 1 = depth →
    resume tokens ⟨done, .value ⟨target, place, ⟨.list pos read, before⟩ :: outer, none⟩⟩ i =
      outcome >>= fun items => resume tokens
        ⟨done, .operand ⟨target, place, outer, before⟩ (.list pos (read.reverse ++ items))⟩ j
  | .entries depth, i, outcome, j => ∀ done target place outer before pos read,
    outer.length + 1 = depth →
    resume tokens ⟨done, .value ⟨target, place, ⟨.key pos read, before⟩ :: outer, none⟩⟩ i =
      outcome >>= fun entries => resume tokens
        ⟨done, .operand ⟨target, place, outer, before⟩ (.map pos (read.reverse ++ entries))⟩ j
  | .statement, i, outcome, j => ∀ done,
    (∀ t, tokens[i]? = some t → ¬t.item.EndsStatement) →
    resume tokens ⟨done, .outside⟩ i =
      outcome >>= fun s => resume tokens ⟨s :: done, .outside⟩ j
  | .statements, i, outcome, _ => ∀ done,
    resume tokens ⟨done, .outside⟩ i =
      outcome >>= fun program => .ok ⟨program.reverse ++ done, .outside⟩

theorem not_closes {levels : List Level} (ht : tokens[i]? = some t) (h : ¬Closes levels t.item) :
    ∀ u, tokens[i]? = some u → ¬Closes levels u.item := by
  rintro u hu
  obtain rfl := Option.some.inj (ht.symm.trans hu)
  exact h

/-! ### What stands behind an expression -/

/-- The calls that go on while there is a `+`. -/
def Call.Adds : Call → Prop
  | .expression _ | .summands _ => True
  | _ => False

/-- A sum goes on as long as it can. -/
theorem Runs.ne_plus (h : Runs tokens call i outcome j) (hc : call.Adds) {a : call.Result}
    (ha : outcome = .ok a) (hj : tokens[j]? = some t) : t.item ≠ .plus := by
  induction h with
  | noSummand ht hne =>
    obtain rfl := Option.some.inj (ht.symm.trans hj)
    exact hne
  | @summand _ _ _ _ _ outcome _ _ _ _ _ ih | @sum _ _ _ _ outcome _ _ _ _ ih =>
    cases outcome with
    | error e => cases ha
    | ok more => exact ih trivial rfl hj
  | summandFails | firstFails => cases ha
  | _ => exact hc.elim

/-! ### One token -/

theorem readValue_name (ctx : Context) {word : String} (h : ∀ c : Constant, word ≠ c.word)
    (pos : Position) : readValue ctx ⟨pos, .name word⟩ = .ok (.name ctx pos word) := by
  have htrue : word ≠ "True" := h .true
  have hfalse : word ≠ "False" := h .false
  have hnone : word ≠ "None" := h .none
  unfold readValue
  dsimp only
  rw [if_neg htrue, if_neg hfalse, if_neg hnone]

theorem resume_name {done : List Statement} (ctx : Context) {word : String} {pos : Position}
    (ht : tokens[i]? = some ⟨pos, .name word⟩) (h : ∀ c : Constant, word ≠ c.word) :
    resume tokens ⟨done, .value ctx⟩ i = resume tokens ⟨done, .name ctx pos word⟩ (i + 1) := by
  refine resume_step _ ht ?_ (by simp)
  rw [read_value, readValue_name ctx h]
  rfl

theorem readValue_of_not_startsValue {ctx : Context} (ht : ¬t.item.StartsValue)
    (hc : ctx.before = none → ¬Closes ctx.levels t.item) :
    readValue ctx t = .error ⟨t.pos, .expectedValue t.item⟩ := by
  obtain ⟨target, place, levels, before⟩ := ctx
  obtain ⟨pos, item⟩ := t
  cases item with
  | string | integer | name | openBrace | openBracket | openParen => exact absurd trivial ht
  | _ =>
    -- what closes a bracket does so only with nothing in front of it
    rcases before with _ | before <;> rcases levels with _ | ⟨⟨bracket, outside⟩, outer⟩
    all_goals first | rfl | (cases bracket <;> first | rfl | exact absurd rfl (hc rfl))

theorem enter_of_limit {ctx : Context} (h : maxNesting ≤ ctx.levels.length) (pos : Position)
    (bracket : Bracket) : enter ctx pos bracket = .error ⟨pos, .tooDeep⟩ :=
  if_neg (Nat.not_lt.mpr h)

theorem readValue_of_limit {ctx : Context} (ht : t.item.Opens)
    (h : maxNesting ≤ ctx.levels.length) : readValue ctx t = .error ⟨t.pos, .tooDeep⟩ := by
  obtain ⟨pos, item⟩ := t
  rcases ht with h' | h' | h' <;> obtain rfl : item = _ := h' <;> exact enter_of_limit h pos _

variable {ctx : Context} {level : Level} {outer : List Level} {before : Option Operands} {x : Expr}

theorem readInside_paren (hclose : t.item ≠ .closeParen) (hcomma : t.item ≠ .comma) :
    readInside ctx ⟨.paren, before⟩ outer x t = .error ⟨t.pos, .unclosedParen t.item⟩ := by
  obtain ⟨pos, item⟩ := t
  cases item with
  | closeParen => exact absurd rfl hclose
  | comma => exact absurd rfl hcomma
  | _ => rfl

theorem readInside_var {pos : Position} (hclose : t.item ≠ .closeParen) :
    readInside ctx ⟨.var pos, before⟩ outer x t = .error ⟨t.pos, .unclosedVar t.item⟩ := by
  obtain ⟨pos, item⟩ := t
  cases item with
  | closeParen => exact absurd rfl hclose
  | _ => rfl

theorem readInside_list {pos : Position} {items : List Expr} (hclose : t.item ≠ .closeBracket)
    (hcomma : t.item ≠ .comma) : readInside ctx ⟨.list pos items, before⟩ outer x t =
      .error ⟨t.pos, .listSeparator t.item⟩ := by
  obtain ⟨pos, item⟩ := t
  cases item with
  | closeBracket => exact absurd rfl hclose
  | comma => exact absurd rfl hcomma
  | _ => rfl

theorem readInside_key {pos : Position} {entries : List (Expr × Expr)} (hcolon : t.item ≠ .colon) :
    readInside ctx ⟨.key pos entries, before⟩ outer x t =
      .error ⟨t.pos, .missingColon t.item⟩ := by
  obtain ⟨pos, item⟩ := t
  cases item with
  | colon => exact absurd rfl hcolon
  | _ => rfl

theorem readInside_entry {pos : Position} {entries : List (Expr × Expr)} {key : Expr}
    (hclose : t.item ≠ .closeBrace) (hcomma : t.item ≠ .comma) :
    readInside ctx ⟨.entry pos entries key, before⟩ outer x t =
      .error ⟨t.pos, .entrySeparator t.item⟩ := by
  obtain ⟨pos, item⟩ := t
  cases item with
  | closeBrace => exact absurd rfl hclose
  | comma => exact absurd rfl hcomma
  | _ => rfl

/-- A token behind an expression that no separator, bracket or `+` is refused inside a bracket. -/
theorem resume_inside_refused {done : List Statement} {target : String} {place : Position}
    (ht : tokens[i]? = some t) (hplus : t.item ≠ .plus)
    (h : readInside ⟨target, place, level :: outer, none⟩ level outer x t = .error e) :
    resume tokens ⟨done, .operand ⟨target, place, level :: outer, none⟩ x⟩ i = .error e := by
  refine resume_refused ht ?_
  show readAfter done _ x t = _
  rw [readAfter_inside hplus]
  show Except.map _ (readInside _ level outer x t) = _
  rw [h]
  rfl

/-- A statement starts with a name. -/
theorem resume_noTarget {done : List Statement} (ht : tokens[i]? = some t)
    (hname : ∀ name, t.item ≠ .name name) (hend : ¬t.item.EndsStatement) :
    resume tokens ⟨done, .outside⟩ i = .error ⟨t.pos, .expectedAssignment t.item⟩ := by
  refine resume_refused ht ?_
  obtain ⟨pos, item⟩ := t
  cases item with
  | name name => exact absurd rfl (hname name)
  | newline => exact absurd (.inl rfl) hend
  | semicolon => exact absurd (.inr (.inl rfl)) hend
  | eof => exact absurd (.inr (.inr rfl)) hend
  | _ => rfl

/-- An `=` comes behind it. -/
theorem resume_notAssigned {done : List Statement} {target : String} {pos : Position}
    (ht : tokens[i]? = some ⟨pos, .name target⟩) (hs : tokens[i + 1]? = some t)
    (hassign : t.item ≠ .assign) :
    resume tokens ⟨done, .outside⟩ i = .error ⟨t.pos, .notAnAssignment target t.item⟩ := by
  rw [resume_step ⟨done, .target pos target⟩ ht rfl (by simp)]
  refine resume_refused hs ?_
  obtain ⟨at', item⟩ := t
  cases item with
  | assign => exact absurd rfl hassign
  | _ => rfl

theorem resume_blank {done : List Statement} (ht : tokens[i]? = some t)
    (hend : t.item.EndsStatement) (hne : t.item ≠ .eof) :
    resume tokens ⟨done, .outside⟩ i = resume tokens ⟨done, .outside⟩ (i + 1) := by
  obtain ⟨pos, item⟩ := t
  have hitem : item = .newline ∨ item = .semicolon ∨ item = .eof := hend
  rcases hitem with rfl | rfl | rfl
  · exact resume_step _ ht rfl (by simp)
  · exact resume_step _ ht rfl (by simp)
  · exact absurd rfl hne

theorem resume_target {done : List Statement} {target : String} {pos sign : Position}
    (ht : tokens[i]? = some ⟨pos, .name target⟩) (hs : tokens[i + 1]? = some ⟨sign, .assign⟩) :
    resume tokens ⟨done, .outside⟩ i =
      resume tokens ⟨done, .value ⟨target, pos, [], none⟩⟩ (i + 2) := by
  rw [resume_step ⟨done, .target pos target⟩ ht rfl (by simp)]
  exact resume_step _ hs rfl (by simp)

/-- What ends a statement is read as if it stood between statements. -/
theorem resume_assigned {done : List Statement} {target : String} {pos : Position}
    (ht : tokens[i]? = some t) (hend : t.item.EndsStatement) :
    resume tokens ⟨done, .operand ⟨target, pos, [], none⟩ x⟩ i =
      resume tokens ⟨⟨target, pos, x⟩ :: done, .outside⟩ (behind i t) := by
  obtain ⟨at', item⟩ := t
  have hitem : item = .newline ∨ item = .semicolon ∨ item = .eof := hend
  rcases hitem with rfl | rfl | rfl
  · exact resume_step _ ht rfl (by simp)
  · exact resume_step _ ht rfl (by simp)
  · exact (resume_stop ht rfl rfl).trans (resume_stop ht rfl rfl).symm

theorem resume_unended {done : List Statement} {target : String} {pos : Position}
    (ht : tokens[i]? = some t) (hplus : t.item ≠ .plus) (hend : ¬t.item.EndsStatement) :
    resume tokens ⟨done, .operand ⟨target, pos, [], none⟩ x⟩ i =
      .error ⟨t.pos, .unexpectedAfterValue target t.item⟩ := by
  refine resume_refused ht ?_
  obtain ⟨at', item⟩ := t
  cases item with
  | plus => exact absurd rfl hplus
  | newline => exact absurd (.inl rfl) hend
  | semicolon => exact absurd (.inr (.inl rfl)) hend
  | eof => exact absurd (.inr (.inr rfl)) hend
  | _ => rfl

variable {done : List Statement} {target : String} {place pos : Position} {depth : Nat}

/-- An item of a list. -/
theorem resume_item {outcome : Except SyntaxError Expr} {items : List Expr}
    (ht : tokens[i]? = some t) (hne : t.item ≠ .closeBracket) (hlen : outer.length + 1 = depth)
    (hitem : (Call.expression depth).Agrees tokens i outcome j) :
    resume tokens ⟨done, .value ⟨target, place, ⟨.list pos items, before⟩ :: outer, none⟩⟩ i =
      outcome >>= fun e => resume tokens
        ⟨done, .operand ⟨target, place, ⟨.list pos items, before⟩ :: outer, none⟩ e⟩ j :=
  hitem done target place _ hlen (not_closes ht hne)

/-- A key of a mapping. -/
theorem resume_key {outcome : Except SyntaxError Expr} {entries : List (Expr × Expr)}
    (ht : tokens[i]? = some t) (hne : t.item ≠ .closeBrace) (hlen : outer.length + 1 = depth)
    (hkey : (Call.expression depth).Agrees tokens i outcome j) :
    resume tokens ⟨done, .value ⟨target, place, ⟨.key pos entries, before⟩ :: outer, none⟩⟩ i =
      outcome >>= fun e => resume tokens
        ⟨done, .operand ⟨target, place, ⟨.key pos entries, before⟩ :: outer, none⟩ e⟩ j :=
  hkey done target place _ hlen (not_closes ht hne)

/-- A key, a colon and the value. -/
theorem resume_entry {key : Expr} {colon : Position} {outcome : Except SyntaxError Expr}
    {entries : List (Expr × Expr)} {k : Nat} (ht : tokens[i]? = some t)
    (hne : t.item ≠ .closeBrace) (hlen : outer.length + 1 = depth)
    (hkey : (Call.expression depth).Agrees tokens i (.ok key) j)
    (hs : tokens[j]? = some ⟨colon, .colon⟩)
    (hvalue : (Call.expression depth).Agrees tokens (j + 1) outcome k) :
    resume tokens ⟨done, .value ⟨target, place, ⟨.key pos entries, before⟩ :: outer, none⟩⟩ i =
      outcome >>= fun e => resume tokens
        ⟨done, .operand ⟨target, place, ⟨.entry pos entries key, before⟩ :: outer, none⟩ e⟩ k := by
  refine (resume_key ht hne hlen hkey).trans ?_
  refine (resume_step _ hs rfl (by simp)).trans ?_
  exact hvalue done target place (⟨.entry pos entries key, before⟩ :: outer) hlen fun _ _ => id

/-! ### Agreement -/

/-- By the rules. The calls of a rule take the reader from one of its points to the next, and the
tokens that the rule itself looks at do the rest. -/
theorem Runs.agrees (h : Runs tokens call i outcome j) : call.Agrees tokens i outcome j := by
  induction h with
  -- literals
  | literal ht _ ih =>
    intro done ctx pos
    rw [resume_step ⟨done, .text ctx pos _⟩ ht rfl (by simp)]
    exact ih done ctx pos
  | noLiteral ht hne =>
    intro done ctx pos
    exact resume_congr ht (read_text hne done ctx pos _)
  -- operands
  | @strings _ text pos _ _ _ ht _ ih =>
    intro done target place levels before _ _
    rw [resume_step ⟨done, .text _ pos text⟩ ht rfl (by simp), map_then]
    exact ih done _ pos
  | @integer _ n pos _ ht =>
    intro done target place levels before _ _
    exact resume_step _ ht rfl (by simp)
  | @constant _ pos _ c ht =>
    intro done target place levels before _ _
    refine resume_step _ ht ?_ (by simp)
    rw [read_value, readValue_constant]
    rfl
  | @map _ pos _ _ _ ht hdepth _ ih =>
    intro done target place levels before hlen _
    rw [resume_opened (.key pos []) ht rfl (by simp) (hlen ▸ hdepth), map_then]
    exact ih done target place levels before pos [] (congrArg _ hlen)
  | @list _ pos _ _ _ ht hdepth _ ih =>
    intro done target place levels before hlen _
    rw [resume_opened (.list pos []) ht rfl (by simp) (hlen ▸ hdepth), map_then]
    exact ih done target place levels before pos [] (congrArg _ hlen)
  | paren ht hdepth _ ih =>
    intro done target place levels before hlen _
    rw [resume_opened .paren ht rfl (by simp) (hlen ▸ hdepth)]
    exact ih done target place levels before (congrArg _ hlen)
  | tooDeep ht hopens hdepth =>
    intro done target place levels before hlen _
    refine resume_refused ht ?_
    rw [read_value, readValue_of_limit hopens (hlen ▸ hdepth)]
    rfl
  | @var _ pos _ _ _ _ ht hs hdepth _ ih =>
    intro done target place levels before hlen _
    rw [resume_name _ ht fun c => (c.word_ne_var).symm,
      resume_opened (.var pos) hs rfl (by simp) (hlen ▸ hdepth), map_then]
    exact ih done target place levels before pos (congrArg _ hlen)
  | varTooDeep ht hs hdepth =>
    intro done target place levels before hlen _
    rw [resume_name _ ht fun c => (c.word_ne_var).symm]
    refine resume_refused hs ?_
    show Except.map _ (enter _ _ _) = _
    rw [enter_of_limit (hlen ▸ hdepth)]
    rfl
  | otherCall ht hvar hother hs =>
    intro done target place levels before _ _
    rw [resume_name _ ht hother]
    exact resume_refused hs (if_neg hvar)
  | @reference _ _ _ t _ ht hother hs hne =>
    intro done target place levels before _ _
    rw [resume_name _ ht hother]
    refine resume_refused hs ?_
    obtain ⟨at', item⟩ := t
    cases item with
    | openParen => exact absurd rfl hne
    | _ => rfl
  | noValue ht hne =>
    intro done target place levels before _ hc
    refine resume_refused ht ?_
    rw [read_value, readValue_of_not_startsValue hne fun hb => hc _ hb ht]
    rfl
  -- sums
  | @sum _ first _ _ _ _ _ _ ihfirst ihrest =>
    intro done target place levels hlen hc
    rw [ihfirst done target place levels none hlen fun t _ => hc t, map_then]
    exact ihrest done target place levels none first hlen
  | firstFails _ ih =>
    intro done target place levels hlen hc
    exact ih done target place levels none hlen fun t _ => hc t
  | noSummand ht hne =>
    intro done target place levels before x _
    refine (resume_congr ht (read_operand hne done _ x)).trans ?_
    rw [← sumOnto_nil]
    rfl
  | @summand _ operand pos _ _ _ _ ht _ _ ihoperand ihrest =>
    intro done target place levels before x hlen
    rw [resume_step ⟨done, .value ⟨target, place, levels, some (addOperand before x pos)⟩⟩ ht rfl
      (by simp), map_then]
    refine (ihoperand done target place levels (some _) hlen fun _ => nofun).trans ?_
    refine (ihrest done target place levels _ operand hlen).trans ?_
    simp only [sumOnto_addOperand]
  | @summandFails _ _ pos _ _ ht _ ih =>
    intro done target place levels before x hlen
    rw [resume_step ⟨done, .value ⟨target, place, levels, some (addOperand before x pos)⟩⟩ ht rfl
      (by simp)]
    exact ih done target place levels _ hlen fun _ => nofun
  -- round brackets
  | closed _ ht ih =>
    intro done target place outer before hlen
    refine (ih done target place (⟨.paren, before⟩ :: outer) hlen fun _ _ => id).trans ?_
    exact resume_step _ ht rfl (by simp)
  | tuple _ ht ih =>
    intro done target place outer before hlen
    refine (ih done target place (⟨.paren, before⟩ :: outer) hlen fun _ _ => id).trans ?_
    exact resume_refused ht rfl
  | unclosed he ht hclose hcomma ih =>
    intro done target place outer before hlen
    refine (ih done target place (⟨.paren, before⟩ :: outer) hlen fun _ _ => id).trans ?_
    exact resume_inside_refused ht (he.ne_plus trivial rfl ht) (readInside_paren hclose hcomma)
  | insideFails _ ih =>
    intro done target place outer before hlen
    exact ih done target place (⟨.paren, before⟩ :: outer) hlen fun _ _ => id
  | argumentClosed _ ht ih =>
    intro done target place outer before pos hlen
    refine (ih done target place (⟨.var pos, before⟩ :: outer) hlen fun _ _ => id).trans ?_
    exact resume_step _ ht rfl (by simp)
  | argumentUnclosed he ht hclose ih =>
    intro done target place outer before pos hlen
    refine (ih done target place (⟨.var pos, before⟩ :: outer) hlen fun _ _ => id).trans ?_
    exact resume_inside_refused ht (he.ne_plus trivial rfl ht) (readInside_var hclose)
  | argumentFails _ ih =>
    intro done target place outer before pos hlen
    exact ih done target place (⟨.var pos, before⟩ :: outer) hlen fun _ _ => id
  -- lists
  | noItem ht =>
    intro done target place outer before pos read _
    show _ = resume tokens ⟨done, .operand _ (.list pos (read.reverse ++ []))⟩ _
    rw [List.append_nil]
    exact resume_step _ ht rfl (by simp)
  | lastItem ht hne _ hs ih =>
    intro done target place outer before pos read hlen
    refine (resume_item ht hne hlen ih).trans ?_
    refine (resume_step _ hs rfl (by simp)).trans ?_
    simp only [leave, List.reverse_cons]
    rfl
  | @item _ _ item _ _ _ _ _ ht hne _ hs _ ih ihrest =>
    intro done target place outer before pos read hlen
    refine (resume_item ht hne hlen ih).trans ?_
    refine (resume_step _ hs rfl (by simp)).trans ?_
    refine (ihrest done target place outer before pos (item :: read) hlen).trans ?_
    simp only [map_then, List.reverse_cons, List.append_assoc, List.singleton_append]
  | itemFails ht hne _ ih =>
    intro done target place outer before pos read hlen
    exact resume_item ht hne hlen ih
  | itemSeparator ht hne he hs hclose hcomma ih =>
    intro done target place outer before pos read hlen
    refine (resume_item ht hne hlen ih).trans ?_
    exact resume_inside_refused hs (he.ne_plus trivial rfl hs) (readInside_list hclose hcomma)
  -- mappings
  | noEntry ht =>
    intro done target place outer before pos read _
    show _ = resume tokens ⟨done, .operand _ (.map pos (read.reverse ++ []))⟩ _
    rw [List.append_nil]
    exact resume_step _ ht rfl (by simp)
  | lastEntry ht hne _ hs _ hu ihkey ihvalue =>
    intro done target place outer before pos read hlen
    refine (resume_entry ht hne hlen ihkey hs ihvalue).trans ?_
    refine (resume_step _ hu rfl (by simp)).trans ?_
    simp only [leave, List.reverse_cons]
    rfl
  | @entry _ _ key value _ _ _ _ _ _ _ ht hne _ hs _ hu _ ihkey ihvalue ihrest =>
    intro done target place outer before pos read hlen
    refine (resume_entry ht hne hlen ihkey hs ihvalue).trans ?_
    refine (resume_step _ hu rfl (by simp)).trans ?_
    refine (ihrest done target place outer before pos ((key, value) :: read) hlen).trans ?_
    simp only [map_then, List.reverse_cons, List.append_assoc, List.singleton_append]
  | keyFails ht hne _ ih =>
    intro done target place outer before pos read hlen
    exact resume_key ht hne hlen ih
  | missingColon ht hne hkey hs hcolon ih =>
    intro done target place outer before pos read hlen
    refine (resume_key ht hne hlen ih).trans ?_
    exact resume_inside_refused hs (hkey.ne_plus trivial rfl hs) (readInside_key hcolon)
  | valueFails ht hne _ hs _ ihkey ihvalue =>
    intro done target place outer before pos read hlen
    exact resume_entry ht hne hlen ihkey hs ihvalue
  | entrySeparator ht hne _ hs hvalue hu hclose hcomma ihkey ihvalue =>
    intro done target place outer before pos read hlen
    refine (resume_entry ht hne hlen ihkey hs ihvalue).trans ?_
    exact resume_inside_refused hu (hvalue.ne_plus trivial rfl hu) (readInside_entry hclose hcomma)
  -- statements
  | noTarget ht hname =>
    intro done hends
    exact resume_noTarget ht hname (hends _ ht)
  | notAssigned ht hs hassign =>
    intro done _
    exact resume_notAssigned ht hs hassign
  | @assignedFails target pos _ _ _ _ ht hs _ ih =>
    intro done _
    rw [resume_target ht hs]
    exact ih done target pos [] rfl fun _ _ => id
  | @assigned target pos _ _ _ _ _ ht hs _ hu hend ih =>
    intro done _
    rw [resume_target ht hs]
    refine (ih done target pos [] rfl fun _ _ => id).trans ?_
    exact resume_assigned hu hend
  | @unended target pos _ _ _ _ _ ht hs he hu hend ih =>
    intro done _
    rw [resume_target ht hs]
    refine (ih done target pos [] rfl fun _ _ => id).trans ?_
    exact resume_unended hu (he.ne_plus trivial rfl hu) hend
  -- programs
  | stop ht =>
    intro done
    exact resume_stop ht rfl rfl
  | blank ht hend hne _ ih =>
    intro done
    exact (resume_blank ht hend hne).trans (ih done)
  | @statement _ s _ _ _ _ ht hend _ _ ih ihrest =>
    intro done
    refine (ih done fun u hu => (Option.some.inj (ht.symm.trans hu)) ▸ hend).trans ?_
    refine (ihrest (s :: done)).trans ?_
    simp only [map_then, List.reverse_cons, List.append_assoc, List.singleton_append]
  | statementFails ht hend _ ih =>
    intro done
    exact ih done fun u hu => (Option.some.inj (ht.symm.trans hu)) ▸ hend

/-! ### Programs -/

theorem Runs.eq_parse {outcome : Except SyntaxError (List Statement)}
    (h : Runs tokens .statements 0 outcome j) : outcome = parse tokens := by
  have hread : Reader.start.readAll tokens =
      outcome >>= fun program => .ok ⟨program.reverse ++ [], .outside⟩ := h.agrees []
  rw [parse, hread]
  cases outcome with
  | error e => rfl
  | ok program => exact congrArg Except.ok (by simp)

/-! ### The first end marker -/

theorem marked_findIdx {last : Token} (hlast : tokens.getLast? = some last)
    (heof : last.item = .eof) : Marked tokens (tokens.findIdx (·.item = .eof)) := by
  have hlt : tokens.findIdx (·.item = .eof) < tokens.length :=
    List.findIdx_lt_length_of_exists ⟨last, List.mem_of_getLast? hlast, by simpa using heof⟩
  exact ⟨_, List.getElem?_eq_getElem hlt, by simpa using List.findIdx_getElem (w := hlt)⟩

/-- What stands behind an end marker makes no difference to a call in front of it. -/
theorem Runs.cut {stop : Nat} (h : Runs tokens call i outcome j) (hstop : Marked tokens stop)
    (hi : i ≤ stop) (more : List Token) :
    Runs (tokens.take (stop + 1) ++ more) call i outcome j := by
  refine h.congr hstop hi fun k hk => ?_
  obtain ⟨t, ht⟩ := hstop.exists_token hk
  rw [List.getElem?_append_left, List.getElem?_take_of_lt (Nat.lt_succ_of_le hk)]
  have hlt : k < tokens.length := (List.getElem?_eq_some_iff.mp ht).1
  rw [List.length_take]
  omega

/-- Tokens that end with an end marker, whether or not others stand among them. Each call that
starts in front of the first one ends, in one way, and neither passes it nor looks behind it; a call
that reads an expression goes on by a token at least. What the calls read is what is parsed, so the
tokens up to the first end marker parse as all do, whatever stands behind them. -/
theorem parse_ends_at_first_marker {last : Token} (hlast : tokens.getLast? = some last)
    (heof : last.item = .eof) :
    let stop := tokens.findIdx (·.item = .eof)
    stop < tokens.length ∧
      (∃ j, Runs tokens .statements 0 (parse tokens) j) ∧
      (∀ call i, i ≤ stop →
        ∃ outcome j, Runs tokens call i outcome j ∧ i ≤ j ∧ j ≤ stop ∧
          (∀ more, Runs (tokens.take (stop + 1) ++ more) call i outcome j) ∧
          ∀ outcome' j', Runs tokens call i outcome' j' → outcome' = outcome ∧ j' = j) ∧
      (∀ depth i e j, Runs tokens (.expression depth) i (.ok e) j → i < j) ∧
      parse (tokens.take (stop + 1)) = parse tokens ∧
      ∀ more, parse (tokens.take (stop + 1) ++ more) = parse tokens := by
  intro stop
  have hstop : Marked tokens stop := marked_findIdx hlast heof
  obtain ⟨program, j, hprogram⟩ := hstop.ends (Nat.zero_le stop) .statements
  have hcut : ∀ more, parse (tokens.take (stop + 1) ++ more) = parse tokens := fun more =>
    (hprogram.cut hstop (Nat.zero_le stop) more).eq_parse.symm.trans hprogram.eq_parse
  refine ⟨?_, ⟨j, ?_⟩, fun call i hi => ?_, fun _ _ _ _ h => h.lt_of_expression, ?_, hcut⟩
  · obtain ⟨t, ht, -⟩ := hstop
    exact (List.getElem?_eq_some_iff.mp ht).1
  · rwa [← hprogram.eq_parse]
  · obtain ⟨outcome, j, h⟩ := hstop.ends hi call
    exact ⟨outcome, j, h, h.le, h.le_stop hstop hi, h.cut hstop hi, fun _ _ h' => h'.unique h⟩
  · simpa using hcut []

/-- `x = [1,` and an end marker, with `]` and another behind it. -/
theorem parse_ends_at_first_marker_open :
    let tokens : List Token :=
      [⟨⟨1, 1⟩, .name "x"⟩, ⟨⟨1, 3⟩, .assign⟩, ⟨⟨1, 5⟩, .openBracket⟩, ⟨⟨1, 6⟩, .integer 1⟩,
        ⟨⟨1, 7⟩, .comma⟩, ⟨⟨1, 8⟩, .eof⟩, ⟨⟨1, 8⟩, .closeBracket⟩, ⟨⟨1, 9⟩, .eof⟩]
    tokens.getLast? = some ⟨⟨1, 9⟩, .eof⟩ ∧ tokens.findIdx (·.item = .eof) = 5 ∧
      (∃ j, Runs tokens .statements 0 (.error ⟨⟨1, 8⟩, .expectedValue .eof⟩) j) ∧
      parse (tokens.take 6) = .error ⟨⟨1, 8⟩, .expectedValue .eof⟩ := by
  intro tokens
  obtain ⟨-, hruns, -, -, hcut, -⟩ :=
    @parse_ends_at_first_marker tokens ⟨⟨1, 9⟩, .eof⟩ rfl rfl
  exact ⟨rfl, rfl, hruns, hcut⟩

end Descent

end PinnedDeps
