import PinnedDeps.Proofs.Grammar.Partial

/-! What the reader reads the grammar derives. A token that is accepted behind a partial derivation
leads to a partial derivation of one token more, by the cases of the reader; the end marker closes
all that is open to the left. Together with completeness: a list of tokens parses exactly when it
has a derivation within the limit of open brackets, and then to the tree of its only one. -/

namespace PinnedDeps.Grammar

open Reader

/-! ### One token -/

theorem exists_of_map_eq_ok {ε α β : Type} {x : Except ε α} {f : α → β} {b : β}
    (h : x.map f = .ok b) : ∃ a, x = .ok a ∧ f a = b := by
  cases x with
  | error e => cases h
  | ok a => exact ⟨a, rfl, Except.ok.inj h⟩

theorem eq_error_of_map {ε α β : Type} {x : Except ε α} {f : α → β} {e : ε}
    (h : x.map f = .error e) : x = .error e := by
  cases x with
  | error e' => exact congrArg Except.error (Except.error.inj h)
  | ok a => cases h

theorem exists_readInside {done : List Statement} {target : String} {place : Position}
    {level : Level} {outer : List Level} {before : Option Operands} {e : Expr} {t : Token}
    {r : Reader} (ht : t.item ≠ .plus)
    (h : readAfter done ⟨target, place, level :: outer, before⟩ e t = .ok r) :
    ∃ point, readInside ⟨target, place, level :: outer, before⟩ level outer (sumWith e before) t =
      .ok point ∧ ⟨done, point⟩ = r := by
  rw [readAfter_inside ht] at h
  exact exists_of_map_eq_ok h

theorem Unfinished.enter_step (u : Unfinished) (opened : Opened) {at' : Position} {point : Point}
    (h : enter u.context at' opened.bracket = .ok point) :
    (Pending.value { u with layers := ⟨opened, u.before⟩ :: u.layers, before := .start }).point =
      point := by
  simp only [enter] at h
  split at h
  · cases h
    rfl
  · cases h

/-- A token where a value must start. -/
theorem Unfinished.readValue_step (u : Unfinished) {t : Token} {point : Point}
    (h : readValue u.context t = .ok point) :
    ∃ y : Pending, y.point = point ∧ y.tokens = u.tokens ++ [t] := by
  obtain ⟨pos, target, sign, layers, before⟩ := u
  obtain ⟨at', item⟩ := t
  cases item with
  | string text =>
    cases h
    exact ⟨.literals _ at' text [], rfl, rfl⟩
  | integer n =>
    cases h
    exact ⟨.operand _ (.integer at' n), rfl, rfl⟩
  | openBrace =>
    refine ⟨_, enter_step _ (.keys at' .start) h, ?_⟩
    simp [Pending.tokens, Unfinished.tokens, Layer.tokens, Opened.tokens, Mapped.tokens,
      Summed.tokens]
  | openBracket =>
    refine ⟨_, enter_step _ (.list at' .start) h, ?_⟩
    simp [Pending.tokens, Unfinished.tokens, Layer.tokens, Opened.tokens, Listed.tokens,
      Summed.tokens]
  | openParen =>
    refine ⟨_, enter_step _ (.paren at') h, ?_⟩
    simp [Pending.tokens, Unfinished.tokens, Layer.tokens, Opened.tokens, Summed.tokens]
  | name word =>
    simp only [readValue] at h
    split at h
    · next hw =>
      subst hw
      cases h
      exact ⟨.operand _ (.constant at' .true), rfl, rfl⟩
    · split at h
      · next hw =>
        subst hw
        cases h
        exact ⟨.operand _ (.constant at' .false), rfl, rfl⟩
      · split at h
        · next hw =>
          subst hw
          cases h
          exact ⟨.operand _ (.constant at' .none), rfl, rfl⟩
        · cases h
          exact ⟨.name _ at' word, rfl, rfl⟩
  | closeBracket =>
    -- only behind `[` or a comma, where no operand of a sum waits
    rcases before with _ | ⟨before, p, plus⟩
    · rcases layers with _ | ⟨⟨opened, outside⟩, outer⟩
      · cases h
      · cases opened <;> cases h
        next opening items =>
          refine ⟨.operand ⟨pos, target, sign, outer, outside⟩ (.list opening items.close at'), ?_, ?_⟩
          · simp [Pending.point, Primary.tree, Listed.trees_close, leave, context]
          · simp [Pending.tokens, Unfinished.tokens, Layer.tokens, Opened.tokens, Summed.tokens,
              Primary.tokens, Listed.tokens_close]
    · cases h
  | closeBrace =>
    rcases before with _ | ⟨before, p, plus⟩
    · rcases layers with _ | ⟨⟨opened, outside⟩, outer⟩
      · cases h
      · cases opened <;> cases h
        next opening entries =>
          refine ⟨.operand ⟨pos, target, sign, outer, outside⟩ (.map opening entries.close at'), ?_, ?_⟩
          · simp [Pending.point, Primary.tree, Mapped.trees_close, leave, context]
          · simp [Pending.tokens, Unfinished.tokens, Layer.tokens, Opened.tokens, Summed.tokens,
              Primary.tokens, Mapped.tokens_close]
    · cases h
  | _ =>
    rcases before with _ | ⟨before, p, plus⟩ <;> rcases layers with _ | ⟨⟨opened, outside⟩, outer⟩
    all_goals first | cases h | (cases opened <;> cases h)

/-- A token behind a complete expression inside a bracket. -/
theorem Unfinished.readInside_step (u : Unfinished) (l : Layer) (outer : List Layer)
    (x : Expression) {t : Token} {point : Point}
    (h : readInside u.context l.level (outer.map Layer.level) x.tree t = .ok point) :
    ∃ y : Pending, y.point = point ∧
      y.tokens = (⟨u.pos, u.target, u.sign, l :: outer, .start⟩ : Unfinished).tokens ++
        x.tokens ++ [t] := by
  obtain ⟨pos, target, sign, layers, before⟩ := u
  obtain ⟨opened, outside⟩ := l
  obtain ⟨at', item⟩ := t
  cases opened with
  | list opening items =>
    cases item with
    | comma =>
      cases h
      refine ⟨.value ⟨pos, target, sign, ⟨.list opening (.comma items x at'), outside⟩ :: outer,
        .start⟩, rfl, ?_⟩
      simp [Pending.tokens, Unfinished.tokens, Layer.tokens, Opened.tokens, Listed.tokens,
        Summed.tokens]
    | closeBracket =>
      cases h
      refine ⟨.operand ⟨pos, target, sign, outer, outside⟩
        (.list opening (items.closeWith x .done) at'), ?_, ?_⟩
      · simp [Pending.point, Primary.tree, Listed.trees_closeWith, MoreItems.trees, leave, context,
          Layer.level]
      · simp [Pending.tokens, Unfinished.tokens, Layer.tokens, Opened.tokens, Summed.tokens,
          Primary.tokens, Listed.tokens_closeWith, MoreItems.tokens]
    | _ => cases h
  | keys opening entries =>
    cases item with
    | colon =>
      cases h
      refine ⟨.value ⟨pos, target, sign, ⟨.entry opening entries x at', outside⟩ :: outer,
        .start⟩, rfl, ?_⟩
      simp [Pending.tokens, Unfinished.tokens, Layer.tokens, Opened.tokens, Summed.tokens]
    | _ => cases h
  | entry opening entries key colon =>
    cases item with
    | comma =>
      cases h
      refine ⟨.value ⟨pos, target, sign,
        ⟨.keys opening (.entry entries key colon x at'), outside⟩ :: outer, .start⟩, rfl, ?_⟩
      simp [Pending.tokens, Unfinished.tokens, Layer.tokens, Opened.tokens, Mapped.tokens,
        Summed.tokens]
    | closeBrace =>
      cases h
      refine ⟨.operand ⟨pos, target, sign, outer, outside⟩
        (.map opening (entries.closeWith key colon x .done) at'), ?_, ?_⟩
      · simp [Pending.point, Primary.tree, Mapped.trees_closeWith, MoreEntries.trees, leave, context,
          Layer.level]
      · simp [Pending.tokens, Unfinished.tokens, Layer.tokens, Opened.tokens, Summed.tokens,
          Primary.tokens, Mapped.tokens_closeWith, MoreEntries.tokens]
    | _ => cases h
  | paren opening =>
    cases item with
    | closeParen =>
      cases h
      refine ⟨.operand ⟨pos, target, sign, outer, outside⟩ (.paren opening x at'), rfl, ?_⟩
      simp [Pending.tokens, Unfinished.tokens, Layer.tokens, Opened.tokens, Summed.tokens,
        Primary.tokens]
    | _ => cases h
  | var name opening =>
    cases item with
    | closeParen =>
      cases h
      refine ⟨.operand ⟨pos, target, sign, outer, outside⟩ (.var name opening x at'), rfl, ?_⟩
      simp [Pending.tokens, Unfinished.tokens, Layer.tokens, Opened.tokens, Summed.tokens,
        Primary.tokens]
    | _ => cases h

/-- A token behind a complete operand. The last operand closes the sum around it, unless a `+`
follows. -/
theorem Partial.readAfter_step (f : Finished) (u : Unfinished) (p : Primary) {t : Token}
    {r : Reader} (h : readAfter f.statements u.context p.tree t = .ok r) (ht : t.item ≠ .eof) :
    ∃ y : Partial, y.reader = r ∧ y.tokens = f.tokens ++ u.tokens ++ p.tokens ++ [t] := by
  obtain ⟨pos, target, sign, layers, before⟩ := u
  obtain ⟨at', item⟩ := t
  by_cases hplus : item = .plus
  · subst hplus
    cases h
    refine ⟨⟨f, .value ⟨pos, target, sign, layers, .plus before p at'⟩⟩, rfl, ?_⟩
    simp [Partial.tokens, Pending.tokens, Unfinished.tokens, Summed.tokens]
  · have hsum := before.tree_close_done p
    have hsumTokens := before.tokens_close p .done
    cases layers with
    | nil =>
      have hend (s : Separator) (hs : s.token = ⟨at', item⟩) :
          (⟨.statement f ⟨pos, target, sign, before.close p .done⟩ s, .outside⟩ : Partial).tokens =
            f.tokens ++ (⟨pos, target, sign, [], before⟩ : Unfinished).tokens ++ p.tokens ++
              [⟨at', item⟩] := by
        simp [Partial.tokens, Finished.tokens, Assignment.tokens, hsumTokens, Unfinished.tokens,
          Layer.tokens, Pending.tokens, Summands.tokens, hs]
      cases item with
      | newline =>
        cases h
        refine ⟨⟨.statement f ⟨pos, target, sign, before.close p .done⟩ (.newline at'), .outside⟩,
          ?_, hend _ rfl⟩
        simp [Partial.reader, Finished.statements, Assignment.tree, hsum, Pending.point,
          Unfinished.context]
      | semicolon =>
        cases h
        refine ⟨⟨.statement f ⟨pos, target, sign, before.close p .done⟩ (.semicolon at'), .outside⟩,
          ?_, hend _ rfl⟩
        simp [Partial.reader, Finished.statements, Assignment.tree, hsum, Pending.point,
          Unfinished.context]
      | eof => exact absurd rfl ht
      | plus => exact absurd rfl hplus
      | _ => cases h
    | cons l outer =>
      obtain ⟨point, hi, rfl⟩ := exists_readInside hplus h
      rw [← hsum] at hi
      obtain ⟨y, rfl, hy⟩ := Unfinished.readInside_step
        ⟨pos, target, sign, l :: outer, before⟩ l outer _ hi
      refine ⟨⟨f, y⟩, rfl, ?_⟩
      simp [Partial.tokens, hy, hsumTokens, Unfinished.tokens, Summed.tokens, Summands.tokens]

/-- A token that is accepted makes the partial derivation longer by itself. -/
theorem Partial.step (x : Partial) {t : Token} {r : Reader} (h : x.reader.read t = .ok r)
    (ht : t.item ≠ .eof) : ∃ y : Partial, y.reader = r ∧ y.tokens = x.tokens ++ [t] := by
  obtain ⟨f, pending⟩ := x
  obtain ⟨at', item⟩ := t
  cases pending with
  | outside =>
    cases item with
    | newline =>
      cases h
      exact ⟨⟨.blank f (.newline at'), .outside⟩, rfl, by simp [tokens, Pending.tokens,
      Finished.tokens, Separator.token]⟩
    | semicolon =>
      cases h
      exact ⟨⟨.blank f (.semicolon at'), .outside⟩, rfl, by simp [tokens,
      Pending.tokens, Finished.tokens, Separator.token]⟩
    | eof => exact absurd rfl ht
    | name word =>
      cases h
      exact ⟨⟨f, .target at' word⟩, rfl, by simp [tokens, Pending.tokens]⟩
    | _ => cases h
  | target pos word =>
    cases item with
    | assign =>
      cases h
      exact ⟨⟨f, .value ⟨pos, word, at', [], .start⟩⟩, rfl, by simp [tokens, Pending.tokens,
        Unfinished.tokens, Layer.tokens, Summed.tokens]⟩
    | _ => cases h
  | value u =>
    simp only [reader, Pending.point, read_value] at h
    obtain ⟨point, hv, rfl⟩ := exists_of_map_eq_ok h
    obtain ⟨y, rfl, hy⟩ := u.readValue_step hv
    refine ⟨⟨f, y⟩, rfl, ?_⟩
    rw [tokens, hy, tokens, List.append_assoc]
    rfl
  | literals u pos text more =>
    by_cases hs : ∃ next, item = .string next
    · obtain ⟨next, rfl⟩ := hs
      cases h
      refine ⟨⟨f, .literals u pos text (more ++ [⟨at', next⟩])⟩, ?_, ?_⟩
      · simp [reader, Pending.point, joined]
      · simp [tokens, Pending.tokens, Primary.tokens]
    · simp only [reader, Pending.point] at h
      rw [read_text (fun next hn => hs ⟨next, hn⟩)] at h
      obtain ⟨y, hr, hy⟩ := readAfter_step f u (.strings pos text more) h ht
      refine ⟨y, hr, ?_⟩
      rw [hy]
      simp [tokens, Pending.tokens]
  | name u pos word =>
    cases item with
    | openParen =>
      simp only [reader, Pending.point, Reader.read] at h
      split at h
      · next hw =>
        subst hw
        obtain ⟨point, he, rfl⟩ := exists_of_map_eq_ok h
        refine ⟨⟨f, _⟩, congrArg (Reader.mk _) (u.enter_step (.var pos at') he), ?_⟩
        simp [tokens, Pending.tokens, Unfinished.tokens, Layer.tokens, Opened.tokens,
          Summed.tokens]
      · cases h
    | _ => cases h
  | operand u p =>
    obtain ⟨y, hr, hy⟩ := readAfter_step f u p h ht
    refine ⟨y, hr, ?_⟩
    rw [hy]
    simp [tokens, Pending.tokens]

/-! ### The end marker -/

/-- The end marker behind a complete operand. -/
theorem Partial.readAfter_stop (f : Finished) (u : Unfinished) (p : Primary) {pos : Position}
    {r : Reader} (h : readAfter f.statements u.context p.tree ⟨pos, .eof⟩ = .ok r) :
    ∃ d : Program, d.tokens = f.tokens ++ u.tokens ++ p.tokens ++ [⟨pos, .eof⟩] ∧
      d.statements.reverse = r.statements := by
  obtain ⟨place, target, sign, layers, before⟩ := u
  cases layers with
  | nil =>
    cases h
    refine ⟨f.close (.last ⟨place, target, sign, before.close p .done⟩ pos), ?_, ?_⟩
    · simp [Finished.tokens_close, Program.tokens, Assignment.tokens, Summed.tokens_close,
        Summands.tokens, Unfinished.tokens, Layer.tokens]
    · simp [Finished.statements_close, Program.statements, Assignment.tree, Summed.tree_close_done,
        Unfinished.context]
  | cons l outer =>
    obtain ⟨opened, outside⟩ := l
    cases opened <;> cases h

/-- Only between statements or behind a value does the end marker find nothing missing. -/
theorem Partial.stop (x : Partial) {pos : Position} {r : Reader}
    (h : x.reader.read ⟨pos, .eof⟩ = .ok r) :
    ∃ d : Program, d.tokens = x.tokens ++ [⟨pos, .eof⟩] ∧
      d.statements.reverse = r.statements := by
  obtain ⟨f, pending⟩ := x
  cases pending with
  | outside =>
    cases h
    refine ⟨f.close (.stop pos), ?_, ?_⟩
    · simp [Finished.tokens_close, Program.tokens, tokens, Pending.tokens]
    · simp [Finished.statements_close, Program.statements, reader]
  | target place word => cases h
  | value u =>
    obtain ⟨place, target, sign, layers, before⟩ := u
    rcases before with _ | ⟨before, p, plus⟩ <;> rcases layers with _ | ⟨⟨opened, outside⟩, outer⟩
    all_goals first | cases h | (cases opened <;> cases h)
  | literals u place text more =>
    simp only [reader, Pending.point] at h
    rw [read_text (by simp)] at h
    obtain ⟨d, hd, hs⟩ := readAfter_stop f u (.strings place text more) h
    refine ⟨d, ?_, hs⟩
    rw [hd]
    simp [tokens, Pending.tokens]
  | name u place word => cases h
  | operand u p =>
    obtain ⟨d, hd, hs⟩ := readAfter_stop f u p h
    refine ⟨d, ?_, hs⟩
    rw [hd]
    simp [tokens, Pending.tokens]

/-! ### All tokens -/

/-- What is accepted up to the end marker completes a partial derivation. -/
theorem Partial.readAll_sound (x : Partial) {body : List Token} (hb : ∀ t ∈ body, t.item ≠ .eof)
    {pos : Position} {r : Reader} (h : x.reader.readAll (body ++ [⟨pos, .eof⟩]) = .ok r) :
    ∃ d : Program, d.tokens = x.tokens ++ body ++ [⟨pos, .eof⟩] ∧
      d.statements.reverse = r.statements := by
  induction body generalizing x with
  | nil =>
    simp only [List.nil_append, readAll] at h
    cases hr : x.reader.read ⟨pos, .eof⟩ with
    | error e =>
      rw [hr] at h
      cases h
    | ok r' =>
      rw [hr] at h
      cases h
      rw [List.append_nil]
      exact x.stop hr
  | cons t body ih =>
    have ht : t.item ≠ .eof := hb t (by simp)
    rw [List.cons_append, readAll] at h
    cases hr : x.reader.read t with
    | error e =>
      rw [hr] at h
      cases h
    | ok r' =>
      simp only [hr, if_neg ht] at h
      obtain ⟨y, rfl, hy⟩ := x.step hr ht
      obtain ⟨d, hd, hs⟩ := ih y (fun t ht => hb t (by simp [ht])) h
      refine ⟨d, ?_, hs⟩
      rw [hd, hy]
      simp

/-! ### Open brackets -/

/-- How many brackets are open at a point. -/
def depthAt : Point → Nat
  | .outside | .target _ _ => 0
  | .value ctx | .text ctx _ _ | .name ctx _ _ | .operand ctx _ => ctx.levels.length

theorem depthAt_enter {ctx : Context} {pos : Position} {bracket : Bracket} {point : Point}
    (h : enter ctx pos bracket = .ok point) :
    depthAt point = ctx.levels.length + 1 ∧ depthAt point ≤ maxNesting := by
  simp only [enter] at h
  split at h
  · next hlt =>
    cases h
    exact ⟨rfl, hlt⟩
  · cases h

theorem depthAt_readValue {ctx : Context} {t : Token} {point : Point}
    (h : readValue ctx t = .ok point) (hn : ctx.levels.length ≤ maxNesting) :
    depthAt point = t.item.depthAfter ctx.levels.length ∧ depthAt point ≤ maxNesting := by
  obtain ⟨pos, item⟩ := t
  cases item with
  | openBrace | openBracket | openParen => exact depthAt_enter h
  | string text | integer n =>
    cases h
    exact ⟨rfl, hn⟩
  | name word =>
    simp only [readValue] at h
    repeat' split at h
    all_goals
      cases h
      exact ⟨rfl, hn⟩
  | _ =>
    obtain ⟨target, place, levels, before⟩ := ctx
    rcases before with _ | before <;> rcases levels with _ | ⟨⟨bracket, outside⟩, outer⟩
    all_goals first | cases h | (cases bracket <;> cases h)
    all_goals exact ⟨rfl, Nat.le_of_succ_le hn⟩

theorem depthAt_readInside {ctx : Context} {level : Level} {outer : List Level} {e : Expr}
    {t : Token} {point : Point} (h : readInside ctx level outer e t = .ok point)
    (hn : outer.length + 1 ≤ maxNesting) :
    depthAt point = t.item.depthAfter (outer.length + 1) ∧ depthAt point ≤ maxNesting := by
  obtain ⟨bracket, outside⟩ := level
  obtain ⟨pos, item⟩ := t
  cases bracket <;> cases item <;> cases h
  all_goals first | exact ⟨rfl, hn⟩ | exact ⟨rfl, Nat.le_of_succ_le hn⟩

theorem depthAt_readAfter {done : List Statement} {ctx : Context} {e : Expr} {t : Token}
    {r : Reader} (h : readAfter done ctx e t = .ok r) (hn : ctx.levels.length ≤ maxNesting) :
    depthAt r.point = t.item.depthAfter ctx.levels.length ∧ depthAt r.point ≤ maxNesting := by
  obtain ⟨target, place, levels, before⟩ := ctx
  obtain ⟨pos, item⟩ := t
  by_cases hplus : item = .plus
  · subst hplus
    cases h
    exact ⟨rfl, hn⟩
  · cases levels with
    | nil =>
      cases item <;> first | exact absurd rfl hplus | cases h
      all_goals exact ⟨rfl, Nat.zero_le _⟩
    | cons level outer =>
      obtain ⟨point, hi, rfl⟩ := exists_readInside hplus h
      exact depthAt_readInside hi hn

/-- A token that is accepted opens and closes what its kind says, and never opens too much. -/
theorem depthAt_read {r r' : Reader} {t : Token} (h : r.read t = .ok r')
    (hn : depthAt r.point ≤ maxNesting) :
    depthAt r'.point = t.item.depthAfter (depthAt r.point) ∧ depthAt r'.point ≤ maxNesting := by
  obtain ⟨done, point⟩ := r
  cases point with
  | outside =>
    obtain ⟨pos, item⟩ := t
    cases item <;> cases h
    all_goals exact ⟨rfl, hn⟩
  | target place word =>
    obtain ⟨pos, item⟩ := t
    cases item <;> cases h
    all_goals exact ⟨rfl, hn⟩
  | value ctx =>
    rw [read_value] at h
    obtain ⟨point, hv, rfl⟩ := exists_of_map_eq_ok h
    exact depthAt_readValue hv hn
  | text ctx place text =>
    obtain ⟨pos, item⟩ := t
    cases item with
    | string more =>
      cases h
      exact ⟨rfl, hn⟩
    | _ => exact depthAt_readAfter h hn
  | name ctx place word =>
    obtain ⟨pos, item⟩ := t
    cases item with
    | openParen =>
      simp only [Reader.read] at h
      split at h
      · obtain ⟨point, he, rfl⟩ := exists_of_map_eq_ok h
        exact depthAt_enter he
      · cases h
    | _ => cases h
  | operand ctx e => exact depthAt_readAfter h hn

theorem nestedWithin_of_readAll {r r' : Reader} {body : List Token}
    (hb : ∀ t ∈ body, t.item ≠ .eof) {pos : Position}
    (h : r.readAll (body ++ [⟨pos, .eof⟩]) = .ok r') (hn : depthAt r.point ≤ maxNesting) :
    NestedWithin (depthAt r.point) (body ++ [⟨pos, .eof⟩]) := by
  induction body generalizing r with
  | nil => exact ⟨hn, trivial⟩
  | cons t body ih =>
    have ht : t.item ≠ .eof := hb t (by simp)
    rw [List.cons_append, readAll] at h
    cases hr : r.read t with
    | error e =>
      rw [hr] at h
      cases h
    | ok s =>
      simp only [hr, if_neg ht] at h
      obtain ⟨heq, hle⟩ := depthAt_read hr hn
      rw [List.cons_append, nestedWithin_cons, ← heq]
      exact ⟨hle, ih (fun t ht => hb t (by simp [ht])) h hle⟩

/-! ### Parsing and deriving -/

/-- Parsing succeeds exactly on the tokens that have a derivation within the limit of open
brackets, it gives the tree of the derivation, and there is no other derivation. -/
theorem parse_eq_ok_iff_derivation (body : List Token) (hb : ∀ t ∈ body, t.item ≠ .eof)
    (stop : Position) :
    (∀ program : List Statement, parse (body ++ [⟨stop, .eof⟩]) = .ok program ↔
      NestedWithin 0 (body ++ [⟨stop, .eof⟩]) ∧
        ∃ d : Program, d.tokens = body ++ [⟨stop, .eof⟩] ∧ d.statements = program) ∧
      ∀ d d' : Program, d.tokens = body ++ [⟨stop, .eof⟩] → d'.tokens = body ++ [⟨stop, .eof⟩] →
        d = d' := by
  refine ⟨fun program => ⟨fun h => ?_, ?_⟩, fun d d' h h' => Program.tokens_injective (h.trans h'.symm)⟩
  · obtain ⟨r, hr, rfl⟩ := exists_of_map_eq_ok h
    obtain ⟨d, hd, hs⟩ := Partial.readAll_sound ⟨.start, .outside⟩ hb hr
    refine ⟨nestedWithin_of_readAll hb hr (Nat.zero_le _), d, hd, ?_⟩
    simp only [← hs, List.reverse_reverse]
  · rintro ⟨hn, d, hd, rfl⟩
    rw [← hd] at hn ⊢
    exact d.parse_tokens hn

/-- `x = ['a' 'b' + Var('c'), (1),]` on one line: joined literals, a sum, a lookup, parentheses and
a comma at the end. -/
theorem parse_list_of_sum_and_paren :
    let body : List Token :=
      [⟨⟨1, 1⟩, .name "x"⟩, ⟨⟨1, 3⟩, .assign⟩, ⟨⟨1, 5⟩, .openBracket⟩, ⟨⟨1, 6⟩, .string "a"⟩,
        ⟨⟨1, 10⟩, .string "b"⟩, ⟨⟨1, 14⟩, .plus⟩, ⟨⟨1, 16⟩, .name "Var"⟩, ⟨⟨1, 19⟩, .openParen⟩,
        ⟨⟨1, 20⟩, .string "c"⟩, ⟨⟨1, 23⟩, .closeParen⟩, ⟨⟨1, 24⟩, .comma⟩, ⟨⟨1, 26⟩, .openParen⟩,
        ⟨⟨1, 27⟩, .integer 1⟩, ⟨⟨1, 28⟩, .closeParen⟩, ⟨⟨1, 29⟩, .comma⟩,
        ⟨⟨1, 30⟩, .closeBracket⟩, ⟨⟨1, 31⟩, .newline⟩]
    (∀ t ∈ body, t.item ≠ .eof) ∧
      parse (body ++ [⟨⟨2, 1⟩, .eof⟩]) =
        .ok [⟨"x", ⟨1, 1⟩, .list ⟨1, 5⟩
          [.sum ⟨1, 14⟩ (.str ⟨1, 6⟩ "ab") [(⟨1, 14⟩, .var ⟨1, 16⟩ (.str ⟨1, 20⟩ "c"))],
            .int ⟨1, 27⟩ 1]⟩] := by
  intro body
  have hb : ∀ t ∈ body, t.item ≠ .eof := by simp [body]
  refine ⟨hb, ((parse_eq_ok_iff_derivation body hb ⟨2, 1⟩).1 _).2 ⟨?_, ?_⟩⟩
  · simp [body, Lexeme.depthAfter, maxNesting]
  · let literals : Primary := .strings ⟨1, 6⟩ "a" [⟨⟨1, 10⟩, "b"⟩]
    let lookup : Primary :=
      .var ⟨1, 16⟩ ⟨1, 19⟩ (.sum (.strings ⟨1, 20⟩ "c" []) .done) ⟨1, 23⟩
    let number : Primary := .paren ⟨1, 26⟩ (.sum (.integer ⟨1, 27⟩ 1) .done) ⟨1, 28⟩
    let items : Items := .first (.sum literals (.plus ⟨1, 14⟩ lookup .done))
      (.next ⟨1, 24⟩ (.sum number .done) (.comma ⟨1, 29⟩))
    exact ⟨.statement ⟨⟨1, 1⟩, "x", ⟨1, 3⟩, .sum (.list ⟨1, 5⟩ items ⟨1, 30⟩) .done⟩
      (.newline ⟨1, 31⟩) (.stop ⟨2, 1⟩), rfl, rfl⟩

end PinnedDeps.Grammar
