import PinnedDeps.Proofs.Grammar.Beginnings
import PinnedDeps.Proofs.Token.Turns

/-! Two counts of open brackets. The lexer counts brackets of all kinds in one number that never
falls below none; the reader has a level for each bracket that it is inside. Reading stops at the
first bracket that does not match, and up to there the two agree. So the reader never meets the
limit on a text that is lexed: the lexer has met it first. -/

namespace PinnedDeps

/-- The tokens that open a bracket. -/
def Lexeme.Opens (l : Lexeme) : Prop := l = .openBrace ∨ l = .openBracket ∨ l = .openParen

theorem Lexeme.Opens.depthAfter_eq {l : Lexeme} (h : l.Opens) (depth : Nat) :
    l.depthAfter depth = depth + 1 := by
  rcases h with rfl | rfl | rfl <;> rfl

namespace Reader

open Grammar (depthAt eq_error_of_map)

/-! ### Which tokens meet the limit -/

variable {ctx : Context} {t : Token} {pos : Position}

theorem limit_of_enter {at' : Position} {bracket : Bracket}
    (h : enter ctx at' bracket = .error ⟨pos, .tooDeep⟩) : maxNesting ≤ ctx.levels.length := by
  unfold enter at h
  split at h
  · cases h
  · next hlt => exact Nat.not_lt.mp hlt

theorem limit_of_readValue (h : readValue ctx t = .error ⟨pos, .tooDeep⟩) :
    t.item.Opens ∧ maxNesting ≤ ctx.levels.length := by
  obtain ⟨place, item⟩ := t
  cases item with
  | openBrace => exact ⟨.inl rfl, limit_of_enter h⟩
  | openBracket => exact ⟨.inr (.inl rfl), limit_of_enter h⟩
  | openParen => exact ⟨.inr (.inr rfl), limit_of_enter h⟩
  | string text | integer n => cases h
  | name word =>
    unfold readValue at h
    dsimp only at h
    repeat' split at h
    all_goals cases h
  | _ =>
    obtain ⟨target, start, levels, before⟩ := ctx
    rcases before with _ | before <;> rcases levels with _ | ⟨⟨bracket, outside⟩, outer⟩
    all_goals first | cases h | (cases bracket <;> cases h)

theorem readInside_ne_tooDeep (ctx : Context) (level : Level) (outer : List Level) (e : Expr)
    (t : Token) : readInside ctx level outer e t ≠ .error ⟨pos, .tooDeep⟩ := by
  obtain ⟨bracket, outside⟩ := level
  obtain ⟨place, item⟩ := t
  cases bracket <;> cases item <;> exact nofun

theorem readAfter_ne_tooDeep (done : List Statement) (ctx : Context) (e : Expr) (t : Token) :
    readAfter done ctx e t ≠ .error ⟨pos, .tooDeep⟩ := by
  obtain ⟨target, place, levels, before⟩ := ctx
  by_cases hplus : t.item = .plus
  · obtain ⟨place, item⟩ := t
    obtain rfl : item = .plus := hplus
    exact nofun
  cases levels with
  | nil =>
    obtain ⟨place, item⟩ := t
    cases item <;> exact nofun
  | cons level outer =>
    rw [readAfter_inside hplus]
    intro h
    exact readInside_ne_tooDeep _ level outer _ t (eq_error_of_map h)

/-- Only a bracket that opens can meet the limit, and it does so inside as many levels. -/
theorem limit_of_read {r : Reader} (h : r.read t = .error ⟨pos, .tooDeep⟩) :
    t.item.Opens ∧ maxNesting ≤ depthAt r.point := by
  obtain ⟨done, point⟩ := r
  cases point with
  | outside | target =>
    obtain ⟨place, item⟩ := t
    cases item <;> cases h
  | value ctx =>
    rw [read_value] at h
    exact limit_of_readValue (eq_error_of_map h)
  | text ctx place text =>
    by_cases ht : ∃ more, t.item = .string more
    · obtain ⟨start, item⟩ := t
      obtain ⟨more, rfl⟩ := ht
      cases h
    · rw [read_text fun more hmore => ht ⟨more, hmore⟩] at h
      exact absurd h (readAfter_ne_tooDeep done ctx _ t)
  | name ctx place word =>
    obtain ⟨start, item⟩ := t
    cases item with
    | openParen =>
      refine ⟨.inr (.inr rfl), ?_⟩
      simp only [read] at h
      split at h
      · exact limit_of_enter (eq_error_of_map h)
      · cases h
    | _ => cases h
  | operand ctx e => exact absurd h (readAfter_ne_tooDeep done ctx e t)

/-! ### The two counts -/

open Lexing (Comes)

variable {text : String} {tokens : List Token} {s s' : Lexing}

/-- The lexer goes on behind a bracket only if fewer were open than may be. -/
theorem depth_lt_of_turn (hs : Comes text s) (hturn : s.Turn s') (hdone : s'.done = t :: s.done)
    (ht : t.item.Opens) : s.depth < maxNesting := by
  have hcomes : Comes text s' := hs.tail hturn
  have hlexed := hcomes.lexed
  have hnext : s'.depth = s.depth + 1 := by
    rw [← hlexed.depth_eq, hdone, List.reverse_cons, Grammar.depthBehind_append, hs.lexed.depth_eq]
    exact ht.depthAfter_eq _
  have hmax := hlexed.depth_le
  omega

/-- At each token that the reader comes to, it is inside as many levels as the lexer counted when it
came to the characters of that token, and fewer than may be if the token opens a bracket. -/
theorem exists_turn_of_readAll (h : tokenize text = .ok tokens) {before after : List Token}
    (hcut : tokens = before ++ t :: after) (ht : t.item ≠ .eof) {r : Reader}
    (hr : Reader.start.readAll before = .ok r) :
    ∃ s s', Comes text s ∧ s.Turn s' ∧ s.done = before.reverse ∧ s'.done = t :: before.reverse ∧
      depthAt r.point = s.depth ∧ (t.item.Opens → depthAt r.point < maxNesting) := by
  obtain ⟨last, hcomes, -, htokens⟩ := Lexing.tokenize_eq_ok_iff.mp h
  -- the end marker is the last token, so the tokens up to `t` are some that the lexer has
  obtain ⟨later, hdone⟩ : ∃ later, last.done = later ++ t :: before.reverse := by
    rcases cut_of_concat (hcut.symm.trans htokens) with ⟨-, rfl⟩ | ⟨more, hmore⟩
    · exact absurd rfl ht
    · refine ⟨more.reverse, ?_⟩
      rw [← List.reverse_reverse last.done, hmore, List.reverse_append, List.reverse_cons,
        List.append_assoc, List.singleton_append]
  obtain ⟨s, s', hs, hturn, hbefore, hafter⟩ := hcomes.exists_turn hdone
  have hlexed := hs.lexed
  have hfront : ∀ u ∈ before, u.item ≠ .eof := by
    intro u hu heof
    have hwritable := hlexed.writable.tokens u.item
      (List.mem_map_of_mem (by rw [hbefore, List.reverse_reverse]; exact hu))
    rw [heof] at hwritable
    exact hwritable
  have hdepth : depthAt r.point = s.depth := by
    rw [← hlexed.depth_eq, hbefore, List.reverse_reverse]
    exact (depthAt_readAll hfront hr (Nat.zero_le _)).1
  refine ⟨s, s', hs, hturn, hbefore, hafter, hdepth, fun hopens => ?_⟩
  rw [hdepth]
  exact depth_lt_of_turn hs hturn (hafter.trans (congrArg _ hbefore.symm)) hopens

/-- The tokens of a text are never refused for too many open brackets: at each token that the reader
comes to, it is inside as many levels as the lexer counted brackets there, and where the token opens
a bracket these are fewer than may be. -/
theorem parse_within_lexed_depth (h : tokenize text = .ok tokens) :
    (∀ e, parse tokens = .error e → e.item ≠ .tooDeep) ∧
    ∀ before t after r, tokens = before ++ t :: after → t.item ≠ .eof →
      Reader.start.readAll before = .ok r →
      ∃ s s', Comes text s ∧ s.Turn s' ∧ s.done = before.reverse ∧ s'.done = t :: before.reverse ∧
        depthAt r.point = s.depth ∧ (t.item.Opens → depthAt r.point < maxNesting) := by
  refine ⟨fun e he hdeep => ?_, fun _ _ _ _ hcut ht hr => exists_turn_of_readAll h hcut ht hr⟩
  obtain ⟨before, t, after, r, hcut, hbefore, hr, hrefused⟩ :=
    exists_of_readAll_error (eq_error_of_map he)
  obtain ⟨pos, reason⟩ := e
  obtain rfl : reason = .tooDeep := hdeep
  obtain ⟨hopens, hlimit⟩ := limit_of_read hrefused
  have ht : t.item ≠ .eof := by
    rcases hopens with heq | heq | heq <;> simp [heq]
  obtain ⟨-, -, -, -, -, -, -, hlt⟩ := exists_turn_of_readAll h hcut ht hr
  exact absurd (hlt hopens) (Nat.not_lt.mpr hlimit)

/-- Brackets that do not match, and one that is not open. The reader stops at the first `]`, while
the lexer goes on and counts. -/
theorem parse_within_lexed_depth_mismatched :
    let text := "x = [(1], 2)\n]"
    let before : List Token := [⟨⟨1, 1⟩, .name "x"⟩, ⟨⟨1, 3⟩, .assign⟩, ⟨⟨1, 5⟩, .openBracket⟩]
    let t : Token := ⟨⟨1, 6⟩, .openParen⟩
    let after : List Token := [⟨⟨1, 7⟩, .integer 1⟩, ⟨⟨1, 8⟩, .closeBracket⟩, ⟨⟨1, 9⟩, .comma⟩,
      ⟨⟨1, 11⟩, .integer 2⟩, ⟨⟨1, 12⟩, .closeParen⟩, ⟨⟨1, 13⟩, .newline⟩,
      ⟨⟨2, 1⟩, .closeBracket⟩, ⟨⟨2, 2⟩, .eof⟩]
    let r : Reader := ⟨[], .value ⟨"x", ⟨1, 1⟩, [⟨.list ⟨1, 5⟩ [], none⟩], none⟩⟩
    tokenize text = .ok (before ++ t :: after) ∧
      (∀ e, parse (before ++ t :: after) = .error e → e.item ≠ .tooDeep) ∧
      Reader.start.readAll before = .ok r ∧
      ∃ s s', Comes text s ∧ s.Turn s' ∧ s.done = before.reverse ∧ s'.done = t :: before.reverse ∧
        depthAt r.point = s.depth ∧ depthAt r.point < maxNesting := by
  intro text before t after r
  have htokens : tokenize text = .ok (before ++ t :: after) := by decide +kernel
  have hr : Reader.start.readAll before = .ok r := rfl
  obtain ⟨herror, hcounts⟩ := parse_within_lexed_depth htokens
  obtain ⟨s, s', hs, hturn, hbefore, hafter, hdepth, hopens⟩ :=
    hcounts before t after r rfl (by simp [t]) hr
  exact ⟨htokens, herror, hr, s, s', hs, hturn, hbefore, hafter, hdepth, hopens (.inr (.inr rfl))⟩

end Reader

end PinnedDeps
