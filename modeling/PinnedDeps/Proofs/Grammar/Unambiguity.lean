import PinnedDeps.Proofs.Grammar

/-! No list of tokens has two derivations. Derivations of one rule, each with further tokens behind
it, are compared from the left: the first token decides between the alternatives, and what comes
behind decides whether a repetition goes on. For the latter the tokens behind must not continue
the last member, so a literal or a `+` is excluded there. -/

namespace PinnedDeps.Grammar

/-- A literal would continue the literals before it. -/
def NoLiteral (tokens : List Token) : Prop :=
  ∀ t ∈ tokens.head?, ∀ text, t.item ≠ .string text

/-- What may stand behind a complete expression. -/
def NoOperand (tokens : List Token) : Prop :=
  NoLiteral tokens ∧ ∀ t ∈ tokens.head?, t.item ≠ .plus

theorem noLiteral_cons {t : Token} {rest : List Token} (h : ∀ text, t.item ≠ .string text) :
    NoLiteral (t :: rest) := by
  intro u hu
  obtain rfl : t = u := by simpa using hu
  exact h

theorem noOperand_cons {t : Token} {rest : List Token} (h : ∀ text, t.item ≠ .string text)
    (hp : t.item ≠ .plus) : NoOperand (t :: rest) := by
  refine ⟨noLiteral_cons h, fun u hu => ?_⟩
  obtain rfl : t = u := by simpa using hu
  exact hp

theorem noOperand_colon (pos : Position) (rest : List Token) :
    NoOperand (⟨pos, .colon⟩ :: rest) := noOperand_cons (by simp) (by simp)

theorem noOperand_closeParen (pos : Position) (rest : List Token) :
    NoOperand (⟨pos, .closeParen⟩ :: rest) := noOperand_cons (by simp) (by simp)

theorem Summands.noLiteral (s : Summands) {rest : List Token} (h : NoOperand rest) :
    NoLiteral (s.tokens ++ rest) := by
  cases s with
  | done => exact h.1
  | plus pos operand more => exact noLiteral_cons (by simp)

theorem MoreItems.noOperand (items : MoreItems) (closing : Position) (rest : List Token) :
    NoOperand (items.tokens ++ ⟨closing, .closeBracket⟩ :: rest) := by
  cases items <;> exact noOperand_cons (by simp) (by simp)

theorem MoreEntries.noOperand (entries : MoreEntries) (closing : Position) (rest : List Token) :
    NoOperand (entries.tokens ++ ⟨closing, .closeBrace⟩ :: rest) := by
  cases entries <;> exact noOperand_cons (by simp) (by simp)

theorem Separator.noOperand (s : Separator) (rest : List Token) :
    NoOperand (s.token :: rest) := by
  cases s <;> exact noOperand_cons (by simp [Separator.token]) (by simp [Separator.token])

/-- An expression starts with a token that closes nothing. -/
theorem Expression.exists_tokens_eq_cons (x : Expression) :
    ∃ t rest, x.tokens = t :: rest ∧ t.item ≠ .closeBracket ∧ t.item ≠ .closeBrace := by
  obtain ⟨first, rest⟩ := x
  cases first <;> exact ⟨_, _, rfl, by simp, by simp⟩

theorem Expression.closeBracket_ne (x : Expression) (pos : Position) (r r' : List Token) :
    ⟨pos, .closeBracket⟩ :: r ≠ x.tokens ++ r' := by
  obtain ⟨t, rest, hx, ht, -⟩ := x.exists_tokens_eq_cons
  rw [hx]
  rintro h
  obtain ⟨rfl, -⟩ := List.cons.inj h
  exact ht rfl

theorem Expression.closeBrace_ne (x : Expression) (pos : Position) (r r' : List Token) :
    ⟨pos, .closeBrace⟩ :: r ≠ x.tokens ++ r' := by
  obtain ⟨t, rest, hx, -, ht⟩ := x.exists_tokens_eq_cons
  rw [hx]
  rintro h
  obtain ⟨rfl, -⟩ := List.cons.inj h
  exact ht rfl

theorem literals_inj {more more' : List (Located String)} {r r' : List Token}
    (hr : NoLiteral r) (hr' : NoLiteral r')
    (h : more.map (fun s => (⟨s.pos, .string s.item⟩ : Token)) ++ r =
      more'.map (fun s => ⟨s.pos, .string s.item⟩) ++ r') : more = more' ∧ r = r' := by
  induction more generalizing more' with
  | nil =>
    cases more' with
    | nil => exact ⟨rfl, h⟩
    | cons s more' =>
      subst h
      exact absurd rfl (hr _ rfl s.item)
  | cons s more ih =>
    cases more' with
    | nil =>
      subst h
      exact absurd rfl (hr' _ rfl s.item)
    | cons s' more' =>
      obtain ⟨pos, text⟩ := s
      obtain ⟨pos', text'⟩ := s'
      simp only [List.map_cons, List.cons_append, List.cons.injEq, Located.mk.injEq,
        Lexeme.string.injEq] at h
      obtain ⟨⟨rfl, rfl⟩, h⟩ := h
      obtain ⟨rfl, rfl⟩ := ih h
      exact ⟨rfl, rfl⟩

theorem Constant.word_injective {c d : Constant} (h : c.word = d.word) : c = d := by
  cases c <;> cases d <;> first | rfl | simp [word] at h

theorem Constant.word_ne_var (c : Constant) : c.word ≠ "Var" := by
  cases c <;> simp [word]

mutual

theorem Primary.tokens_inj (p q : Primary) {r r' : List Token} (hr : NoLiteral r)
    (hr' : NoLiteral r') (h : p.tokens ++ r = q.tokens ++ r') : p = q ∧ r = r' := by
  cases p with
  | strings pos text more =>
    cases q <;> simp [Primary.tokens] at h
    obtain ⟨⟨rfl, rfl⟩, h⟩ := h
    obtain ⟨rfl, rfl⟩ := literals_inj hr hr' h
    exact ⟨rfl, rfl⟩
  | integer pos value =>
    cases q <;> simp [Primary.tokens] at h
    obtain ⟨⟨rfl, rfl⟩, rfl⟩ := h
    exact ⟨rfl, rfl⟩
  | constant pos c =>
    cases q <;> simp [Primary.tokens, Constant.word_ne_var] at h
    obtain ⟨⟨rfl, hc⟩, rfl⟩ := h
    exact ⟨by rw [Constant.word_injective hc], rfl⟩
  | map opening entries closing =>
    cases q <;> simp [Primary.tokens] at h
    obtain ⟨rfl, h⟩ := h
    obtain ⟨rfl, rfl, rfl⟩ := entries.tokens_inj _ h
    exact ⟨rfl, rfl⟩
  | list opening items closing =>
    cases q <;> simp [Primary.tokens] at h
    obtain ⟨rfl, h⟩ := h
    obtain ⟨rfl, rfl, rfl⟩ := items.tokens_inj _ h
    exact ⟨rfl, rfl⟩
  | paren opening inner closing =>
    cases q <;> simp [Primary.tokens] at h
    obtain ⟨rfl, h⟩ := h
    obtain ⟨rfl, hs⟩ := inner.tokens_inj _ (noOperand_closeParen _ _) (noOperand_closeParen _ _) h
    simp only [List.cons.injEq, Located.mk.injEq, and_true] at hs
    obtain ⟨rfl, rfl⟩ := hs
    exact ⟨rfl, rfl⟩
  | var name opening argument closing =>
    cases q <;> simp [Primary.tokens, (Constant.word_ne_var _).symm] at h
    obtain ⟨rfl, rfl, h⟩ := h
    obtain ⟨rfl, hs⟩ := argument.tokens_inj _ (noOperand_closeParen _ _) (noOperand_closeParen _ _) h
    simp only [List.cons.injEq, Located.mk.injEq, and_true] at hs
    obtain ⟨rfl, rfl⟩ := hs
    exact ⟨rfl, rfl⟩
termination_by structural p

theorem Expression.tokens_inj (x y : Expression) {r r' : List Token} (hr : NoOperand r)
    (hr' : NoOperand r') (h : x.tokens ++ r = y.tokens ++ r') : x = y ∧ r = r' := by
  obtain ⟨p, s⟩ := x
  obtain ⟨q, s'⟩ := y
  simp only [Expression.tokens, List.append_assoc] at h
  obtain ⟨rfl, hs⟩ := p.tokens_inj q (s.noLiteral hr) (s'.noLiteral hr') h
  obtain ⟨rfl, rfl⟩ := s.tokens_inj s' hr hr' hs
  exact ⟨rfl, rfl⟩
termination_by structural x

theorem Summands.tokens_inj (s s' : Summands) {r r' : List Token} (hr : NoOperand r)
    (hr' : NoOperand r') (h : s.tokens ++ r = s'.tokens ++ r') : s = s' ∧ r = r' := by
  cases s with
  | done =>
    cases s' with
    | done => exact ⟨rfl, h⟩
    | plus pos operand rest =>
      subst h
      exact absurd rfl (hr.2 _ rfl)
  | plus pos operand rest =>
    cases s' with
    | done =>
      subst h
      exact absurd rfl (hr'.2 _ rfl)
    | plus pos' operand' rest' =>
      simp only [Summands.tokens, List.cons_append, List.append_assoc, List.cons.injEq,
        Located.mk.injEq, and_true] at h
      obtain ⟨rfl, h⟩ := h
      obtain ⟨rfl, hs⟩ := operand.tokens_inj operand' (rest.noLiteral hr) (rest'.noLiteral hr') h
      obtain ⟨rfl, rfl⟩ := rest.tokens_inj rest' hr hr' hs
      exact ⟨rfl, rfl⟩
termination_by structural s

theorem Items.tokens_inj (items items' : Items) {closing closing' : Position} {r r' : List Token}
    (h : items.tokens ++ ⟨closing, .closeBracket⟩ :: r =
      items'.tokens ++ ⟨closing', .closeBracket⟩ :: r') :
    items = items' ∧ closing = closing' ∧ r = r' := by
  cases items with
  | empty =>
    cases items' with
    | empty =>
      simp only [Items.tokens, List.nil_append, List.cons.injEq, Located.mk.injEq, and_true] at h
      exact ⟨rfl, h⟩
    | first item rest =>
      simp only [Items.tokens, List.nil_append, List.append_assoc] at h
      exact absurd h (item.closeBracket_ne _ _ _)
  | first item rest =>
    cases items' with
    | empty =>
      simp only [Items.tokens, List.nil_append, List.append_assoc] at h
      exact absurd h.symm (item.closeBracket_ne _ _ _)
    | first item' rest' =>
      simp only [Items.tokens, List.append_assoc] at h
      obtain ⟨rfl, hs⟩ := item.tokens_inj item' (rest.noOperand _ _) (rest'.noOperand _ _) h
      obtain ⟨rfl, rfl, rfl⟩ := rest.tokens_inj rest' hs
      exact ⟨rfl, rfl, rfl⟩
termination_by structural items

theorem MoreItems.tokens_inj (items items' : MoreItems) {closing closing' : Position}
    {r r' : List Token}
    (h : items.tokens ++ ⟨closing, .closeBracket⟩ :: r =
      items'.tokens ++ ⟨closing', .closeBracket⟩ :: r') :
    items = items' ∧ closing = closing' ∧ r = r' := by
  cases items with
  | done =>
    cases items' <;> simp [MoreItems.tokens] at h
    exact ⟨rfl, h⟩
  | comma pos =>
    cases items' with
    | done => simp [MoreItems.tokens] at h
    | comma pos' =>
      simp [MoreItems.tokens] at h
      obtain ⟨rfl, rfl, rfl⟩ := h
      exact ⟨rfl, rfl, rfl⟩
    | next comma item rest =>
      simp only [MoreItems.tokens, List.cons_append, List.nil_append, List.append_assoc,
        List.cons.injEq] at h
      exact absurd h.2 (item.closeBracket_ne _ _ _)
  | next comma item rest =>
    cases items' with
    | done => simp [MoreItems.tokens] at h
    | comma pos' =>
      simp only [MoreItems.tokens, List.cons_append, List.nil_append, List.append_assoc,
        List.cons.injEq] at h
      exact absurd h.2.symm (item.closeBracket_ne _ _ _)
    | next comma' item' rest' =>
      simp only [MoreItems.tokens, List.cons_append, List.append_assoc, List.cons.injEq,
        Located.mk.injEq, and_true] at h
      obtain ⟨rfl, h⟩ := h
      obtain ⟨rfl, hs⟩ := item.tokens_inj item' (rest.noOperand _ _) (rest'.noOperand _ _) h
      obtain ⟨rfl, rfl, rfl⟩ := rest.tokens_inj rest' hs
      exact ⟨rfl, rfl, rfl⟩
termination_by structural items

theorem Entries.tokens_inj (entries entries' : Entries) {closing closing' : Position}
    {r r' : List Token}
    (h : entries.tokens ++ ⟨closing, .closeBrace⟩ :: r =
      entries'.tokens ++ ⟨closing', .closeBrace⟩ :: r') :
    entries = entries' ∧ closing = closing' ∧ r = r' := by
  cases entries with
  | empty =>
    cases entries' with
    | empty =>
      simp only [Entries.tokens, List.nil_append, List.cons.injEq, Located.mk.injEq, and_true] at h
      exact ⟨rfl, h⟩
    | first key colon value rest =>
      simp only [Entries.tokens, List.nil_append, List.append_assoc] at h
      exact absurd h (key.closeBrace_ne _ _ _)
  | first key colon value rest =>
    cases entries' with
    | empty =>
      simp only [Entries.tokens, List.nil_append, List.append_assoc] at h
      exact absurd h.symm (key.closeBrace_ne _ _ _)
    | first key' colon' value' rest' =>
      simp only [Entries.tokens, List.append_assoc, List.cons_append] at h
      obtain ⟨rfl, hs⟩ := key.tokens_inj key' (noOperand_colon _ _) (noOperand_colon _ _) h
      simp only [List.cons.injEq, Located.mk.injEq, and_true] at hs
      obtain ⟨rfl, hs⟩ := hs
      obtain ⟨rfl, hv⟩ := value.tokens_inj value' (rest.noOperand _ _) (rest'.noOperand _ _) hs
      obtain ⟨rfl, rfl, rfl⟩ := rest.tokens_inj rest' hv
      exact ⟨rfl, rfl, rfl⟩
termination_by structural entries

theorem MoreEntries.tokens_inj (entries entries' : MoreEntries) {closing closing' : Position}
    {r r' : List Token}
    (h : entries.tokens ++ ⟨closing, .closeBrace⟩ :: r =
      entries'.tokens ++ ⟨closing', .closeBrace⟩ :: r') :
    entries = entries' ∧ closing = closing' ∧ r = r' := by
  cases entries with
  | done =>
    cases entries' <;> simp [MoreEntries.tokens] at h
    exact ⟨rfl, h⟩
  | comma pos =>
    cases entries' with
    | done => simp [MoreEntries.tokens] at h
    | comma pos' =>
      simp [MoreEntries.tokens] at h
      obtain ⟨rfl, rfl, rfl⟩ := h
      exact ⟨rfl, rfl, rfl⟩
    | next comma key colon value rest =>
      simp only [MoreEntries.tokens, List.cons_append, List.nil_append, List.append_assoc,
        List.cons.injEq] at h
      exact absurd h.2 (key.closeBrace_ne _ _ _)
  | next comma key colon value rest =>
    cases entries' with
    | done => simp [MoreEntries.tokens] at h
    | comma pos' =>
      simp only [MoreEntries.tokens, List.cons_append, List.nil_append, List.append_assoc,
        List.cons.injEq] at h
      exact absurd h.2.symm (key.closeBrace_ne _ _ _)
    | next comma' key' colon' value' rest' =>
      simp only [MoreEntries.tokens, List.cons_append, List.append_assoc, List.cons.injEq,
        Located.mk.injEq, and_true] at h
      obtain ⟨rfl, h⟩ := h
      obtain ⟨rfl, hs⟩ := key.tokens_inj key' (noOperand_colon _ _) (noOperand_colon _ _) h
      simp only [List.cons.injEq, Located.mk.injEq, and_true] at hs
      obtain ⟨rfl, hs⟩ := hs
      obtain ⟨rfl, hv⟩ := value.tokens_inj value' (rest.noOperand _ _) (rest'.noOperand _ _) hs
      obtain ⟨rfl, rfl, rfl⟩ := rest.tokens_inj rest' hv
      exact ⟨rfl, rfl, rfl⟩
termination_by structural entries

end

theorem Separator.token_injective {s s' : Separator} (h : s.token = s'.token) : s = s' := by
  cases s <;> cases s' <;> simp [token] at h
  all_goals rw [h]

theorem Separator.token_ne_eof (s : Separator) (pos : Position) : s.token ≠ ⟨pos, .eof⟩ := by
  cases s <;> simp [token]

theorem Separator.token_ne_name (s : Separator) (pos : Position) (name : String) :
    s.token ≠ ⟨pos, .name name⟩ := by
  cases s <;> simp [token]

theorem Assignment.tokens_inj (a b : Assignment) {r r' : List Token} (hr : NoOperand r)
    (hr' : NoOperand r') (h : a.tokens ++ r = b.tokens ++ r') : a = b ∧ r = r' := by
  obtain ⟨pos, target, sign, value⟩ := a
  obtain ⟨pos', target', sign', value'⟩ := b
  simp only [tokens, List.cons_append, List.cons.injEq, Located.mk.injEq, Lexeme.name.injEq,
    and_true] at h
  obtain ⟨⟨rfl, rfl⟩, rfl, h⟩ := h
  obtain ⟨rfl, rfl⟩ := value.tokens_inj value' hr hr' h
  exact ⟨rfl, rfl⟩

/-- A list of tokens has at most one derivation. -/
theorem Program.tokens_injective {d d' : Program} (h : d.tokens = d'.tokens) : d = d' := by
  have hstop (pos : Position) : NoOperand [⟨pos, .eof⟩] := noOperand_cons (by simp) (by simp)
  induction d generalizing d' with
  | stop pos =>
    cases d' <;> simp [tokens, Assignment.tokens, (Separator.token_ne_eof _ _).symm] at h
    rw [h]
  | blank separator rest ih =>
    cases d' with
    | stop pos' => simp [tokens, Separator.token_ne_eof] at h
    | blank separator' rest' =>
      simp only [tokens, List.cons.injEq] at h
      rw [Separator.token_injective h.1, ih h.2]
    | statement a' separator' rest' =>
      simp [tokens, Assignment.tokens, Separator.token_ne_name] at h
    | last a' pos' => simp [tokens, Assignment.tokens, Separator.token_ne_name] at h
  | statement a separator rest ih =>
    cases d' with
    | stop pos' => simp [tokens, Assignment.tokens] at h
    | blank separator' rest' =>
      simp [tokens, Assignment.tokens, (Separator.token_ne_name _ _ _).symm] at h
    | statement a' separator' rest' =>
      obtain ⟨rfl, hs⟩ := a.tokens_inj a' (separator.noOperand _) (separator'.noOperand _) h
      simp only [List.cons.injEq] at hs
      rw [Separator.token_injective hs.1, ih hs.2]
    | last a' pos' =>
      obtain ⟨-, h⟩ := a.tokens_inj a' (separator.noOperand _) (hstop pos') h
      simp [Separator.token_ne_eof] at h
  | last a pos =>
    cases d' with
    | stop pos' => simp [tokens, Assignment.tokens] at h
    | blank separator' rest' =>
      simp [tokens, Assignment.tokens, (Separator.token_ne_name _ _ _).symm] at h
    | statement a' separator' rest' =>
      obtain ⟨-, h⟩ := a.tokens_inj a' (hstop pos) (separator'.noOperand _) h
      simp [(Separator.token_ne_eof _ _).symm] at h
    | last a' pos' =>
      obtain ⟨rfl, hs⟩ := a.tokens_inj a' (hstop pos) (hstop pos') h
      simp only [List.cons.injEq, Located.mk.injEq, and_true] at hs
      rw [hs]

end PinnedDeps.Grammar
