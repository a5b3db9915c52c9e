import PinnedDeps.Proofs.Grammar.Unambiguity

/-! The reader reads what the grammar derives. From the point where a value must start, the tokens
of an operand lead to the point behind that operand, with the tree it denotes; brackets inside it
are opened and closed again, and the levels around it stay as they are. The number of open levels
is the depth at which the tokens of the operand have to be nested within the limit. -/

namespace PinnedDeps

open Grammar

namespace Reader

theorem readAll_cons {r : Reader} {t : Token} (r' : Reader) (h : r.read t = .ok r') (ht : t.item ≠ .eof)
    (rest : List Token) : r.readAll (t :: rest) = r'.readAll rest := by
  simp only [readAll, h, ht, if_false]

theorem readAll_cons_congr {r r' : Reader} {t : Token} (h : r.read t = r'.read t)
    (rest : List Token) : r.readAll (t :: rest) = r'.readAll (t :: rest) := by
  simp only [readAll, h]

theorem read_value (done : List Statement) (ctx : Context) (t : Token) :
    (⟨done, .value ctx⟩ : Reader).read t = (readValue ctx t).map (⟨done, ·⟩) := rfl

/-- Between a literal and an operand only a further literal makes a difference. -/
theorem read_text {t : Token} (ht : ∀ text, t.item ≠ .string text) (done : List Statement)
    (ctx : Context) (pos : Position) (text : String) :
    (⟨done, .text ctx pos text⟩ : Reader).read t =
      (⟨done, .operand ctx (.str pos text)⟩ : Reader).read t := by
  obtain ⟨at', item⟩ := t
  cases item with
  | string more => exact absurd rfl (ht more)
  | _ => rfl

/-- A token that continues no sum completes the one that has been read. -/
theorem read_operand {t : Token} (ht : t.item ≠ .plus) (done : List Statement) (ctx : Context)
    (e : Expr) :
    (⟨done, .operand ctx e⟩ : Reader).read t =
      (⟨done, .operand { ctx with before := none } (sumWith e ctx.before)⟩ : Reader).read t := by
  obtain ⟨at', item⟩ := t
  cases item with
  | plus => exact absurd rfl ht
  | _ => rfl

/-- Inside a bracket, a token that continues no sum is read behind the whole sum. -/
theorem readAfter_inside {t : Token} (ht : t.item ≠ .plus) (done : List Statement) (target : String)
    (place : Position) (level : Level) (outer : List Level) (before : Option Operands) (e : Expr) :
    readAfter done ⟨target, place, level :: outer, before⟩ e t =
      (readInside ⟨target, place, level :: outer, before⟩ level outer (sumWith e before) t).map
        (⟨done, ·⟩) := by
  obtain ⟨at', item⟩ := t
  cases item with
  | plus => exact absurd rfl ht
  | _ => rfl

/-- A bracket opens a level as long as fewer are open than may be. -/
theorem map_enter {target : String} {place pos : Position} {outer : List Level}
    {before : Option Operands} {bracket : Bracket} (h : outer.length + 1 ≤ maxNesting)
    (done : List Statement) :
    (enter ⟨target, place, outer, before⟩ pos bracket).map (⟨done, ·⟩ : Point → Reader) =
      .ok ⟨done, .value ⟨target, place, ⟨bracket, before⟩ :: outer, none⟩⟩ := by
  simp only [enter]
  rw [if_pos (Nat.lt_of_succ_le h)]
  rfl

/-- The sum of what has been read of it and the operands from `e` on. -/
def sumOnto (before : Option Operands) (e : Expr) (more : List (Position × Expr)) : Expr :=
  match before with
  | none => sumTree e more
  | some b => .sum b.pos b.first (b.rest.reverse ++ (b.plus, e) :: more)

theorem sumOnto_nil (before : Option Operands) (e : Expr) :
    sumOnto before e [] = sumWith e before := by
  cases before <;> simp [sumOnto, sumWith, sumTree]

theorem sumOnto_addOperand (before : Option Operands) (e e' : Expr) (plus : Position)
    (more : List (Position × Expr)) :
    sumOnto (some (addOperand before e plus)) e' more = sumOnto before e ((plus, e') :: more) := by
  cases before <;> simp [sumOnto, addOperand, sumTree]

theorem readAll_literals (done : List Statement) (ctx : Context) (pos : Position) (text : String)
    (more : List (Located String)) (rest : List Token) :
    (⟨done, .text ctx pos text⟩ : Reader).readAll
        (more.map (fun s => ⟨s.pos, .string s.item⟩) ++ rest) =
      (⟨done, .text ctx pos (joined text more)⟩ : Reader).readAll rest := by
  induction more generalizing text with
  | nil => rfl
  | cons s more ih =>
    rw [List.map_cons, List.cons_append, readAll_cons ⟨done, .text ctx pos (text ++ s.item)⟩
      rfl (by simp), ih]
    rfl

theorem readValue_constant (ctx : Context) (pos : Position) (c : Constant) :
    readValue ctx ⟨pos, .name c.word⟩ = .ok (.operand ctx (c.tree pos)) := by
  cases c <;> simp [readValue, Constant.word, Constant.tree]

end Reader

open Reader

mutual

/-- An operand is read where a value must start, and is an operand of the same sum. -/
theorem Grammar.Primary.readAll_tokens (p : Primary) {done : List Statement}
    {target : String} {place : Position} {outer : List Level} {before : Option Operands} {rest : List Token}
    (hr : NoLiteral rest) (hne : rest ≠ [])
    (hn : NestedWithin outer.length p.tokens) :
    (⟨done, .value ⟨target, place, outer, before⟩⟩ : Reader).readAll (p.tokens ++ rest) =
      (⟨done, .operand ⟨target, place, outer, before⟩ p.tree⟩ : Reader).readAll rest := by
  cases p with
  | strings pos text more =>
    rw [Primary.tokens, List.cons_append, readAll_cons ⟨done, .text _ pos text⟩ rfl
      (by simp), readAll_literals]
    obtain ⟨t, rest, rfl⟩ := List.exists_cons_of_ne_nil hne
    exact readAll_cons_congr (read_text (hr t rfl) _ _ _ _) rest
  | integer pos value => exact readAll_cons _ rfl (by simp) rest
  | constant pos c =>
    refine readAll_cons _ ?_ (by simp) rest
    rw [read_value, readValue_constant]
    rfl
  | map opening entries closing =>
    simp only [Primary.tokens, nestedWithin_cons, nestedWithin_append, Lexeme.depthAfter] at hn
    have hopen : (⟨done, .value ⟨target, place, outer, before⟩⟩ : Reader).read ⟨opening, .openBrace⟩ =
        .ok ⟨done, .value ⟨target, place, ⟨.key opening [], before⟩ :: outer, none⟩⟩ := map_enter hn.1 done
    rw [Primary.tokens, List.cons_append, List.append_assoc, readAll_cons _ hopen (by simp)]
    exact entries.readAll_tokens hn.2.1
  | list opening items closing =>
    simp only [Primary.tokens, nestedWithin_cons, nestedWithin_append, Lexeme.depthAfter] at hn
    have hopen : (⟨done, .value ⟨target, place, outer, before⟩⟩ : Reader).read ⟨opening, .openBracket⟩ =
        .ok ⟨done, .value ⟨target, place, ⟨.list opening [], before⟩ :: outer, none⟩⟩ := map_enter hn.1 done
    rw [Primary.tokens, List.cons_append, List.append_assoc, readAll_cons _ hopen (by simp)]
    exact items.readAll_tokens hn.2.1
  | paren opening inner closing =>
    simp only [Primary.tokens, nestedWithin_cons, nestedWithin_append, Lexeme.depthAfter] at hn
    have hopen : (⟨done, .value ⟨target, place, outer, before⟩⟩ : Reader).read ⟨opening, .openParen⟩ =
        .ok ⟨done, .value ⟨target, place, ⟨.paren, before⟩ :: outer, none⟩⟩ := map_enter hn.1 done
    rw [Primary.tokens, List.cons_append, List.append_assoc, readAll_cons _ hopen (by simp)]
    rw [List.singleton_append, inner.readAll_tokens (⟨.paren, before⟩ :: outer)
      (noOperand_closeParen closing rest) (by simp) hn.2.1]
    exact readAll_cons _ rfl (by simp) rest
  | var name opening argument closing =>
    simp only [Primary.tokens, nestedWithin_cons, nestedWithin_append, Lexeme.depthAfter] at hn
    have hopen : (⟨done, .name ⟨target, place, outer, before⟩ name "Var"⟩ : Reader).read
        ⟨opening, .openParen⟩ =
        .ok ⟨done, .value ⟨target, place, ⟨.var name, before⟩ :: outer, none⟩⟩ := by
      simp only [Reader.read, if_true]
      exact map_enter hn.2.1 done
    rw [Primary.tokens, List.cons_append, List.cons_append, List.append_assoc]
    rw [readAll_cons ⟨done, .name ⟨target, place, outer, before⟩ name "Var"⟩ rfl (by simp),
      readAll_cons _ hopen (by simp)]
    rw [List.singleton_append, argument.readAll_tokens (⟨.var name, before⟩ :: outer)
      (noOperand_closeParen closing rest) (by simp) hn.2.2.1]
    exact readAll_cons _ rfl (by simp) rest
termination_by structural p

theorem Grammar.Expression.readAll_tokens (x : Expression) {done : List Statement}
    {target : String} {place : Position} (outer : List Level) {rest : List Token}
    (hr : NoOperand rest) (hne : rest ≠ [])
    (hn : NestedWithin outer.length x.tokens) :
    (⟨done, .value ⟨target, place, outer, none⟩⟩ : Reader).readAll (x.tokens ++ rest) =
      (⟨done, .operand ⟨target, place, outer, none⟩ x.tree⟩ : Reader).readAll rest := by
  obtain ⟨first, more⟩ := x
  rw [Expression.tokens, nestedWithin_append, first.depthBehind_tokens] at hn
  rw [Expression.tokens, List.append_assoc, first.readAll_tokens (more.noLiteral hr) (by simp [hne])
    hn.1, more.readAll_tokens hr hne hn.2]
  rfl
termination_by structural x

theorem Grammar.Summands.readAll_tokens (s : Summands) {done : List Statement}
    {target : String} {place : Position} {outer : List Level} {before : Option Operands} {rest : List Token}
    {e : Expr} (hr : NoOperand rest)
    (hne : rest ≠ []) (hn : NestedWithin outer.length s.tokens) :
    (⟨done, .operand ⟨target, place, outer, before⟩ e⟩ : Reader).readAll (s.tokens ++ rest) =
      (⟨done, .operand ⟨target, place, outer, none⟩ (sumOnto before e s.trees)⟩ : Reader).readAll
        rest := by
  cases s with
  | done =>
    obtain ⟨t, rest, rfl⟩ := List.exists_cons_of_ne_nil hne
    rw [Summands.trees, sumOnto_nil]
    exact readAll_cons_congr (read_operand (hr.2 t rfl) _ _ _) rest
  | plus pos operand more =>
    rw [Summands.tokens, nestedWithin_cons, nestedWithin_append, operand.depthBehind_tokens] at hn
    rw [Summands.tokens, List.cons_append, List.append_assoc]
    rw [readAll_cons ⟨done, .value ⟨target, place, outer, some (addOperand before e pos)⟩⟩
      rfl (by simp)]
    rw [operand.readAll_tokens (more.noLiteral hr) (by simp [hne]) hn.2.1,
      more.readAll_tokens hr hne hn.2.2, sumOnto_addOperand]
    rfl
termination_by structural s

theorem Grammar.Items.readAll_tokens (items : Items) {done : List Statement}
    {target : String} {place : Position} {outer : List Level} {before : Option Operands} {rest : List Token}
    {opening closing : Position}
    (hn : NestedWithin (outer.length + 1) items.tokens) :
    (⟨done, .value ⟨target, place, ⟨.list opening [], before⟩ :: outer, none⟩⟩ : Reader).readAll
        (items.tokens ++ ⟨closing, .closeBracket⟩ :: rest) =
      (⟨done, .operand ⟨target, place, outer, before⟩ (.list opening items.trees)⟩ :
        Reader).readAll rest := by
  cases items with
  | empty => exact readAll_cons _ rfl (by simp) rest
  | first item more =>
    rw [Items.tokens, nestedWithin_append, item.depthBehind_tokens] at hn
    rw [Items.tokens, List.append_assoc, item.readAll_tokens (_ :: outer) (more.noOperand closing rest) (by simp)
      hn.1, more.readAll_tokens hn.2]
    rfl
termination_by structural items

theorem Grammar.MoreItems.readAll_tokens (items : MoreItems) {done : List Statement}
    {target : String} {place : Position} {outer : List Level} {before : Option Operands} {rest : List Token}
    {opening closing : Position}
    {e : Expr} {read : List Expr} (hn : NestedWithin (outer.length + 1) items.tokens) :
    (⟨done, .operand ⟨target, place, ⟨.list opening read, before⟩ :: outer, none⟩ e⟩ :
        Reader).readAll (items.tokens ++ ⟨closing, .closeBracket⟩ :: rest) =
      (⟨done, .operand ⟨target, place, outer, before⟩
        (.list opening ((e :: read).reverse ++ items.trees))⟩ : Reader).readAll rest := by
  cases items with
  | done =>
    rw [MoreItems.trees, List.append_nil]
    exact readAll_cons _ rfl (by simp) rest
  | comma pos =>
    rw [MoreItems.trees, List.append_nil, MoreItems.tokens, List.singleton_append]
    rw [readAll_cons ⟨done,
      .value ⟨target, place, ⟨.list opening (e :: read), before⟩ :: outer, none⟩⟩ rfl (by simp)]
    exact readAll_cons _ rfl (by simp) rest
  | next comma item more =>
    rw [MoreItems.tokens, nestedWithin_cons, nestedWithin_append, item.depthBehind_tokens] at hn
    rw [MoreItems.tokens, List.cons_append, List.append_assoc]
    rw [readAll_cons ⟨done,
      .value ⟨target, place, ⟨.list opening (e :: read), before⟩ :: outer, none⟩⟩ rfl (by simp)]
    rw [item.readAll_tokens (_ :: outer) (more.noOperand closing rest) (by simp) hn.2.1,
      more.readAll_tokens hn.2.2, MoreItems.trees, List.reverse_cons, List.append_assoc]
    rfl
termination_by structural items

theorem Grammar.Entries.readAll_tokens (entries : Entries) {done : List Statement}
    {target : String} {place : Position} {outer : List Level} {before : Option Operands} {rest : List Token}
    {opening closing : Position}
    (hn : NestedWithin (outer.length + 1) entries.tokens) :
    (⟨done, .value ⟨target, place, ⟨.key opening [], before⟩ :: outer, none⟩⟩ : Reader).readAll
        (entries.tokens ++ ⟨closing, .closeBrace⟩ :: rest) =
      (⟨done, .operand ⟨target, place, outer, before⟩ (.map opening entries.trees)⟩ :
        Reader).readAll rest := by
  cases entries with
  | empty => exact readAll_cons _ rfl (by simp) rest
  | first key colon value more =>
    rw [Entries.tokens, nestedWithin_append, nestedWithin_cons, nestedWithin_append,
      key.depthBehind_tokens, value.depthBehind_tokens] at hn
    rw [Entries.tokens, List.append_assoc, List.cons_append, List.append_assoc,
      key.readAll_tokens (_ :: outer) (noOperand_colon _ _) (by simp) hn.1]
    rw [readAll_cons ⟨done,
      .value ⟨target, place, ⟨.entry opening [] key.tree, before⟩ :: outer, none⟩⟩ rfl (by simp)]
    rw [value.readAll_tokens (_ :: outer) (more.noOperand closing rest) (by simp) hn.2.2.1,
      more.readAll_tokens hn.2.2.2]
    rfl
termination_by structural entries

theorem Grammar.MoreEntries.readAll_tokens (entries : MoreEntries) {done : List Statement}
    {target : String} {place : Position} {outer : List Level} {before : Option Operands} {rest : List Token}
    {opening closing : Position}
    {key e : Expr} {read : List (Expr × Expr)}
    (hn : NestedWithin (outer.length + 1) entries.tokens) :
    (⟨done, .operand ⟨target, place, ⟨.entry opening read key, before⟩ :: outer, none⟩ e⟩ :
        Reader).readAll (entries.tokens ++ ⟨closing, .closeBrace⟩ :: rest) =
      (⟨done, .operand ⟨target, place, outer, before⟩
        (.map opening (((key, e) :: read).reverse ++ entries.trees))⟩ : Reader).readAll rest := by
  cases entries with
  | done =>
    rw [MoreEntries.trees, List.append_nil]
    exact readAll_cons _ rfl (by simp) rest
  | comma pos =>
    rw [MoreEntries.trees, List.append_nil, MoreEntries.tokens, List.singleton_append]
    rw [readAll_cons ⟨done,
      .value ⟨target, place, ⟨.key opening ((key, e) :: read), before⟩ :: outer, none⟩⟩ rfl
      (by simp)]
    exact readAll_cons _ rfl (by simp) rest
  | next comma key' colon value more =>
    rw [MoreEntries.tokens, nestedWithin_cons, nestedWithin_append, nestedWithin_cons,
      nestedWithin_append, key'.depthBehind_tokens, value.depthBehind_tokens] at hn
    rw [MoreEntries.tokens, List.cons_append, List.append_assoc, List.cons_append,
      List.append_assoc]
    rw [readAll_cons ⟨done,
      .value ⟨target, place, ⟨.key opening ((key, e) :: read), before⟩ :: outer, none⟩⟩ rfl
      (by simp)]
    rw [key'.readAll_tokens (_ :: outer) (noOperand_colon _ _) (by simp) hn.2.1]
    rw [readAll_cons ⟨done, .value ⟨target, place,
      ⟨.entry opening ((key, e) :: read) key'.tree, before⟩ :: outer, none⟩⟩ rfl (by simp)]
    rw [value.readAll_tokens (_ :: outer) (more.noOperand closing rest) (by simp) hn.2.2.2.1,
      more.readAll_tokens hn.2.2.2.2, MoreEntries.trees, List.reverse_cons, List.append_assoc]
    rfl
termination_by structural entries

end

theorem Grammar.Assignment.depthBehind_tokens (a : Assignment) (depth : Nat) :
    depthBehind depth a.tokens = depth := a.value.depthBehind_tokens depth

theorem Grammar.Separator.nestedWithin_cons_token (s : Separator) (depth : Nat)
    (rest : List Token) :
    NestedWithin depth (s.token :: rest) ↔ depth ≤ maxNesting ∧ NestedWithin depth rest := by
  cases s <;> rfl

theorem Grammar.Assignment.readAll_tokens (a : Assignment) {done : List Statement}
    {rest : List Token} (hr : NoOperand rest) (hne : rest ≠ []) (hn : NestedWithin 0 a.tokens) :
    (⟨done, .outside⟩ : Reader).readAll (a.tokens ++ rest) =
      (⟨done, .operand ⟨a.target, a.pos, [], none⟩ a.value.tree⟩ : Reader).readAll rest := by
  rw [Assignment.tokens, List.cons_append, List.cons_append,
    readAll_cons ⟨done, .target a.pos a.target⟩ rfl (by simp),
    readAll_cons ⟨done, .value ⟨a.target, a.pos, [], none⟩⟩ rfl (by simp)]
  exact a.value.readAll_tokens [] hr hne hn.2.2

/-- A token between statements also ends the one before it. -/
theorem readAll_separator (s : Separator) (done : List Statement) (rest : List Token) :
    (⟨done, .outside⟩ : Reader).readAll (s.token :: rest) =
      (⟨done, .outside⟩ : Reader).readAll rest := by
  cases s <;> exact readAll_cons _ rfl (by simp [Separator.token]) rest

theorem readAll_operand_separator (s : Separator) (done : List Statement) (target : String)
    (pos : Position) (e : Expr) (rest : List Token) :
    (⟨done, .operand ⟨target, pos, [], none⟩ e⟩ : Reader).readAll (s.token :: rest) =
      (⟨⟨target, pos, e⟩ :: done, .outside⟩ : Reader).readAll rest := by
  cases s <;> exact readAll_cons _ rfl (by simp [Separator.token]) rest

theorem Grammar.Program.readAll_tokens (d : Program) {done : List Statement}
    (hn : NestedWithin 0 d.tokens) :
    (⟨done, .outside⟩ : Reader).readAll d.tokens =
      .ok ⟨d.statements.reverse ++ done, .outside⟩ := by
  induction d generalizing done with
  | stop pos => rfl
  | blank separator rest ih =>
    rw [Program.tokens, Separator.nestedWithin_cons_token] at hn
    rw [Program.tokens, readAll_separator]
    exact ih hn.2
  | statement a separator rest ih =>
    rw [Program.tokens, nestedWithin_append, a.depthBehind_tokens,
      Separator.nestedWithin_cons_token] at hn
    rw [Program.tokens, a.readAll_tokens (separator.noOperand _) (by simp) hn.1,
      readAll_operand_separator, ih hn.2.2]
    simp [Program.statements, Assignment.tree]
  | last a pos =>
    rw [Program.tokens, nestedWithin_append] at hn
    rw [Program.tokens, a.readAll_tokens (noOperand_cons (by simp) (by simp)) (by simp) hn.1]
    rfl

/-- What is derived within the limit parses to what it denotes. -/
theorem Grammar.Program.parse_tokens (d : Program) (hn : NestedWithin 0 d.tokens) :
    parse d.tokens = .ok d.statements := by
  rw [parse, Reader.start, d.readAll_tokens hn]
  simp [Except.map]

end PinnedDeps
