import PinnedDeps.Token.Lexer
import PinnedDeps.Proofs.Grammar

/-! The lexer taken piece by piece. `Lexes` says that some characters are read as some tokens,
whatever was read before them; pieces put behind each other are read one after the other. -/

namespace PinnedDeps

/-! ### Characters and places -/

theorem Source.locate_append (p : Position) (a b : List Char) :
    Source.locate p (a ++ b) = Source.locate p a ++ Source.locate (p.afterAll a) b := by
  induction a generalizing p with
  | nil => rfl
  | cons c a ih =>
    rw [List.cons_append, locate_cons, locate_cons, ih]
    rfl

theorem Source.item_mem_of_mem_locate {p : Position} {cs : List Char} {c : Located Char}
    (h : c ∈ Source.locate p cs) : c.item ∈ cs := by
  induction cs generalizing p with
  | nil => cases h
  | cons d cs ih =>
    rw [locate_cons] at h
    rcases List.mem_cons.mp h with rfl | h
    · exact List.mem_cons_self
    · exact List.mem_cons_of_mem d (ih h)

@[simp]
theorem Source.map_item_locate (p : Position) (cs : List Char) :
    (Source.locate p cs).map (·.item) = cs := by
  induction cs generalizing p with
  | nil => rfl
  | cons c cs ih => rw [locate_cons, List.map_cons, ih]

@[simp]
theorem Source.length_locate (p : Position) (cs : List Char) :
    (Source.locate p cs).length = cs.length := by
  rw [← List.length_map (·.item), map_item_locate]

/-- A text cut in two: the second part starts at the place behind the first. -/
theorem Source.eq_of_locate_eq_append {p : Position} {cs : List Char} {a b : List (Located Char)}
    (h : Source.locate p cs = a ++ b) :
    cs = a.map (·.item) ++ b.map (·.item) ∧
      b = Source.locate (p.afterAll (a.map (·.item))) (b.map (·.item)) := by
  have hcs : cs = a.map (·.item) ++ b.map (·.item) := by
    rw [← List.map_append, ← h, map_item_locate]
  refine ⟨hcs, ?_⟩
  rw [hcs, locate_append] at h
  exact (List.append_inj_right h (by simp)).symm

/-- A prefix that satisfies a test and is followed by nothing that does is cut off as a whole. -/
theorem Lexer.span_append {α : Type} {p : α → Bool} {a rest : List α} (ha : ∀ x ∈ a, p x = true)
    (hrest : ∀ x ∈ rest.head?, p x = false) :
    (a ++ rest).takeWhile p = a ∧ (a ++ rest).dropWhile p = rest := by
  rw [List.takeWhile_append_of_pos ha, List.dropWhile_append_of_pos ha]
  cases rest with
  | nil => exact ⟨List.append_nil a, rfl⟩
  | cons x rest =>
    have hx : p x = false := hrest x rfl
    simp [hx]

theorem Text.inRanges_of_lt {n low high : Nat} {ranges : List (Nat × Nat)} (h : n < low) :
    Text.inRanges n ((low, high) :: ranges) = false := by
  rw [Text.inRanges]
  simp [Nat.not_le.mpr h]

/-- Below the first range of the table only the ASCII letters are alphabetic. -/
theorem Text.isAlphabetic_of_lt {c : Char} (h : c.toNat < 0xAA) :
    Text.isAlphabetic c = c.isAlpha := by
  have hr : Text.inRanges c.toNat Text.alphabeticRanges = false := Text.inRanges_of_lt h
  rw [Text.isAlphabetic, hr, Bool.or_false]

theorem Literal.twoMore_iff {quote : Char} {cs : List (Located Char)} :
    Literal.twoMore quote cs = true ↔ (cs.take 2).map (·.item) = [quote, quote] := by
  match cs with
  | [] | [_] => simp [Literal.twoMore]
  | _ :: _ :: _ => simp [Literal.twoMore]

namespace Lexer

variable {depth depth' depth'' : Nat} {c : Located Char} {cs rest after : List (Located Char)}
  {l : Lexeme}

/-! ### One lexeme -/

/-- What a lexeme starts with is not skipped. -/
theorem not_skipped_of_lexeme (h : lexeme c rest = .ok (l, after)) :
    isBlank c.item = false ∧ c.item ≠ '#' ∧ c.item ≠ '\\' ∧ c.item ≠ '\n' := by
  obtain ⟨pos, ch⟩ := c
  have hne : ∀ d ∈ [' ', '\t', '\r', '\x0c', '#', '\\', '\n'], ch ≠ d := by
    intro d hd heq
    have herror : lexeme ⟨pos, d⟩ rest = .error ⟨pos, .unexpectedCharacter d⟩ := by
      simp only [List.mem_cons, List.not_mem_nil, or_false] at hd
      rcases hd with rfl | rfl | rfl | rfl | rfl | rfl | rfl <;> rfl
    rw [heq, herror] at h
    cases h
  simp only [List.forall_mem_cons] at hne
  obtain ⟨h₁, h₂, h₃, h₄, h₅, h₆, h₇, -⟩ := hne
  exact ⟨by simp [isBlank, h₁, h₂, h₃, h₄], h₅, h₆, h₇⟩

theorem skipBlanks_of_lexeme (h : lexeme c rest = .ok (l, after)) :
    skipBlanks (c :: rest) = .ok (c :: rest) := by
  obtain ⟨hblank, hhash, hslash, -⟩ := not_skipped_of_lexeme h
  unfold skipBlanks
  rw [hblank, if_neg (by simp), if_neg hhash, if_neg hslash]

/-- The lexer's loop with nothing said about why it ends. -/
theorem tokensFrom_eq (stop : Position) (depth : Nat) (done : List Token)
    (cs : List (Located Char)) :
    tokensFrom stop depth done cs =
      match skipBlanks cs with
      | .error e => .error e
      | .ok [] => .ok (⟨stop, .eof⟩ :: done).reverse
      | .ok (c :: rest) =>
        if c.item = '\n' then
          if suppressesNewline depth done then tokensFrom stop depth done rest
          else tokensFrom stop depth (⟨c.pos, .newline⟩ :: done) rest
        else
          match lexeme c rest with
          | .error e => .error e
          | .ok (l, after) =>
            if l.depthAfter depth > maxNesting then .error ⟨c.pos, .tooDeep⟩
            else tokensFrom stop (l.depthAfter depth) (⟨c.pos, l⟩ :: done) after := by
  rw [tokensFrom]
  split
  · next h => rw [h]
  · next h => rw [h]
  · next c rest h =>
    rw [h]
    dsimp only
    congr 1
    split
    · next hl => rw [hl]
    · next hl => rw [hl]

theorem tokensFrom_lexeme (h : lexeme c rest = .ok (l, after))
    (hd : l.depthAfter depth ≤ maxNesting) (stop : Position) (done : List Token) :
    tokensFrom stop depth done (c :: rest) =
      tokensFrom stop (l.depthAfter depth) (⟨c.pos, l⟩ :: done) after := by
  obtain ⟨-, -, -, hn⟩ := not_skipped_of_lexeme h
  rw [tokensFrom_eq, skipBlanks_of_lexeme h]
  simp only [if_neg hn, h]
  rw [if_neg (by omega)]

theorem skipBlanks_blank (h : isBlank c.item = true) : skipBlanks (c :: rest) = skipBlanks rest := by
  rw [skipBlanks.eq_def]
  exact if_pos h

theorem tokensFrom_blank (h : isBlank c.item = true) (stop : Position) (done : List Token) :
    tokensFrom stop depth done (c :: rest) = tokensFrom stop depth done rest := by
  rw [tokensFrom_eq, skipBlanks_blank h, ← tokensFrom_eq]

theorem tokensFrom_end (stop : Position) (depth : Nat) (done : List Token) :
    tokensFrom stop depth done [] = .ok (done.reverse ++ [⟨stop, .eof⟩]) := by
  rw [tokensFrom_eq]
  simp [skipBlanks]

theorem skipBlanks_lineFeed (p : Position) (rest : List (Located Char)) :
    skipBlanks (⟨p, '\n'⟩ :: rest) = .ok (⟨p, '\n'⟩ :: rest) := by
  rw [skipBlanks.eq_def]
  rfl

theorem tokensFrom_lineFeed (stop p : Position) (depth : Nat) (done : List Token)
    (rest : List (Located Char)) :
    tokensFrom stop depth done (⟨p, '\n'⟩ :: rest) =
      if suppressesNewline depth done then tokensFrom stop depth done rest
      else tokensFrom stop depth (⟨p, .newline⟩ :: done) rest := by
  rw [tokensFrom_eq, skipBlanks_lineFeed]
  exact if_pos rfl

/-- Outside brackets a line feed is a token, unless it is the first or follows another one. -/
theorem tokensFrom_newline {t : Token} (h : t.item ≠ .newline) (stop pos : Position)
    (done : List Token) :
    tokensFrom stop 0 (t :: done) (⟨pos, '\n'⟩ :: rest) =
      tokensFrom stop 0 (⟨pos, .newline⟩ :: t :: done) rest := by
  rw [tokensFrom_lineFeed]
  simp [suppressesNewline, h]

/-! ### Pieces -/

/-- With `depth` brackets open and `rest` behind them, the characters are read as the tokens, and
`depth'` brackets are open then. -/
def Lexes (depth : Nat) (cs : List (Located Char)) (tokens : List Token) (depth' : Nat)
    (rest : List (Located Char)) : Prop :=
  ∀ stop done,
    tokensFrom stop depth done (cs ++ rest) = tokensFrom stop depth' (tokens.reverse ++ done) rest

theorem Lexes.nil (depth : Nat) (rest : List (Located Char)) : Lexes depth [] [] depth rest :=
  fun _ _ => rfl

theorem Lexes.append {a b : List (Located Char)} {tokens tokens' : List Token}
    (h : Lexes depth a tokens depth' (b ++ rest)) (h' : Lexes depth' b tokens' depth'' rest) :
    Lexes depth (a ++ b) (tokens ++ tokens') depth'' rest := by
  intro stop done
  rw [List.append_assoc, h, h', List.reverse_append, List.append_assoc]

theorem Lexes.locate_append {p : Position} {a b : List Char} {tokens tokens' : List Token}
    (h : Lexes depth (Source.locate p a) tokens depth' (Source.locate (p.afterAll a) b ++ rest))
    (h' : Lexes depth' (Source.locate (p.afterAll a) b) tokens' depth'' rest) :
    Lexes depth (Source.locate p (a ++ b)) (tokens ++ tokens') depth'' rest := by
  rw [Source.locate_append]
  exact h.append h'

theorem Lexes.of_lexeme (h : lexeme c (cs ++ rest) = .ok (l, rest))
    (hd : l.depthAfter depth ≤ maxNesting) :
    Lexes depth (c :: cs) [⟨c.pos, l⟩] (l.depthAfter depth) rest :=
  fun stop done => tokensFrom_lexeme h hd stop done

theorem Lexes.of_blank (h : isBlank c.item = true) (depth : Nat) (rest : List (Located Char)) :
    Lexes depth [c] [] depth rest :=
  fun stop done => tokensFrom_blank h stop done

/-! ### What follows -/

/-- What follows starts with one of the characters, if there is anything. -/
def StartsIn (chars : List Char) (rest : List (Located Char)) : Prop :=
  ∀ d ∈ rest.head?, d.item ∈ chars

theorem StartsIn.nil (chars : List Char) : StartsIn chars [] := by
  intro d hd
  cases hd

theorem StartsIn.cons {chars : List Char} {c : Char} (h : c ∈ chars) (p : Position)
    (rest : List (Located Char)) : StartsIn chars (⟨p, c⟩ :: rest) := by
  intro d hd
  obtain rfl : ⟨p, c⟩ = d := by simpa using hd
  exact h

theorem StartsIn.elim {chars : List Char} {P : Char → Prop} [DecidablePred P]
    (h : StartsIn chars rest) (hp : (chars.all fun c => P c) = true) :
    ∀ d ∈ rest.head?, P d.item :=
  fun d hd => of_decide_eq_true (List.all_eq_true.mp hp d.item (h d hd))

/-! ### Names -/

/-- A name as the dialect writes them. -/
def IsName (name : String) : Prop :=
  ∃ c cs, name.toList = c :: cs ∧ isNameStart c = true ∧ cs.all isNameRest = true

theorem isDigit_of_isNameStart {ch : Char} (h : isNameStart ch = true) : ch.isDigit = false := by
  rw [Bool.eq_false_iff]
  intro hd
  have hn : 48 ≤ ch.toNat ∧ ch.toNat ≤ 57 := Char.isDigit_iff_toNat.mp hd
  have halpha : ch.isAlpha = false := by
    have hv : ch.val.toNat = ch.toNat := rfl
    rw [Bool.eq_false_iff]
    intro ha
    rcases Bool.or_eq_true_iff.mp ha with hupper | hlower
    · have hle : 'A'.val ≤ ch.val := (of_decide_eq_true hupper).1
      have hn' : 65 ≤ ch.val.toNat := UInt32.le_iff_toNat_le.mp hle
      omega
    · have hle : 'a'.val ≤ ch.val := of_decide_eq_true (Bool.and_eq_true_iff.mp hlower).1
      have hn' : 97 ≤ ch.val.toNat := UInt32.le_iff_toNat_le.mp hle
      omega
  have hne : ch ≠ '_' := by
    rintro rfl
    exact absurd hn (by decide)
  rw [isNameStart, Text.isAlphabetic_of_lt (by omega), halpha] at h
  simp [hne] at h

theorem lexeme_of_isNameStart {pos : Position} {ch : Char} (h : isNameStart ch = true) :
    lexeme ⟨pos, ch⟩ rest = nameOrLiteral ⟨pos, ch⟩ rest := by
  unfold lexeme
  split
  case h_14 => rw [if_neg (by simp [isDigit_of_isNameStart h]), if_pos h]
  all_goals
    next heq =>
      obtain rfl := heq
      exact absurd h (by decide)

/-- A name ends where no character of a name follows, and no quote. -/
theorem lexeme_name {pos p : Position} {ch : Char} {cs : List Char} (hc : isNameStart ch = true)
    (hcs : cs.all isNameRest = true)
    (hrest : ∀ d ∈ rest.head?, isNameRest d.item = false ∧ isQuote d.item = false) :
    lexeme ⟨pos, ch⟩ (Source.locate p cs ++ rest) =
      .ok (.name (String.ofList (ch :: cs)), rest) := by
  have hall : ∀ d ∈ Source.locate p cs, isNameRest d.item = true := fun d hd =>
    List.all_eq_true.mp hcs d.item (Source.item_mem_of_mem_locate hd)
  obtain ⟨htake, hdrop⟩ := span_append hall fun d hd => (hrest d hd).1
  rw [lexeme_of_isNameStart hc, nameOrLiteral, htake, hdrop, Source.map_item_locate]
  cases rest with
  | nil => rfl
  | cons d rest => simp [(hrest d rfl).2]

theorem lexes_name {name : String} (h : IsName name)
    (hrest : ∀ d ∈ rest.head?, isNameRest d.item = false ∧ isQuote d.item = false)
    (hd : depth ≤ maxNesting) (p : Position) :
    Lexes depth (Source.locate p name.toList) [⟨p, .name name⟩] depth rest := by
  obtain ⟨c, cs, hname, hc, hcs⟩ := h
  rw [hname, Source.locate_cons]
  have hl : lexeme ⟨p, c⟩ (Source.locate (p.after c) cs ++ rest) =
      .ok (.name (String.ofList (c :: cs)), rest) := lexeme_name hc hcs hrest
  rw [← hname, String.ofList_toList] at hl
  exact Lexes.of_lexeme hl hd

/-! ### String literals -/

/-- How a character is written inside a literal that `quote` opens. -/
def escaped (quote c : Char) : List Char :=
  if c = '\\' then ['\\', '\\']
  else if c = quote then ['\\', quote]
  else if c = '\n' then ['\\', 'n']
  else [c]

theorem isQuote_iff {quote : Char} : isQuote quote = true ↔ quote = '\'' ∨ quote = '"' := by
  simp [isQuote]

theorem ne_of_isQuote {quote c : Char} (h : isQuote quote = true) (hc : isQuote c = false) :
    c ≠ quote := by
  rintro rfl
  exact absurd h (by simp [hc])

theorem stringBody_escape {quote : Char} {triple : Bool} (hq : isQuote quote = true)
    {start p : Position} {done : List Char} {e : Located Char} {escape : Escape}
    (h : Escape.read start e.item rest = .ok escape) :
    Literal.stringBody false triple quote start done (⟨p, '\\'⟩ :: e :: rest) =
      Literal.stringBody false triple quote start (escape.text.reverse ++ done)
        (rest.drop escape.taken) := by
  rw [Literal.stringBody.eq_def]
  simp [ne_of_isQuote hq (c := '\\') rfl, h]

/-- A line feed ends an ordinary line, not one of a literal between three quotes. -/
theorem stringBody_char {raw triple : Bool} {quote c : Char} {start p : Position}
    {done : List Char} (hquote : c ≠ quote) (hslash : c ≠ '\\')
    (hline : triple = false → c ≠ '\n') :
    Literal.stringBody raw triple quote start done (⟨p, c⟩ :: rest) =
      Literal.stringBody raw triple quote start (c :: done) rest := by
  rw [Literal.stringBody.eq_def]
  cases triple <;> simp_all

theorem stringBody_plain {raw triple : Bool} {quote c : Char} {start p : Position}
    {done : List Char} (hquote : c ≠ quote) (hslash : c ≠ '\\') (hline : c ≠ '\n') :
    Literal.stringBody raw triple quote start done (⟨p, c⟩ :: rest) =
      Literal.stringBody raw triple quote start (c :: done) rest :=
  stringBody_char hquote hslash fun _ => hline

theorem stringBody_pair {quote : Char} {triple : Bool} (hq : isQuote quote = true)
    {start p : Position} {done : List Char} (e : Located Char) :
    Literal.stringBody true triple quote start done (⟨p, '\\'⟩ :: e :: rest) =
      Literal.stringBody true triple quote start (e.item :: '\\' :: done) rest := by
  rw [Literal.stringBody.eq_def]
  simp [ne_of_isQuote hq (c := '\\') rfl]

/-- Between three quotes a quote that is not the first of three is kept. -/
theorem stringBody_quote {raw : Bool} {quote : Char} {start p : Position} {done : List Char}
    (h : Literal.twoMore quote rest = false) :
    Literal.stringBody raw true quote start done (⟨p, quote⟩ :: rest) =
      Literal.stringBody raw true quote start (quote :: done) rest := by
  rw [Literal.stringBody.eq_def]
  simp [h]

/-- What opens and closes a literal. -/
def delimiter (quote : Char) (triple : Bool) : List Char :=
  if triple then [quote, quote, quote] else [quote]

theorem stringBody_delimiter {raw triple : Bool} {quote : Char} {start : Position}
    {done : List Char} {closing : List (Located Char)}
    (h : closing.map (·.item) = delimiter quote triple) (rest : List (Located Char)) :
    Literal.stringBody raw triple quote start done (closing ++ rest) =
      .ok (done.reverse, rest) := by
  cases triple with
  | false =>
    obtain ⟨c, rfl, rfl⟩ := List.map_eq_singleton_iff.mp h
    rw [List.singleton_append, Literal.stringBody.eq_def]
    simp
  | true =>
    obtain ⟨a, closing, rfl, rfl, h⟩ := List.map_eq_cons_iff.mp h
    obtain ⟨b, closing, rfl, hb, h⟩ := List.map_eq_cons_iff.mp h
    obtain ⟨c, rfl, hc⟩ := List.map_eq_singleton_iff.mp h
    simp only [List.cons_append, List.nil_append]
    rw [Literal.stringBody.eq_def]
    simp [Literal.twoMore, hb, hc]

theorem stringBody_of_escaped {quote : Char} (hq : isQuote quote = true) (text : List Char)
    (p q start : Position) (done : List Char) (rest : List (Located Char)) :
    Literal.stringBody false false quote start done
        (Source.locate p (text.flatMap (escaped quote)) ++ ⟨q, quote⟩ :: rest) =
      .ok (done.reverse ++ text, rest) := by
  induction text generalizing p done with
  | nil =>
    rw [List.flatMap_nil, Source.locate_nil, List.nil_append, Literal.stringBody.eq_def]
    simp
  | cons c text ih =>
    rw [List.flatMap_cons, escaped]
    split
    · next hslash =>
      simp only [List.cons_append, List.nil_append, Source.locate_cons]
      rw [stringBody_escape hq rfl, List.drop_zero, ih]
      simp [hslash]
    split
    · next hquote =>
      have hread : Escape.read start quote
          (Source.locate ((p.after '\\').after quote) (text.flatMap (escaped quote)) ++
            ⟨q, quote⟩ :: rest) = .ok ⟨[quote], 0⟩ := by
        rcases isQuote_iff.mp hq with rfl | rfl <;> rfl
      simp only [List.cons_append, List.nil_append, Source.locate_cons]
      rw [stringBody_escape hq hread, List.drop_zero, ih]
      simp [hquote]
    split
    · next hline =>
      simp only [List.cons_append, List.nil_append, Source.locate_cons]
      rw [stringBody_escape hq rfl, List.drop_zero, ih]
      simp [hline]
    · next hslash hquote hline =>
      simp only [List.cons_append, List.nil_append, Source.locate_cons]
      rw [stringBody_plain hquote hslash hline, ih]
      simp

theorem exists_escaped_cons {quote : Char} (hq : isQuote quote = true) (c : Char) :
    ∃ first more, escaped quote c = first :: more ∧ first ≠ quote := by
  have hslash : '\\' ≠ quote := by
    rcases isQuote_iff.mp hq with rfl | rfl <;> decide
  unfold escaped
  split
  · exact ⟨_, _, rfl, hslash⟩
  split
  · exact ⟨_, _, rfl, hslash⟩
  split
  · exact ⟨_, _, rfl, hslash⟩
  · next hquote _ => exact ⟨_, _, rfl, hquote⟩

theorem lexeme_of_isQuote {quote : Char} (h : isQuote quote = true) (pos : Position)
    (rest : List (Located Char)) :
    lexeme ⟨pos, quote⟩ rest = stringLexeme false ⟨pos, quote⟩ rest := by
  rcases isQuote_iff.mp h with rfl | rfl <;> rfl

/-- The quote that ends a literal is not the second of three, even if the literal is empty. -/
theorem twoMore_of_quote {quote : Char} (hcs : ∀ d ∈ cs.head?, d.item ≠ quote)
    (hrest : ∀ d ∈ rest.head?, d.item ≠ quote) (q : Position) :
    Literal.twoMore quote (cs ++ ⟨q, quote⟩ :: rest) = false := by
  cases cs with
  | nil =>
    cases rest with
    | nil => rfl
    | cons d rest => simp [Literal.twoMore, hrest d rfl]
  | cons c cs =>
    rw [List.cons_append]
    unfold Literal.twoMore
    split
    · next heq =>
      obtain ⟨rfl, -⟩ := List.cons.inj heq
      simp [hcs c rfl]
    · rfl

theorem lexeme_escaped {quote : Char} (hq : isQuote quote = true) (text : List Char)
    (pos p q : Position) (hrest : ∀ d ∈ rest.head?, d.item ≠ quote) :
    lexeme ⟨pos, quote⟩ (Source.locate p (text.flatMap (escaped quote)) ++ ⟨q, quote⟩ :: rest) =
      .ok (.string (String.ofList text), rest) := by
  have htwo : Literal.twoMore quote
      (Source.locate p (text.flatMap (escaped quote)) ++ ⟨q, quote⟩ :: rest) = false := by
    refine twoMore_of_quote (fun d hd => ?_) hrest q
    cases text with
    | nil => cases hd
    | cons c text =>
      obtain ⟨first, more, hc, hfirst⟩ := exists_escaped_cons hq c
      rw [List.flatMap_cons, hc, List.cons_append, Source.locate_cons] at hd
      obtain rfl : ⟨p, first⟩ = d := Option.some.inj hd
      exact hfirst
  rw [lexeme_of_isQuote hq, stringLexeme, Literal.string, htwo, if_neg (by simp),
    stringBody_of_escaped hq]
  rfl

theorem lexes_escaped {quote : Char} (hq : isQuote quote = true) (text : String)
    (hrest : ∀ d ∈ rest.head?, d.item ≠ quote) (hd : depth ≤ maxNesting) (p : Position) :
    Lexes depth (Source.locate p (quote :: (text.toList.flatMap (escaped quote) ++ [quote])))
      [⟨p, .string text⟩] depth rest := by
  rw [Source.locate_cons, Source.locate_append, Source.locate_cons, Source.locate_nil]
  refine Lexes.of_lexeme ?_ hd
  rw [List.append_assoc, List.singleton_append, lexeme_escaped hq text.toList p _ _ hrest,
    String.ofList_toList]

/-- Nothing of a text would end or escape in a literal between single quotes. -/
def IsPlain (text : List Char) : Prop := ∀ c ∈ text, c ≠ '\'' ∧ c ≠ '\\' ∧ c ≠ '\n'

theorem flatMap_escaped {text : List Char} (h : IsPlain text) :
    text.flatMap (escaped '\'') = text := by
  induction text with
  | nil => rfl
  | cons c text ih =>
    obtain ⟨hquote, hslash, hline⟩ := h c List.mem_cons_self
    rw [List.flatMap_cons, ih fun d hd => h d (List.mem_cons_of_mem c hd), escaped, if_neg hslash,
      if_neg hquote, if_neg hline]
    rfl

/-! ### Integers -/

theorem lexeme_of_isDigit {pos : Position} {ch : Char} (h : ch.isDigit = true) :
    lexeme ⟨pos, ch⟩ rest =
      match Literal.integer ⟨pos, ch⟩ rest with
      | .ok (n, after) => .ok (.integer n, after)
      | .error e => .error e := by
  unfold lexeme
  split
  case h_14 =>
    cases Literal.integer ⟨pos, ch⟩ rest with
    | ok pair => exact if_pos h
    | error e => exact if_pos h
  all_goals
    next heq =>
      obtain rfl := heq
      exact absurd h (by decide)

theorem foldl_digits (cs : List Char) (init : Nat) :
    (cs.map fun c => c.toNat - '0'.toNat).foldl (fun n d => n * 10 + d) init =
      Nat.ofDigitChars 10 cs init := by
  induction cs generalizing init with
  | nil => rfl
  | cons c cs ih =>
    rw [List.map_cons, List.foldl_cons, ih, Nat.ofDigitChars_cons, Nat.mul_comm init 10]

theorem integer_of_digits {pos p : Position} {n : Nat} {ch : Char} {cs : List Char}
    (hn : n ≤ Literal.maxInteger) (hdigits : Nat.toDigits 10 n = ch :: cs)
    (hrest : ∀ d ∈ rest.head?, Literal.isDigitOrUnderscore d = false ∧
      Text.isAlphabetic d.item = false ∧ d.item ≠ '.') :
    Literal.integer ⟨pos, ch⟩ (Source.locate p cs ++ rest) = .ok (n, rest) := by
  have hisDigit : ∀ c ∈ ch :: cs, c.isDigit = true := by
    intro c hc
    rw [← hdigits] at hc
    exact Nat.isDigit_of_mem_toDigits (by decide) (by decide) hc
  have hall : ∀ d ∈ Source.locate p cs, Literal.isDigitOrUnderscore d = true := by
    intro d hd
    have hitem := hisDigit d.item (List.mem_cons_of_mem ch (Source.item_mem_of_mem_locate hd))
    simp [Literal.isDigitOrUnderscore, hitem]
  obtain ⟨htake, hdrop⟩ := span_append hall fun d hd => (hrest d hd).1
  have hafter : (rest.head?.any fun c => Text.isAlphabetic c.item || c.item = '.') = false := by
    cases rest with
    | nil => rfl
    | cons d rest => simp [(hrest d rfl).2.1, (hrest d rfl).2.2]
  have hvalue : Escape.ofDigits 10 ((ch :: cs).map fun c => c.toNat - '0'.toNat) = n := by
    rw [Escape.ofDigits, foldl_digits, ← hdigits, Nat.ofDigitChars_ten_toDigits]
  unfold Literal.integer
  rw [htake, hdrop, List.map_cons, Source.map_item_locate, List.filter_eq_self.mpr hisDigit]
  dsimp only
  rw [hafter, hvalue, if_neg (by simp), if_pos hn]

theorem lexeme_integer {pos p : Position} {n : Nat} {ch : Char} {cs : List Char}
    (hn : n ≤ Literal.maxInteger) (hdigits : Nat.toDigits 10 n = ch :: cs)
    (hrest : ∀ d ∈ rest.head?, Literal.isDigitOrUnderscore d = false ∧
      Text.isAlphabetic d.item = false ∧ d.item ≠ '.') :
    lexeme ⟨pos, ch⟩ (Source.locate p cs ++ rest) = .ok (.integer n, rest) := by
  have hdigit : ch.isDigit = true := by
    have hmem : ch ∈ Nat.toDigits 10 n := by
      rw [hdigits]
      exact List.mem_cons_self
    exact Nat.isDigit_of_mem_toDigits (by decide) (by decide) hmem
  rw [lexeme_of_isDigit hdigit, integer_of_digits hn hdigits hrest]

theorem lexes_integer {n : Nat} (h : n ≤ Literal.maxInteger)
    (hrest : ∀ d ∈ rest.head?, Literal.isDigitOrUnderscore d = false ∧
      Text.isAlphabetic d.item = false ∧ d.item ≠ '.')
    (hd : depth ≤ maxNesting) (p : Position) :
    Lexes depth (Source.locate p (Nat.toDigits 10 n)) [⟨p, .integer n⟩] depth rest := by
  obtain ⟨c, cs, hcs⟩ := List.exists_cons_of_ne_nil (Nat.toDigits_ne_nil (n := n) (b := 10))
  rw [hcs, Source.locate_cons]
  exact Lexes.of_lexeme (lexeme_integer h hcs hrest) hd

/-! ### Open brackets -/

open Grammar (depthBehind NestedWithin)

theorem depthBehind_le {d : Nat} {tokens : List Token} (h : NestedWithin d tokens)
    (hd : d ≤ maxNesting) : depthBehind d tokens ≤ maxNesting := by
  induction tokens generalizing d with
  | nil => exact hd
  | cons t tokens ih => exact ih h.2 h.1

/-- What the lexer gives opens no more brackets than may be open. -/
theorem nestedWithin_of_tokensFrom {stop : Position} {done tokens : List Token}
    (h : tokensFrom stop depth done cs = .ok tokens) (hn : NestedWithin 0 done.reverse)
    (hd : depthBehind 0 done.reverse = depth) : NestedWithin 0 tokens := by
  have hbehind : ∀ {depth done} {t : Token}, NestedWithin 0 done.reverse →
      depthBehind 0 done.reverse = depth → t.item.depthAfter depth ≤ maxNesting →
      NestedWithin 0 (t :: done).reverse ∧
        depthBehind 0 (t :: done).reverse = t.item.depthAfter depth := by
    intro depth done t hn hd ht
    rw [List.reverse_cons, Grammar.nestedWithin_append, Grammar.depthBehind_append, hd]
    exact ⟨⟨hn, ht, trivial⟩, rfl⟩
  fun_induction tokensFrom stop depth done cs with
  | case1 => cases h
  | case2 depth done cs =>
    obtain rfl := Except.ok.inj h
    have hmax : depth ≤ maxNesting := hd ▸ depthBehind_le hn (by decide)
    exact (hbehind (t := ⟨stop, .eof⟩) hn hd hmax).1
  | case3 depth done cs c rest hskip hline hs ih => exact ih h hn hd
  | case4 depth done cs c rest hskip hline hs ih =>
    have hmax : depth ≤ maxNesting := hd ▸ depthBehind_le hn (by decide)
    obtain ⟨hn', hd'⟩ := hbehind (t := ⟨c.pos, .newline⟩) hn hd hmax
    exact ih h hn' hd'
  | case5 => cases h
  | case6 => cases h
  | case7 depth done cs c rest hskip hline l after hl depth' hmax ih =>
    obtain ⟨hn', hd'⟩ := hbehind (t := ⟨c.pos, l⟩) hn hd (Nat.not_lt.mp hmax)
    exact ih h hn' hd'

end Lexer

theorem nestedWithin_of_tokenize {text : String} {tokens : List Token}
    (h : tokenize text = .ok tokens) : Grammar.NestedWithin 0 tokens :=
  Lexer.nestedWithin_of_tokensFrom h trivial rfl

end PinnedDeps
