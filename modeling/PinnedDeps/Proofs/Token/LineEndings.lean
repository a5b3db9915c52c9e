import PinnedDeps.Proofs.Token.Openings
import PinnedDeps.Proofs.Token.Returns

/-! Texts whose lines end in a carriage return and a line feed. Between tokens a carriage return is
blank, so such a text is lexed as it is without the carriage returns, but for what its string
literals make of them. It is read alike if and only if carriage returns matter to none of the
literals of the text without them; where they do, the two readings differ, or only the text without
carriage returns is lexed. -/

namespace PinnedDeps

open Text (withoutReturns withReturns)

/-- What a token says when the text of a literal loses the carriage returns before its line
feeds. -/
def Lexeme.unreturned : Lexeme → Lexeme
  | .string text => .string (String.ofList (withoutReturns text.toList))
  | l => l

namespace Lexer

/-- Two lexemes that are equal but for the text of a literal. -/
inductive SameKind (alike : Prop) : Lexeme → Lexeme → Prop
  | same (h : alike) (l : Lexeme) : SameKind alike l l
  | string {text text' : List Char} (h : withoutReturns text = withoutReturns text' ↔ alike) :
      SameKind alike (.string (String.ofList text)) (.string (String.ofList text'))

namespace SameKind

variable {alike : Prop} {l l' : Lexeme}

theorem unreturned_iff (h : SameKind alike l l') : l.unreturned = l'.unreturned ↔ alike := by
  cases h with
  | same h => exact iff_of_true rfl h
  | string h => simpa [Lexeme.unreturned, String.ofList_inj] using h

theorem depthAfter (h : SameKind alike l l') (depth : Nat) :
    l'.depthAfter depth = l.depthAfter depth := by
  cases h <;> rfl

theorem newline_iff (h : SameKind alike l l') : l' = .newline ↔ l = .newline := by
  cases h with
  | same => rfl
  | string => exact iff_of_false nofun nofun

end SameKind

/-! ### Between tokens -/

/-- What is left of both texts after blanks: nothing, or the same next character. -/
inductive Behind : List (Located Char) → List (Located Char) → Prop
  | nil : Behind [] []
  | cons {c : Char} {cs cs' : List (Located Char)} (p p' : Position) (rest : Returned cs cs') :
      Behind (⟨p, c⟩ :: cs) (⟨p', c⟩ :: cs')

theorem dropWhile_returned {cs cs' : List (Located Char)} (h : Returned cs cs') :
    Behind (cs.dropWhile fun d => d.item ≠ '\n') (cs'.dropWhile fun d => d.item ≠ '\n') := by
  induction h with
  | nil => exact .nil
  | char p p' line back rest ih => simpa [List.dropWhile_cons, line] using ih
  | line p q p' rest => simpa [List.dropWhile_cons] using .cons p p' rest

theorem skipBlanks_returned {cs cs' : List (Located Char)} (h : Returned cs cs') :
    Outcomes Behind True (skipBlanks cs) (skipBlanks cs') := by
  have hblank : isBlank '\n' = false := rfl
  have hslash : '\n' ≠ '\\' := by decide
  fun_induction skipBlanks cs generalizing cs' with
  | case1 =>
    cases h
    exact .both .nil
  | case2 c rest hb ih =>
    cases h with
    | line => exact absurd hb (by simp [hblank])
    | char p p' _ _ hrest =>
      rw [skipBlanks_blank (c := ⟨p', _⟩) hb]
      exact ih hrest
  | case3 c rest hb hc =>
    cases h with
    | line => exact absurd hc (by simp)
    | char p p' _ _ hrest =>
      rw [skipBlanks.eq_def (_ :: _)]
      dsimp only at hb hc ⊢
      rw [if_neg hb, if_pos hc]
      exact .both (dropWhile_returned hrest)
  | case4 c hb hc hs d rest hd ih =>
    cases h with
    | line => exact absurd hs hslash
    | char p p' _ _ hrest =>
      cases hrest with
      | char q q' hne => exact absurd hd hne
      | line q q' q'' hrest =>
        rw [skipBlanks.eq_def (_ :: _)]
        dsimp only at hb hc hs ⊢
        rw [if_neg hb, if_neg hc, if_pos hs, if_neg (by decide), if_pos ⟨rfl, rfl⟩]
        exact ih hrest
  | case5 c hb hc hs d hd e rest he ih =>
    cases h with
    | line => exact absurd hs hslash
    | char p p' _ _ hrest =>
      cases hrest with
      | char q q' _ hne => exact absurd he.1 hne
      | line => exact absurd rfl hd
  | case6 c hb hc hs d hd e rest he =>
    cases h with
    | line => exact absurd hs hslash
    | char p p' _ _ hrest =>
      cases hrest with
      | line => exact absurd rfl hd
      | char q q' _ hne hrest =>
        rw [skipBlanks.eq_def (_ :: _)]
        dsimp only at hb hc hs hd ⊢
        rw [if_neg hb, if_neg hc, if_pos hs, if_neg hd]
        cases hrest <;> simp only [hne, false_and, if_false] <;> exact .refused _ _
  | case7 c hb hc hs d hd =>
    cases h with
    | line => exact absurd hs hslash
    | char p p' _ _ hrest =>
      cases hrest with
      | line => exact absurd rfl hd
      | char q q' _ hne hrest =>
        cases hrest
        rw [skipBlanks.eq_def (_ :: _)]
        dsimp only at hb hc hs hd ⊢
        rw [if_neg hb, if_neg hc, if_pos hs, if_neg hd]
        exact .refused _ _
  | case8 c hb hc hs =>
    cases h with
    | line => exact absurd hs hslash
    | char p p' _ _ hrest =>
      cases hrest
      rw [skipBlanks.eq_def (_ :: _)]
      dsimp only at hb hc hs ⊢
      rw [if_neg hb, if_neg hc, if_pos hs]
      exact .refused _ _
  | case9 c rest hb hc hs =>
    cases h with
    | char p p' _ _ hrest =>
      rw [skipBlanks.eq_def (_ :: _)]
      dsimp only at hb hc hs ⊢
      rw [if_neg hb, if_neg hc, if_neg hs]
      exact .both (.cons p p' hrest)
    | line p q p' hrest =>
      rw [skipBlanks_blank rfl, skipBlanks_lineFeed]
      exact .both (.cons p p' hrest)

/-! ### Lexemes -/

/-- Whether a carriage return before every line feed changes how the literal is read. -/
def Opening.returnsMatter (o : Opening) : Bool :=
  if Literal.twoMore o.quote.item o.rest then
    Literal.returnsMatter o.raw true o.quote.item o.quote.pos [] (o.rest.drop 2)
  else Literal.returnsMatter o.raw false o.quote.item o.quote.pos [] o.rest

/-- Two lexemes, and what is behind them. -/
def LexedAs (alike : Prop) (r r' : Lexeme × List (Located Char)) : Prop :=
  SameKind alike r.1 r'.1 ∧ Returned r.2 r'.2

theorem string_returned {alike : Prop} (raw : Bool) {quote quote' : Located Char}
    {rest rest' : List (Located Char)} (hquote : isQuote quote.item = true)
    (hsame : quote'.item = quote.item) (h : Returned rest rest')
    (halike : alike ↔ (Opening.mk raw quote rest).returnsMatter = false) :
    Outcomes (Literal.ReadAs alike) alike (Literal.string raw quote rest)
      (Literal.string raw quote' rest') := by
  obtain ⟨hmore, hbehind⟩ :=
    Literal.twoMore_returned h (ne_of_isQuote hquote rfl) (ne_of_isQuote hquote rfl)
  unfold Opening.returnsMatter at halike
  unfold Literal.string
  rw [hsame, hmore]
  dsimp only at halike
  split
  · next htwo =>
    rw [if_pos htwo] at halike
    exact Literal.stringBody_returned hquote quote'.pos (hbehind htwo) .nil (by simpa using halike)
  · next htwo =>
    rw [if_neg htwo] at halike
    exact Literal.stringBody_returned hquote quote'.pos h .nil (by simpa using halike)

theorem stringLexeme_returned {alike : Prop} (raw : Bool) {quote quote' : Located Char}
    {rest rest' : List (Located Char)} (hquote : isQuote quote.item = true)
    (hsame : quote'.item = quote.item) (h : Returned rest rest')
    (halike : alike ↔ ∀ o ∈ some (Opening.mk raw quote rest), o.returnsMatter = false) :
    Outcomes (LexedAs alike) alike (stringLexeme raw quote rest)
      (stringLexeme raw quote' rest') := by
  have hstring := string_returned raw hquote hsame h (by simpa using halike)
  unfold stringLexeme
  generalize Literal.string raw quote rest = x at hstring ⊢
  generalize Literal.string raw quote' rest' = x' at hstring ⊢
  cases hstring with
  | both h => exact .both ⟨.string h.1, h.2⟩
  | refused e e' => exact .refused e e'
  | lost h => exact .lost h _ _

theorem nameOrLiteral_returned {alike : Prop} {first first' : Located Char}
    {rest rest' : List (Located Char)} (hfirst : isNameStart first.item = true)
    (hsame : first'.item = first.item) (h : Returned rest rest')
    (halike : alike ↔ ∀ o ∈ openingAt first rest, o.returnsMatter = false) :
    Outcomes (LexedAs alike) alike (nameOrLiteral first rest) (nameOrLiteral first' rest') := by
  obtain ⟨hword, hbehind⟩ := h.span isNameRest (by decide) (by decide)
  rw [openingAt_of_isNameStart hfirst] at halike
  unfold nameOrLiteral
  rw [hword, hsame]
  generalize rest.dropWhile (fun c => isNameRest c.item) = after at hbehind halike ⊢
  generalize rest'.dropWhile (fun c => isNameRest c.item) = after' at hbehind ⊢
  cases hbehind with
  | nil => exact .both ⟨.same (by simp [halike]) _, .nil⟩
  | char p p' line back hbehind =>
    dsimp only at halike ⊢
    split
    · next hquote =>
      rw [if_pos hquote] at halike
      split
      · next hr =>
        rw [if_pos hr] at halike
        exact stringLexeme_returned true hquote rfl hbehind halike
      next hr =>
      rw [if_neg hr] at halike
      split
      · next hu =>
        rw [if_pos hu] at halike
        exact stringLexeme_returned false hquote rfl hbehind halike
      next hu =>
      rw [if_neg hu] at halike
      split
      · exact .refused _ _
      · exact .both ⟨.same (by simp [halike]) _, .char p p' line back hbehind⟩
    · next hquote =>
      rw [if_neg hquote] at halike
      exact .both ⟨.same (by simp [halike]) _, .char p p' line back hbehind⟩
  | line p q p' hbehind =>
    exact .both ⟨.same (by simp [halike, isQuote]) _, .line p q p' hbehind⟩

theorem lexeme_returned {alike : Prop} (c : Located Char) (p' : Position)
    {rest rest' : List (Located Char)} (h : Returned rest rest')
    (halike : alike ↔ ∀ o ∈ openingAt c rest, o.returnsMatter = false) :
    Outcomes (LexedAs alike) alike (lexeme c rest) (lexeme ⟨p', c.item⟩ rest') := by
  obtain ⟨p, c⟩ := c
  unfold lexeme
  dsimp only
  split
  case h_11 =>
    rw [h.any_head? (fun c => c = '=') rfl rfl]
    split
    · exact .refused _ _
    · exact .both ⟨.same (halike.mpr nofun) _, h⟩
  case h_12 => exact stringLexeme_returned false rfl rfl h halike
  case h_13 => exact stringLexeme_returned false rfl rfl h halike
  case h_14 =>
    split
    · next hdigit =>
      rw [openingAt_of_isDigit hdigit] at halike
      have hinteger : Outcomes _ True (Literal.integer ⟨p, c⟩ rest)
          (Literal.integer ⟨p', c⟩ rest') := Literal.integer_returned h rfl
      cases hx : Literal.integer ⟨p, c⟩ rest with
      | error e =>
        rw [hx] at hinteger
        obtain ⟨e', hx'⟩ := hinteger.exists_error
        rw [hx']
        exact .refused _ _
      | ok r =>
        rw [hx] at hinteger
        obtain ⟨r', hx', hn, hbehind⟩ := hinteger.exists_ok
        rw [hx']
        obtain ⟨n, after⟩ := r
        obtain rfl : r'.1 = n := hn
        exact .both ⟨.same (halike.mpr nofun) _, hbehind⟩
    split
    · next hname => exact nameOrLiteral_returned hname rfl h halike
    · exact .refused _ _
  all_goals exact .both ⟨.same (halike.mpr nofun) _, h⟩

/-! ### Tokens -/

/-- What the tokens say, with no carriage return directly before a line feed. -/
def kinds (tokens : List Token) : List Lexeme := tokens.map fun t => t.item.unreturned

/-- Tokens that are lexed together: equal kinds if the texts were alike so far, and the same
newlines in any case. -/
structure Together (alike : Prop) (done done' : List Token) : Prop where
  kinds_iff : kinds done = kinds done' ↔ alike
  suppresses (depth : Nat) : suppressesNewline depth done' = suppressesNewline depth done

namespace Together

variable {past alike : Prop} {done done' : List Token} {l l' : Lexeme}

theorem nil : Together True [] [] := ⟨by simp, fun _ => rfl⟩

theorem push (h : Together past done done') (hl : SameKind alike l l') (p p' : Position) :
    Together (past ∧ alike) (⟨p, l⟩ :: done) (⟨p', l'⟩ :: done') where
  kinds_iff := by
    simp only [kinds, List.map_cons, List.cons.injEq, hl.unreturned_iff]
    rw [and_comm]
    exact and_congr_left' h.kinds_iff
  suppresses depth := by simp [suppressesNewline, hl.newline_iff]

end Together

theorem skipBlanks_cons {c : Located Char} {rest cs cs' : List (Located Char)}
    (h : Returned cs cs') (hskip : skipBlanks cs = .ok (c :: rest)) :
    ∃ p' rest', skipBlanks cs' = .ok (⟨p', c.item⟩ :: rest') ∧ Returned rest rest' := by
  have hskipped := skipBlanks_returned h
  rw [hskip] at hskipped
  obtain ⟨after, hskip', hbehind⟩ := hskipped.exists_ok
  cases hbehind with
  | cons p p' hrest => exact ⟨p', _, hskip', hrest⟩

/-- By the lexer's own loop, from tokens that were read together. Once a literal is read otherwise
the kinds stay different; the newlines and the open brackets stay the same. -/
theorem tokensFrom_returned {past alike : Prop} {stop : Position} (stop' : Position) {depth : Nat}
    {done done' : List Token} {cs cs' : List (Located Char)} (h : Returned cs cs')
    (hdone : Together past done done')
    (halike : alike ↔ past ∧ ∀ o ∈ openings cs, o.returnsMatter = false) :
    Outcomes (fun tokens tokens' => kinds tokens = kinds tokens' ↔ alike) alike
      (tokensFrom stop depth done cs) (tokensFrom stop' depth done' cs') := by
  fun_induction tokensFrom stop depth done cs generalizing past alike done' cs' with
  | case1 depth done cs e hskip =>
    have hskipped := skipBlanks_returned h
    rw [hskip] at hskipped
    obtain ⟨e', hskip'⟩ := hskipped.exists_error
    rw [tokensFrom_eq stop', hskip']
    exact .refused _ _
  | case2 depth done cs hskip =>
    have hskipped := skipBlanks_returned h
    rw [hskip] at hskipped
    obtain ⟨after, hskip', hbehind⟩ := hskipped.exists_ok
    cases hbehind
    rw [openings_eq, hskip] at halike
    rw [tokensFrom_eq stop', hskip']
    have hkinds := hdone.push (.same trivial .eof) stop stop'
    refine .both ?_
    rw [kinds, kinds, List.map_reverse, List.map_reverse, List.reverse_inj, halike]
    exact hkinds.kinds_iff.trans (by simp)
  | case3 depth done cs c rest hskip hline hs ih =>
    obtain ⟨p', rest', hskip', hrest⟩ := skipBlanks_cons h hskip
    rw [openings_eq, hskip] at halike
    dsimp only at halike
    rw [if_pos hline] at halike
    rw [tokensFrom_eq stop', hskip']
    dsimp only
    rw [if_pos hline, hdone.suppresses, if_pos hs]
    exact ih hrest hdone halike
  | case4 depth done cs c rest hskip hline hs ih =>
    obtain ⟨p', rest', hskip', hrest⟩ := skipBlanks_cons h hskip
    rw [openings_eq, hskip] at halike
    dsimp only at halike
    rw [if_pos hline] at halike
    rw [tokensFrom_eq stop', hskip']
    dsimp only
    rw [if_pos hline, hdone.suppresses, if_neg hs]
    exact ih hrest (hdone.push (.same trivial .newline) _ _) (by simpa using halike)
  | case5 depth done cs c rest hskip hline e hl =>
    obtain ⟨p', rest', hskip', hrest⟩ := skipBlanks_cons h hskip
    have hlexed := lexeme_returned c p' hrest Iff.rfl
    rw [hl] at hlexed
    obtain ⟨e', hl'⟩ := hlexed.exists_error
    rw [tokensFrom_eq stop', hskip']
    dsimp only
    rw [if_neg hline, hl']
    exact .refused _ _
  | case6 depth done cs c rest hskip hline l after hl depth' =>
    rename_i hmax
    obtain ⟨p', rest', hskip', hrest⟩ := skipBlanks_cons h hskip
    have hlexed := lexeme_returned c p' hrest Iff.rfl
    rw [hl] at hlexed
    rw [tokensFrom_eq stop', hskip']
    dsimp only
    rw [if_neg hline]
    generalize lexeme ⟨p', c.item⟩ rest' = x' at hlexed ⊢
    cases hlexed with
    | both hboth =>
      dsimp only
      rw [hboth.1.depthAfter, if_pos hmax]
      exact .refused _ _
    | lost => exact .refused _ _
  | case7 depth done cs c rest hskip hline l after hl depth' hmax =>
    rename_i ih
    obtain ⟨p', rest', hskip', hrest⟩ := skipBlanks_cons h hskip
    have hlexed := lexeme_returned c p' hrest Iff.rfl
    rw [hl] at hlexed
    rw [openings_eq, hskip] at halike
    dsimp only at halike
    rw [if_neg hline, hl] at halike
    simp only [List.forall_mem_append, Option.mem_toList, ← and_assoc] at halike
    rw [tokensFrom_eq stop', hskip']
    dsimp only
    rw [if_neg hline]
    generalize lexeme ⟨p', c.item⟩ rest' = x' at hlexed ⊢
    cases hlexed with
    | both hboth =>
      dsimp only
      rw [hboth.1.depthAfter, if_neg hmax]
      exact ih hboth.2 (hdone.push hboth.1 _ _) halike
    | lost hbad => exact .of_error (fun ha => hbad (halike.mp ha).1.2) _ _

end Lexer

open Lexer

/-- Both texts are lexed or neither is, and when they are, their tokens say the same, but for
carriage returns directly before the line feeds in the texts of literals. -/
def ReadAlike (text text' : String) : Prop :=
  ((∃ tokens, tokenize text = .ok tokens) ↔ ∃ tokens, tokenize text' = .ok tokens) ∧
    ∀ tokens tokens', tokenize text = .ok tokens → tokenize text' = .ok tokens' →
      kinds tokens = kinds tokens'

theorem readAlike_iff_of_outcomes {text text' : String} {alike : Prop}
    (h : Outcomes (fun tokens tokens' => kinds tokens = kinds tokens' ↔ alike) alike
      (tokenize text) (tokenize text')) :
    ReadAlike text text' ↔ ∀ tokens, tokenize text = .ok tokens → alike := by
  unfold ReadAlike
  generalize tokenize text = x at h ⊢
  generalize tokenize text' = x' at h ⊢
  cases h with
  | both h => simp [h]
  | refused => simp
  | lost h => simp [h]

theorem outcomes_withReturns {text : String} (h : '\r' ∉ text.toList) {alike : Prop}
    (halike : alike ↔
      ∀ o ∈ openings (Source.locate .start text.toList), o.returnsMatter = false) :
    Outcomes (fun tokens tokens' => kinds tokens = kinds tokens' ↔ alike) alike (tokenize text)
      (tokenize (withReturns text)) := by
  have hreturned : Returned (Source.locate .start text.toList)
      (Source.locate .start (withReturns text).toList) := by
    rw [withReturns, String.toList_ofList]
    exact .locate h
  exact tokensFrom_returned _ hreturned .nil (by simpa using halike)

/-- A text that is lexed with the carriage returns is lexed without them. -/
theorem tokenize_of_withReturns {text : String} (h : '\r' ∉ text.toList) {tokens : List Token}
    (ht : tokenize (withReturns text) = .ok tokens) : ∃ tokens, tokenize text = .ok tokens := by
  have houtcomes := outcomes_withReturns h Iff.rfl
  rw [ht] at houtcomes
  generalize tokenize text = x at houtcomes ⊢
  cases houtcomes
  exact ⟨_, rfl⟩

theorem returnsMatter_of_mem_openings {text : List Char} {p : Position} {o : Opening}
    (hslash : '\\' ∉ text) (hback : '\r' ∉ text) (ho : o ∈ openings (Source.locate p text)) :
    o.returnsMatter = false := by
  have hmem {c : Located Char} (hc : c ∈ o.rest) : c.item ∈ text :=
    Source.item_mem_of_mem_locate ((suffix_of_mem_openings ho).subset hc)
  have hslash' : ∀ c ∈ o.rest, c.item ≠ '\\' := fun c hc heq => hslash (heq ▸ hmem hc)
  have hback' : ∀ c ∈ o.rest, c.item ≠ '\r' := fun c hc heq => hback (heq ▸ hmem hc)
  unfold Opening.returnsMatter
  split
  · exact Literal.returnsMatter_of_no_backslash (fun c hc => hslash' c (List.mem_of_mem_drop hc))
      (fun c hc => hback' c (List.mem_of_mem_drop hc)) nofun
  · exact Literal.returnsMatter_of_no_backslash hslash' hback' nofun

/-- A text without backslashes is read alike however its lines end. -/
theorem readAlike_withReturns_of_no_backslash {text : String} (hslash : '\\' ∉ text.toList)
    (hback : '\r' ∉ text.toList) : ReadAlike text (withReturns text) := by
  refine (readAlike_iff_of_outcomes (outcomes_withReturns hback ?_)).mpr
    fun _ _ => trivial
  exact iff_of_true trivial fun o ho => returnsMatter_of_mem_openings hslash hback ho

/-- A text is read alike with a carriage return before every line feed if and only if it is refused
or carriage returns matter to none of its string literals. -/
theorem readAlike_withReturns_iff (text : String) (h : '\r' ∉ text.toList) :
    ReadAlike text (withReturns text) ↔
      ∀ tokens, tokenize text = .ok tokens →
        ∀ o ∈ openings (Source.locate .start text.toList), o.returnsMatter = false :=
  readAlike_iff_of_outcomes (outcomes_withReturns h Iff.rfl)

/-- Line feeds in a literal, behind backslashes in and before a literal, and behind a comment. -/
def manyEndings : String := "a = '''x\ny''' + \\\n r'''\\\n''' # z\nb = 1\n"

theorem readAlike_withReturns_manyEndings :
    '\r' ∉ manyEndings.toList ∧ (tokenize manyEndings).isOk = true ∧
      ReadAlike manyEndings (withReturns manyEndings) := by
  have h : '\r' ∉ manyEndings.toList := by decide +kernel
  refine ⟨h, by decide +kernel, (readAlike_withReturns_iff manyEndings h).mpr fun _ _ => ?_⟩
  decide +kernel

/-- A line feed behind a backslash joins two lines of a literal, a carriage return and a line feed
there end it. -/
theorem not_readAlike_joined :
    '\r' ∉ "'a\\\nb'".toList ∧
      tokenize "'a\\\nb'" = .ok [⟨⟨1, 1⟩, .string "ab"⟩, ⟨⟨2, 3⟩, .eof⟩] ∧
      tokenize (withReturns "'a\\\nb'") = .error ⟨⟨1, 1⟩, .unterminatedString⟩ ∧
      ¬ReadAlike "'a\\\nb'" (withReturns "'a\\\nb'") := by
  have htokens : tokenize "'a\\\nb'" = .ok [⟨⟨1, 1⟩, .string "ab"⟩, ⟨⟨2, 3⟩, .eof⟩] := by
    decide +kernel
  have hrefused : tokenize (withReturns "'a\\\nb'") = .error ⟨⟨1, 1⟩, .unterminatedString⟩ := by
    decide +kernel
  refine ⟨by decide +kernel, htokens, hrefused, fun h => ?_⟩
  obtain ⟨tokens, htokens'⟩ := h.1.mp ⟨_, htokens⟩
  rw [hrefused] at htokens'
  cases htokens'

end PinnedDeps
