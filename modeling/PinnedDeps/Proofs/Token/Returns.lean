import PinnedDeps.Proofs.Token.Lexer
import PinnedDeps.Proofs.Text.Returns

/-! Literals over lines that end in a carriage return and a line feed. What looks ahead, for a
digit, a quote or the rest of an escape, stops at a carriage return as it stops at a line feed. Only
the body of a string literal does not: a backslash before the carriage return is not one before the
line feed, and a carriage return that an escape stands for may come to lie before a line feed.
`returnsMatter` says whether a literal has either, and its body is read alike if and only if it has
not. -/

namespace PinnedDeps

/-- The characters of a text without carriage returns, and those of the text with one before every
line feed. The places are any. -/
inductive Returned : List (Located Char) → List (Located Char) → Prop
  | nil : Returned [] []
  | char {c : Char} {cs cs' : List (Located Char)} (p p' : Position) (line : c ≠ '\n')
      (back : c ≠ '\r') (rest : Returned cs cs') : Returned (⟨p, c⟩ :: cs) (⟨p', c⟩ :: cs')
  | line {cs cs' : List (Located Char)} (p q p' : Position) (rest : Returned cs cs') :
      Returned (⟨p, '\n'⟩ :: cs) (⟨q, '\r'⟩ :: ⟨p', '\n'⟩ :: cs')

/-- What becomes of two readers: both end, alike or not, or both refuse, or the reader of the
carriage returns alone refuses and they are not alike. -/
inductive Outcomes {α : Type} (R : α → α → Prop) (alike : Prop) :
    Except SyntaxError α → Except SyntaxError α → Prop
  | both {a a' : α} (h : R a a') : Outcomes R alike (.ok a) (.ok a')
  | refused (e e' : SyntaxError) : Outcomes R alike (.error e) (.error e')
  | lost (h : ¬alike) (a : α) (e : SyntaxError) : Outcomes R alike (.ok a) (.error e)

namespace Outcomes

variable {α : Type} {R : α → α → Prop} {alike : Prop} {x : Except SyntaxError α}

theorem of_error (h : ¬alike) (x : Except SyntaxError α) (e : SyntaxError) :
    Outcomes R alike x (.error e) := by
  cases x with
  | ok a => exact .lost h a e
  | error e' => exact .refused e' e

theorem exists_ok {a : α} (h : Outcomes R True (.ok a) x) : ∃ a', x = .ok a' ∧ R a a' := by
  cases h with
  | both h => exact ⟨_, rfl, h⟩
  | lost h => exact absurd trivial h

theorem exists_error {e : SyntaxError} (h : Outcomes R alike (.error e) x) :
    ∃ e', x = .error e' := by
  cases h
  exact ⟨_, rfl⟩

end Outcomes

namespace Returned

variable {cs cs' : List (Located Char)}

/-- A text and the text with carriage returns, wherever the two start. -/
theorem locate {p p' : Position} {text : List Char} (h : '\r' ∉ text) :
    Returned (Source.locate p text)
      (Source.locate p' (text.flatMap fun c => if c = '\n' then ['\r', '\n'] else [c])) := by
  induction text generalizing p p' with
  | nil => exact .nil
  | cons c text ih =>
    rw [List.mem_cons, not_or] at h
    rw [List.flatMap_cons, Source.locate_cons]
    by_cases hline : c = '\n'
    · rw [if_pos hline, hline, List.cons_append, List.singleton_append, Source.locate_cons,
        Source.locate_cons]
      exact .line _ _ _ (ih h.2)
    · rw [if_neg hline, List.singleton_append, Source.locate_cons]
      exact .char _ _ hline (Ne.symm h.1) (ih h.2)

section Lookahead

variable (test : Char → Bool) (hline : test '\n' = false) (hback : test '\r' = false)

include hline hback

theorem any_head? (h : Returned cs cs') :
    (cs'.head?.any fun c => test c.item) = cs.head?.any fun c => test c.item := by
  cases h with
  | nil => rfl
  | char => rfl
  | line => simp [hline, hback]

/-- A run of characters of which the ends of lines are none. -/
theorem span (h : Returned cs cs') :
    (cs'.takeWhile fun c => test c.item).map (·.item) =
        (cs.takeWhile fun c => test c.item).map (·.item) ∧
      Returned (cs.dropWhile fun c => test c.item) (cs'.dropWhile fun c => test c.item) := by
  induction h with
  | nil => exact ⟨rfl, .nil⟩
  | char p p' line back rest ih =>
    simp only [List.takeWhile_cons, List.dropWhile_cons]
    split
    · exact ⟨by rw [List.map_cons, List.map_cons, ih.1], ih.2⟩
    · exact ⟨rfl, .char p p' line back rest⟩
  | line p q p' rest =>
    simp only [List.takeWhile_cons, List.dropWhile_cons, hline, hback]
    exact ⟨rfl, .line p q p' rest⟩

/-- A run of at most `n` such characters. -/
theorem span_take (h : Returned cs cs') (n : Nat) :
    ((cs'.take n).map (·.item)).takeWhile test = ((cs.take n).map (·.item)).takeWhile test ∧
      Returned (cs.drop (((cs.take n).map (·.item)).takeWhile test).length)
        (cs'.drop (((cs.take n).map (·.item)).takeWhile test).length) := by
  induction n generalizing cs cs' with
  | zero => exact ⟨rfl, h⟩
  | succ n ih =>
    cases h with
    | nil => exact ⟨rfl, .nil⟩
    | char p p' line back rest =>
      simp only [List.take_succ_cons, List.map_cons, List.takeWhile_cons]
      split
      · exact ⟨congrArg _ (ih rest).1, (ih rest).2⟩
      · exact ⟨rfl, .char p p' line back rest⟩
    | line p q p' rest =>
      simp only [List.take_succ_cons, List.map_cons, List.takeWhile_cons, hline, hback]
      exact ⟨rfl, .line p q p' rest⟩

end Lookahead

/-- The next `n` characters are the same, or both readers come to the end of a line in them. -/
theorem take (h : Returned cs cs') (n : Nat) :
    (cs'.take n).map (·.item) = (cs.take n).map (·.item) ∧ Returned (cs.drop n) (cs'.drop n) ∨
      '\n' ∈ (cs.take n).map (·.item) ∧ '\r' ∈ (cs'.take n).map (·.item) := by
  induction n generalizing cs cs' with
  | zero => exact .inl ⟨rfl, h⟩
  | succ n ih =>
    cases h with
    | nil => exact .inl ⟨rfl, .nil⟩
    | char p p' line back rest =>
      simp only [List.take_succ_cons, List.map_cons, List.drop_succ_cons, List.mem_cons]
      exact (ih rest).imp (fun h => ⟨by rw [h.1], h.2⟩) fun h => ⟨.inr h.1, .inr h.2⟩
    | line => simp

end Returned

/-! ### Escapes and integers -/

namespace Escape

variable {rest rest' : List (Located Char)}

theorem hex_returned (h : Returned rest rest') (start start' : Position) (kind : Char)
    (width : Nat) :
    Outcomes (fun e e' => e' = e ∧ Returned (rest.drop e.taken) (rest'.drop e.taken)) True
      (hex start kind width rest) (hex start' kind width rest') := by
  have hdigits (cs : List (Located Char)) : (cs.take width).map (fun c => hexDigit? c.item) =
      ((cs.take width).map (·.item)).map hexDigit? := by rw [List.map_map]; rfl
  unfold hex
  rw [hdigits, hdigits]
  rcases h.take width with ⟨hitems, hrest⟩ | ⟨hline, hback⟩
  · rw [hitems]
    dsimp only
    split
    · exact .refused _ _
    split
    · exact .both ⟨rfl, hrest⟩
    · exact .refused _ _
  · have hnone : none ∈ ((rest.take width).map (·.item)).map hexDigit? :=
      List.mem_map.mpr ⟨'\n', hline, rfl⟩
    have hnone' : none ∈ ((rest'.take width).map (·.item)).map hexDigit? :=
      List.mem_map.mpr ⟨'\r', hback, rfl⟩
    dsimp only
    rw [if_pos (.inr hnone), if_pos (.inr hnone')]
    exact .refused _ _

theorem octal_returned (h : Returned rest rest') (first : Char) :
    octal first rest' = octal first rest ∧
      Returned (rest.drop (octal first rest).taken) (rest'.drop (octal first rest).taken) := by
  obtain ⟨hmore, hrest⟩ := h.span_take isOctal rfl rfl 2
  refine ⟨?_, hrest⟩
  unfold octal
  rw [hmore]

/-- An escape that is not named by the end of a line. -/
theorem read_returned (h : Returned rest rest') (start start' : Position) (c : Char) :
    Outcomes (fun e e' => e' = e ∧ Returned (rest.drop e.taken) (rest'.drop e.taken)) True
      (read start c rest) (read start' c rest') := by
  unfold read
  split
  case h_12 => exact hex_returned h start start' 'x' 2
  case h_13 => exact hex_returned h start start' 'u' 4
  case h_14 => exact hex_returned h start start' 'U' 8
  case h_15 => exact .refused _ _
  case h_16 =>
    split
    · exact .both (octal_returned h c)
    · exact .both ⟨rfl, h⟩
  all_goals exact .both ⟨rfl, h⟩

end Escape

namespace Literal

variable {cs cs' : List (Located Char)}

theorem integer_returned (h : Returned cs cs') {first first' : Located Char}
    (hfirst : first'.item = first.item) :
    Outcomes (fun r r' => r'.1 = r.1 ∧ Returned r.2 r'.2) True (integer first cs)
      (integer first' cs') := by
  obtain ⟨hdigits, hbehind⟩ :=
    h.span (fun c => c.isDigit || c = '_') (by decide) (by decide)
  have hnext := hbehind.any_head? (fun c => Text.isAlphabetic c || c = '.')
    (by decide) (by decide)
  unfold integer isDigitOrUnderscore
  dsimp only
  rw [hnext, List.map_cons, List.map_cons, hdigits, hfirst]
  split
  · exact .refused _ _
  split
  · exact .both ⟨rfl, hbehind⟩
  · exact .refused _ _

theorem twoMore_returned (h : Returned cs cs') {quote : Char} (hline : '\n' ≠ quote)
    (hback : '\r' ≠ quote) :
    twoMore quote cs' = twoMore quote cs ∧
      (twoMore quote cs = true → Returned (cs.drop 2) (cs'.drop 2)) := by
  rw [Bool.eq_iff_iff, twoMore_iff, twoMore_iff]
  rcases h.take 2 with ⟨hitems, hrest⟩ | ⟨hmem, hmem'⟩
  · rw [hitems]
    exact ⟨Iff.rfl, fun _ => hrest⟩
  · have hne : (cs.take 2).map (·.item) ≠ [quote, quote] := fun heq => by
      simp [heq, hline] at hmem
    have hne' : (cs'.take 2).map (·.item) ≠ [quote, quote] := fun heq => by
      simp [heq, hback] at hmem'
    exact ⟨iff_of_false hne' hne, fun heq => absurd heq hne⟩

/-! ### The body of a string literal -/

/-- Whether a carriage return before every line feed changes how the body of a literal is read. It
does where a line feed comes directly behind a backslash, except in a raw literal of three quotes,
and where one comes directly behind a carriage return that an escape stands for. -/
def returnsMatter (raw triple : Bool) (quote : Char) (start : Position) (done : List Char) :
    List (Located Char) → Bool
  | [] => false
  | c :: rest =>
    if c.item = quote then
      triple && !twoMore quote rest && returnsMatter raw triple quote start (c.item :: done) rest
    else if c.item = '\n' && !triple then false
    else if c.item = '\\' then
      match rest with
      | [] => false
      | e :: rest =>
        if raw then
          e.item = '\n' && !triple ||
            returnsMatter raw triple quote start (e.item :: '\\' :: done) rest
        else
          match Escape.read start e.item rest with
          | .error _ => false
          | .ok escape =>
            e.item = '\n' ||
              returnsMatter raw triple quote start (escape.text.reverse ++ done)
                (rest.drop escape.taken)
    else
      c.item = '\n' && done.head? = some '\r' ||
        returnsMatter raw triple quote start (c.item :: done) rest
termination_by cs => cs.length
decreasing_by all_goals simp only [List.length_cons, List.length_drop]; omega

/-- Without a backslash there is neither. -/
theorem returnsMatter_of_no_backslash {raw triple : Bool} {quote : Char} {start : Position}
    {done : List Char} {cs : List (Located Char)} (hslash : ∀ c ∈ cs, c.item ≠ '\\')
    (hback : ∀ c ∈ cs, c.item ≠ '\r') (hdone : done.head? ≠ some '\r') :
    returnsMatter raw triple quote start done cs = false := by
  fun_induction returnsMatter raw triple quote start done cs <;> simp_all

/-- Two texts that are alike without their carriage returns, and what is behind their literals. -/
def ReadAs (alike : Prop) (r r' : List Char × List (Located Char)) : Prop :=
  (Text.withoutReturns r.1 = Text.withoutReturns r'.1 ↔ alike) ∧ Returned r.2 r'.2

variable {raw triple : Bool} {quote : Char} {start : Position} {done : List Char}

theorem stringBody_line (hline : '\n' ≠ quote) (p : Position) (cs : List (Located Char)) :
    stringBody raw triple quote start done (⟨p, '\n'⟩ :: cs) =
      if triple then stringBody raw triple quote start ('\n' :: done) cs
      else .error ⟨start, .unterminatedString⟩ := by
  rw [stringBody.eq_def]
  dsimp only
  rw [if_neg hline]
  cases triple <;> rfl

/-- A carriage return behind a backslash is kept, and the line feed behind it ends the line. -/
theorem stringBody_unjoined (hquote : Lexer.isQuote quote = true) (hline : '\n' ≠ quote)
    (p q r : Position) (cs : List (Located Char)) :
    stringBody false triple quote start done (⟨p, '\\'⟩ :: ⟨q, '\r'⟩ :: ⟨r, '\n'⟩ :: cs) =
      if triple then stringBody false triple quote start ('\n' :: '\r' :: '\\' :: done) cs
      else .error ⟨start, .unterminatedString⟩ := by
  have hread : Escape.read start '\r' (⟨r, '\n'⟩ :: cs) = .ok ⟨['\\', '\r'], 0⟩ := rfl
  rw [Lexer.stringBody_escape hquote hread]
  exact stringBody_line hline r cs

/-- By the recursion of the reader. `past` says whether the two readers were alike so far. -/
theorem stringBody_returned (hquote : Lexer.isQuote quote = true) (start' : Position)
    {cs cs' : List (Located Char)} {done' : List Char} {past alike : Prop} (h : Returned cs cs')
    (hdone : Text.Follows past done done')
    (halike : alike ↔ past ∧ returnsMatter raw triple quote start done cs = false) :
    Outcomes (ReadAs alike) alike (stringBody raw triple quote start done cs)
      (stringBody raw triple quote start' done' cs') := by
  have hline : '\n' ≠ quote := Lexer.ne_of_isQuote hquote rfl
  have hback : '\r' ≠ quote := Lexer.ne_of_isQuote hquote rfl
  have hslash : '\n' ≠ '\\' := by decide
  fun_induction stringBody raw triple quote start done cs generalizing past alike done' cs' with
  | case1 done =>
    cases h
    rw [stringBody.eq_def]
    exact .refused _ _
  | case2 done c rest hq ht =>
    cases h with
    | line => exact absurd hq hline
    | char p p' _ _ hrest =>
      rw [stringBody.eq_def raw triple quote start' done']
      rw [returnsMatter.eq_def] at halike
      dsimp only at hq halike ⊢
      rw [if_pos hq, if_pos ht]
      obtain rfl : triple = false := by simpa using ht
      rw [if_pos hq] at halike
      refine .both ⟨?_, hrest⟩
      exact hdone.settled_iff.trans (by simpa using halike.symm)
  | case3 done c rest hq ht hm =>
    cases h with
    | line => exact absurd hq hline
    | char p p' _ _ hrest =>
      obtain ⟨hmore, hbehind⟩ := twoMore_returned hrest hline hback
      rw [stringBody.eq_def raw triple quote start' done']
      rw [returnsMatter.eq_def] at halike
      dsimp only at hq halike ⊢
      rw [if_pos hq, if_neg ht, hmore, if_pos hm]
      rw [if_pos hq, hm] at halike
      refine .both ⟨?_, hbehind hm⟩
      exact hdone.settled_iff.trans (by simpa using halike.symm)
  | case4 done c rest hq ht hm ih =>
    cases h with
    | line => exact absurd hq hline
    | char p p' _ _ hrest =>
      obtain ⟨hmore, -⟩ := twoMore_returned hrest hline hback
      rw [stringBody.eq_def raw triple quote start' done']
      rw [returnsMatter.eq_def] at halike
      dsimp only at hq halike ⊢
      rw [if_pos hq, if_neg ht, hmore, if_neg hm]
      obtain rfl : triple = true := by simpa using ht
      rw [if_pos hq] at halike
      exact ih hrest (hdone.push _) (by simpa [hm] using halike)
  | case5 done c rest hq hn =>
    simp only [Bool.and_eq_true, decide_eq_true_eq, Bool.not_eq_true'] at hn
    obtain ⟨hc, rfl⟩ := hn
    cases h with
    | char _ _ hne => exact absurd hc hne
    | line p q p' hrest =>
      rw [Lexer.stringBody_plain hback (by decide) (by decide), stringBody_line hline,
        if_neg Bool.false_ne_true]
      exact .refused _ _
  | case6 done c hq hn hs =>
    cases h with
    | line => exact absurd hs hslash
    | char p p' _ _ hrest =>
      cases hrest
      rw [stringBody.eq_def raw triple quote start' done']
      dsimp only at hq hn hs ⊢
      rw [if_neg hq, if_neg hn, if_pos hs]
      exact .refused _ _
  | case7 done c hq hn hs e rest hr ih =>
    rw [returnsMatter.eq_def] at halike
    dsimp only at halike
    rw [if_neg hq, if_neg hn, if_pos hs, if_pos hr] at halike
    cases h with
    | line => exact absurd hs hslash
    | char p p' _ _ hrest =>
      dsimp only at hq hn hs
      cases hrest with
      | char q q' hne hne' hrest =>
        rw [stringBody.eq_def raw triple quote start' done']
        dsimp only
        rw [if_neg hq, if_neg hn, if_pos hs, if_pos hr]
        exact ih hrest ((hdone.push _).push _) (by simpa [hne] using halike)
      | line q q' q'' hrest =>
        rw [stringBody.eq_def raw triple quote start' done']
        dsimp only
        rw [if_neg hq, if_neg hn, if_pos hs, if_pos hr, stringBody_line hline]
        -- the backslash keeps the carriage return, so the line feed is read by itself
        cases triple with
        | true => exact ih hrest (hdone.push '\\').line (by simpa using halike)
        | false => exact .of_error (by simp [halike]) _ _
  | case8 done c hq hn hs e rest hr error he =>
    cases h with
    | line => exact absurd hs hslash
    | char p p' _ _ hrest =>
      dsimp only at hq hn hs
      cases hrest with
      | @char d rest rest' q q' hne hne' hrest =>
        have hread := Escape.read_returned hrest start start' d
        rw [he] at hread
        obtain ⟨error', he'⟩ := hread.exists_error
        rw [stringBody.eq_def raw triple quote start' done']
        dsimp only
        rw [if_neg hq, if_neg hn, if_pos hs, if_neg hr, he']
        exact .refused _ _
      | line q q' q'' hrest => cases he
  | case9 done c hq hn hs e rest hr escape he ih =>
    rw [returnsMatter.eq_def] at halike
    dsimp only at halike
    rw [if_neg hq, if_neg hn, if_pos hs, if_neg hr, he] at halike
    obtain rfl : raw = false := by simpa using hr
    cases h with
    | line => exact absurd hs hslash
    | char p p' _ _ hrest =>
      obtain rfl := hs
      cases hrest with
      | @char d rest rest' q q' hne hne' hrest =>
        have hread := Escape.read_returned hrest start start' d
        rw [he] at hread
        obtain ⟨escape', he', rfl, hbehind⟩ := hread.exists_ok
        rw [Lexer.stringBody_escape hquote he']
        exact ih hbehind (hdone.append _) (by simpa [hne] using halike)
      | line q q' q'' hrest =>
        -- here the two lines are joined, and there they are not
        obtain rfl : (⟨[], 0⟩ : Escape) = escape := Except.ok.inj he
        have hbad : ¬alike := by simp [halike]
        rw [stringBody_unjoined hquote hline]
        cases triple with
        | true => exact ih hrest hdone.joined (by simpa using hbad)
        | false => exact .of_error hbad _ _
  | case10 done c rest hq hn hs ih =>
    rw [returnsMatter.eq_def] at halike
    dsimp only at halike
    rw [if_neg hq, if_neg hn, if_neg hs] at halike
    cases h with
    | char p p' hne _ hrest =>
      rw [Lexer.stringBody_plain hq hs hne]
      exact ih hrest (hdone.push _) (by simpa [hne] using halike)
    | line p q p' hrest =>
      -- a line feed that ends no literal; the carriage return before it is read as any character
      obtain rfl : triple = true := by simpa using hn
      rw [Lexer.stringBody_plain hback (by decide) (by decide), stringBody_line hline, if_pos rfl]
      exact ih hrest hdone.line (by simpa [and_assoc] using halike)

end Literal

end PinnedDeps
