import PinnedDeps.Proofs.Token.Lexer

/-! A line feed behind a text. Nothing that the lexer accepts goes on over it: all that looks ahead
at the end of the text, for a digit, a quote or another letter, finds the line feed and stops as it
stopped at the end. So a text that is lexed is lexed to the same tokens in front of a line feed. -/

namespace PinnedDeps

variable {p : Position} {more : List (Located Char)}

theorem takeWhile_append_cons {α : Type} (test : α → Bool) {x : α} (h : test x = false)
    (a b : List α) : (a ++ x :: b).takeWhile test = a.takeWhile test := by
  induction a with
  | nil => simp [h]
  | cons y a ih => simp only [List.cons_append, List.takeWhile_cons, ih]

theorem dropWhile_append_cons {α : Type} (test : α → Bool) {x : α} (h : test x = false)
    (a b : List α) : (a ++ x :: b).dropWhile test = a.dropWhile test ++ x :: b := by
  induction a with
  | nil => simp [h]
  | cons y a ih =>
    simp only [List.cons_append, List.dropWhile_cons, ih]
    split <;> rfl

theorem any_head?_append (test : Char → Bool) (h : test '\n' = false) (cs : List (Located Char)) :
    ((cs ++ ⟨p, '\n'⟩ :: more).head?.any fun c => test c.item) =
      cs.head?.any fun c => test c.item := by
  cases cs with
  | nil => exact h
  | cons c cs => rfl

/-! ### Literals -/

namespace Escape

theorem hex_append {start : Position} {kind : Char} {width : Nat} {rest : List (Located Char)}
    {escape : Escape} (h : hex start kind width rest = .ok escape) (tail : List (Located Char)) :
    hex start kind width (rest ++ tail) = .ok escape ∧ escape.taken ≤ rest.length := by
  unfold hex at h ⊢
  dsimp only at h ⊢
  split at h
  · cases h
  next hdigits =>
  have hlen : width ≤ rest.length := by
    simp only [List.length_map, List.length_take, not_or, Nat.not_lt] at hdigits
    omega
  rw [List.take_append_of_le_length hlen, if_neg hdigits]
  refine ⟨h, ?_⟩
  split at h <;> cases h
  exact hlen

theorem octal_append (first : Char) (rest : List (Located Char)) :
    octal first (rest ++ ⟨p, '\n'⟩ :: more) = octal first rest ∧
      (octal first rest).taken ≤ rest.length := by
  have htaken : (octal first rest).taken ≤ rest.length := by
    have hle := (List.takeWhile_sublist isOctal
      (l := (rest.take 2).map (·.item))).length_le
    simp only [List.length_map, List.length_take] at hle
    show (((rest.take 2).map (·.item)).takeWhile isOctal).length ≤ _
    omega
  refine ⟨?_, htaken⟩
  have hmore : (((rest ++ ⟨p, '\n'⟩ :: more).take 2).map (·.item)).takeWhile isOctal =
      ((rest.take 2).map (·.item)).takeWhile isOctal := by
    match rest with
    | [] => rfl
    | [a] => exact takeWhile_append_cons isOctal (x := '\n') rfl [a.item] []
    | _ :: _ :: _ => rfl
  unfold octal
  rw [hmore]

theorem read_append {start : Position} {c : Char} {rest : List (Located Char)} {escape : Escape}
    (h : read start c rest = .ok escape) :
    read start c (rest ++ ⟨p, '\n'⟩ :: more) = .ok escape ∧ escape.taken ≤ rest.length := by
  revert h
  unfold read
  split <;> intro h
  case h_12 => exact hex_append h _
  case h_13 => exact hex_append h _
  case h_14 => exact hex_append h _
  case h_15 => cases h
  case h_16 =>
    obtain ⟨hsame, htaken⟩ := octal_append (p := p) c rest
    rw [hsame]
    refine ⟨h, ?_⟩
    split at h <;> cases h
    · exact htaken
    · exact Nat.zero_le _
  all_goals
    cases h
    exact ⟨rfl, Nat.zero_le _⟩

end Escape

namespace Literal

theorem twoMore_append {quote : Char} (hq : quote ≠ '\n') (rest : List (Located Char)) :
    twoMore quote (rest ++ ⟨p, '\n'⟩ :: more) = twoMore quote rest := by
  match rest with
  | [] => cases more <;> simp [twoMore, hq.symm]
  | [a] => simp [twoMore, hq.symm]
  | _ :: _ :: _ => rfl

theorem length_of_twoMore {quote : Char} {rest : List (Located Char)}
    (h : twoMore quote rest = true) : 2 ≤ rest.length := by
  match rest, h with
  | _ :: _ :: _, _ => simp

theorem stringBody_append {raw triple : Bool} {quote : Char} (hq : quote ≠ '\n')
    {start : Position} {done text : List Char} {cs after : List (Located Char)}
    (h : stringBody raw triple quote start done cs = .ok (text, after)) :
    stringBody raw triple quote start done (cs ++ ⟨p, '\n'⟩ :: more) =
      .ok (text, after ++ ⟨p, '\n'⟩ :: more) := by
  fun_induction stringBody raw triple quote start done cs with
  | case1 => cases h
  | case2 done c rest hc ht =>
    cases h
    rw [List.cons_append, stringBody.eq_def]
    dsimp only
    rw [if_pos hc, if_pos ht]
  | case3 done c rest hc ht hm =>
    cases h
    rw [List.cons_append, stringBody.eq_def]
    dsimp only
    rw [if_pos hc, if_neg ht, twoMore_append hq, if_pos hm,
      List.drop_append_of_le_length (length_of_twoMore hm)]
  | case4 done c rest hc ht hm ih =>
    rw [List.cons_append, stringBody.eq_def]
    dsimp only
    rw [if_pos hc, if_neg ht, twoMore_append hq, if_neg hm, ih h]
  | case5 => cases h
  | case6 => cases h
  | case7 done c hc hn hs e rest hr ih =>
    rw [List.cons_append, List.cons_append, stringBody.eq_def]
    dsimp only
    rw [if_neg hc, if_neg hn, if_pos hs, if_pos hr, ih h]
  | case8 => cases h
  | case9 done c hc hn hs e rest hr escape he ih =>
    obtain ⟨hread, htaken⟩ : Escape.read start e.item (rest ++ ⟨p, '\n'⟩ :: more) = .ok escape ∧
        escape.taken ≤ rest.length := Escape.read_append he
    rw [List.cons_append, List.cons_append, stringBody.eq_def]
    dsimp only
    rw [if_neg hc, if_neg hn, if_pos hs, if_neg hr, hread]
    dsimp only
    rw [List.drop_append_of_le_length htaken, ih h]
  | case10 done c rest hc hn hs ih =>
    rw [List.cons_append, stringBody.eq_def]
    dsimp only
    rw [if_neg hc, if_neg hn, if_neg hs, ih h]

theorem string_append {raw : Bool} {quote : Located Char} (hq : quote.item ≠ '\n')
    {rest after : List (Located Char)} {text : List Char}
    (h : string raw quote rest = .ok (text, after)) :
    string raw quote (rest ++ ⟨p, '\n'⟩ :: more) = .ok (text, after ++ ⟨p, '\n'⟩ :: more) := by
  unfold string at h ⊢
  rw [twoMore_append hq]
  split at h
  · next hm =>
    rw [if_pos hm, List.drop_append_of_le_length (length_of_twoMore hm)]
    exact stringBody_append hq h
  · next hm =>
    rw [if_neg hm]
    exact stringBody_append hq h

theorem integer_append {first : Located Char} {rest after : List (Located Char)} {n : Nat}
    (h : integer first rest = .ok (n, after)) :
    integer first (rest ++ ⟨p, '\n'⟩ :: more) = .ok (n, after ++ ⟨p, '\n'⟩ :: more) := by
  have hline : isDigitOrUnderscore ⟨p, '\n'⟩ = false := rfl
  unfold integer at h ⊢
  rw [takeWhile_append_cons _ hline, dropWhile_append_cons _ hline]
  dsimp only at h ⊢
  rw [any_head?_append (fun c => Text.isAlphabetic c || c = '.') rfl]
  split at h
  · cases h
  next hend =>
  rw [if_neg hend]
  split at h
  · next hle =>
    cases h
    rw [if_pos hle]
  · cases h

end Literal

namespace Lexer

variable {cs after : List (Located Char)}

theorem skipBlanks_append (h : skipBlanks cs = .ok after) :
    skipBlanks (cs ++ ⟨p, '\n'⟩ :: more) = .ok (after ++ ⟨p, '\n'⟩ :: more) := by
  fun_induction skipBlanks cs with
  | case1 =>
    cases h
    exact skipBlanks_lineFeed p more
  | case2 c rest hb ih =>
    rw [List.cons_append, skipBlanks.eq_def]
    dsimp only
    rw [if_pos hb, ih h]
  | case3 c rest hb hc =>
    cases h
    rw [List.cons_append, skipBlanks.eq_def]
    dsimp only
    rw [if_neg hb, if_pos hc, dropWhile_append_cons _ (by simp)]
  | case4 c hb hc hs d rest hd ih =>
    rw [List.cons_append, List.cons_append, skipBlanks.eq_def]
    dsimp only
    rw [if_neg hb, if_neg hc, if_pos hs, if_pos hd, ih h]
  | case5 c hb hc hs d hd e rest he ih =>
    rw [List.cons_append, List.cons_append, List.cons_append, skipBlanks.eq_def]
    dsimp only
    rw [if_neg hb, if_neg hc, if_pos hs, if_neg hd, if_pos he, ih h]
  | case6 => cases h
  | case7 => cases h
  | case8 => cases h
  | case9 c rest hb hc hs =>
    cases h
    rw [List.cons_append, skipBlanks.eq_def]
    dsimp only
    rw [if_neg hb, if_neg hc, if_neg hs]

theorem stringLexeme_append {raw : Bool} {quote : Located Char} (hq : quote.item ≠ '\n')
    {rest : List (Located Char)} {l : Lexeme} (h : stringLexeme raw quote rest = .ok (l, after)) :
    stringLexeme raw quote (rest ++ ⟨p, '\n'⟩ :: more) = .ok (l, after ++ ⟨p, '\n'⟩ :: more) := by
  unfold stringLexeme at h ⊢
  split at h
  · next hs =>
    cases h
    rw [Literal.string_append hq hs]
  · cases h

theorem nameOrLiteral_append {first : Located Char} {rest : List (Located Char)} {l : Lexeme}
    (h : nameOrLiteral first rest = .ok (l, after)) :
    nameOrLiteral first (rest ++ ⟨p, '\n'⟩ :: more) = .ok (l, after ++ ⟨p, '\n'⟩ :: more) := by
  have hline : isNameRest '\n' = false := rfl
  unfold nameOrLiteral at h ⊢
  rw [takeWhile_append_cons (fun c : Located Char => isNameRest c.item) hline,
    dropWhile_append_cons (fun c : Located Char => isNameRest c.item) hline]
  dsimp only at h ⊢
  cases hbehind : rest.dropWhile fun c => isNameRest c.item with
  | nil =>
    rw [hbehind] at h
    cases h
    rfl
  | cons quote others =>
    rw [hbehind] at h
    rw [List.cons_append]
    dsimp only at h ⊢
    split at h
    · next hq =>
      rw [if_pos hq]
      have hn : quote.item ≠ '\n' := by
        intro hn
        rw [hn] at hq
        exact absurd hq (by decide)
      split at h
      · next hr =>
        rw [if_pos hr]
        exact stringLexeme_append hn h
      next hr =>
      rw [if_neg hr]
      split at h
      · next hu =>
        rw [if_pos hu]
        exact stringLexeme_append hn h
      next hu =>
      rw [if_neg hu]
      split at h
      · cases h
      · next hp =>
        cases h
        rw [if_neg hp]
        rfl
    · next hq =>
      cases h
      rw [if_neg hq]
      rfl

theorem lexeme_append {c : Located Char} {rest : List (Located Char)} {l : Lexeme}
    (h : lexeme c rest = .ok (l, after)) :
    lexeme c (rest ++ ⟨p, '\n'⟩ :: more) = .ok (l, after ++ ⟨p, '\n'⟩ :: more) := by
  revert h
  unfold lexeme
  split <;> intro h
  case h_11 =>
    rw [any_head?_append (fun c => c = '=') rfl]
    split at h
    · cases h
    next hnext =>
    cases h
    rw [if_neg hnext]
  case h_12 hc => exact stringLexeme_append (by rw [hc]; decide) h
  case h_13 hc => exact stringLexeme_append (by rw [hc]; decide) h
  case h_14 =>
    split at h
    · next hd =>
      rw [if_pos hd]
      split at h
      · next hn =>
        cases h
        rw [Literal.integer_append hn]
      · cases h
    next hd =>
    rw [if_neg hd]
    split at h
    · next hn =>
      rw [if_pos hn]
      exact nameOrLiteral_append h
    · cases h
  all_goals
    cases h
    rfl

/-! ### Tokens -/

theorem exists_of_stringLexeme {raw : Bool} {quote : Located Char} {rest : List (Located Char)}
    {l : Lexeme} (h : stringLexeme raw quote rest = .ok (l, after)) : ∃ text, l = .string text := by
  unfold stringLexeme at h
  split at h <;> cases h
  exact ⟨_, rfl⟩

/-- What starts like a name is the longest name there or a literal. -/
theorem nameOrLiteral_cases {first : Located Char} {rest : List (Located Char)} {l : Lexeme}
    (h : nameOrLiteral first rest = .ok (l, after)) :
    l = .name (String.ofList
        (first.item :: (rest.takeWhile fun c => isNameRest c.item).map (·.item))) ∨
      ∃ text, l = .string text := by
  unfold nameOrLiteral at h
  dsimp only at h
  split at h
  · cases h
    exact .inl rfl
  split at h
  · split at h
    · exact .inr (exists_of_stringLexeme h)
    split at h
    · exact .inr (exists_of_stringLexeme h)
    split at h <;> cases h
    exact .inl rfl
  · cases h
    exact .inl rfl

/-- The end marker is no lexeme of any text. -/
theorem lexeme_ne_eof {c : Located Char} {rest : List (Located Char)} {l : Lexeme}
    (h : lexeme c rest = .ok (l, after)) : l ≠ .eof := by
  unfold lexeme at h
  split at h
  case h_11 =>
    split at h <;> cases h
    simp
  case h_12 =>
    obtain ⟨text, rfl⟩ := exists_of_stringLexeme h
    simp
  case h_13 =>
    obtain ⟨text, rfl⟩ := exists_of_stringLexeme h
    simp
  case h_14 =>
    split at h
    · split at h <;> cases h
      simp
    split at h
    · rcases nameOrLiteral_cases h with rfl | ⟨text, rfl⟩ <;> simp
    · cases h
  all_goals
    cases h
    simp

open Grammar (depthBehind)

/-- A text that is lexed is lexed to the same tokens in front of a line feed, but for the end
marker. What comes then depends on these tokens and the brackets open behind them only. -/
theorem exists_tokensFrom_append {stop : Position} {depth : Nat} {done tokens : List Token}
    (h : tokensFrom stop depth done cs = .ok tokens) (hd : depthBehind 0 done.reverse = depth)
    (he : ∀ t ∈ done, t.item ≠ .eof) :
    ∃ done', tokens = done'.reverse ++ [⟨stop, .eof⟩] ∧ (∀ t ∈ done', t.item ≠ .eof) ∧
      ∀ stop' p more, tokensFrom stop' depth done (cs ++ ⟨p, '\n'⟩ :: more) =
        tokensFrom stop' (depthBehind 0 done'.reverse) done' (⟨p, '\n'⟩ :: more) := by
  fun_induction tokensFrom stop depth done cs with
  | case1 => cases h
  | case2 depth done cs hskip =>
    refine ⟨done, ?_, he, fun stop' p more => ?_⟩
    · rw [← List.reverse_cons]
      exact (Except.ok.inj h).symm
    · rw [hd, tokensFrom_eq, skipBlanks_append hskip, tokensFrom_eq stop', List.nil_append,
        skipBlanks_lineFeed]
  | case3 depth done cs c rest hskip hline hs ih =>
    obtain ⟨done', htokens, he', hread⟩ := ih h hd he
    refine ⟨done', htokens, he', fun stop' p more => ?_⟩
    rw [tokensFrom_eq, skipBlanks_append hskip]
    simp only [List.cons_append, if_pos hline, if_pos hs, hread]
  | case4 depth done cs c rest hskip hline hs ih =>
    have hd' : depthBehind 0 (⟨c.pos, .newline⟩ :: done).reverse = depth := by
      rw [List.reverse_cons, Grammar.depthBehind_append, hd]
      rfl
    obtain ⟨done', htokens, he', hread⟩ := ih h hd' (List.forall_mem_cons.mpr ⟨by simp, he⟩)
    refine ⟨done', htokens, he', fun stop' p more => ?_⟩
    rw [tokensFrom_eq, skipBlanks_append hskip]
    simp only [List.cons_append, if_pos hline, if_neg hs, hread]
  | case5 => cases h
  | case6 => cases h
  | case7 depth done cs c rest hskip hline l after hl depth' hmax ih =>
    have hd' : depthBehind 0 (⟨c.pos, l⟩ :: done).reverse = l.depthAfter depth := by
      rw [List.reverse_cons, Grammar.depthBehind_append, hd]
      rfl
    obtain ⟨done', htokens, he', hread⟩ :=
      ih h hd' (List.forall_mem_cons.mpr ⟨lexeme_ne_eof hl, he⟩)
    refine ⟨done', htokens, he', fun stop' p more => ?_⟩
    rw [tokensFrom_eq, skipBlanks_append hskip]
    simp only [List.cons_append, if_neg hline, lexeme_append hl]
    exact (if_neg hmax).trans (hread stop' p more)

/-- In front of other tokens, of which the last one is a line end if there are any, the lexer
goes on as it does at the start of a text. -/
theorem tokensFrom_behind {base : List Token} (hb : suppressesNewline 0 base = true)
    (stop : Position) (depth : Nat) (done : List Token) (cs : List (Located Char)) :
    tokensFrom stop depth (done ++ base) cs =
      (tokensFrom stop depth done cs).map (base.reverse ++ ·) := by
  have hsame : ∀ depth done,
      suppressesNewline depth (done ++ base) = suppressesNewline depth done := by
    intro depth done
    cases done with
    | nil =>
      have hbase : (base.head?.all fun t => t.item = .newline) = true := by
        simpa [suppressesNewline] using hb
      rw [List.nil_append, suppressesNewline, hbase]
      rfl
    | cons t done => rfl
  fun_induction tokensFrom stop depth done cs with
  | case1 depth done cs e hskip =>
    rw [tokensFrom_eq, hskip]
    rfl
  | case2 depth done cs hskip =>
    rw [tokensFrom_eq, hskip]
    simp [Except.map]
  | case3 depth done cs c rest hskip hline hs ih =>
    rw [tokensFrom_eq, hskip]
    simp only [if_pos hline, hsame, if_pos hs, ih]
  | case4 depth done cs c rest hskip hline hs ih =>
    rw [tokensFrom_eq, hskip]
    simp only [if_pos hline, hsame, if_neg hs]
    exact ih
  | case5 depth done cs c rest hskip hline e hl =>
    rw [tokensFrom_eq, hskip]
    simp only [if_neg hline, hl]
    rfl
  | case6 depth done cs c rest hskip hline l after hl depth' hmax =>
    rw [tokensFrom_eq, hskip]
    simp only [if_neg hline, hl]
    exact if_pos hmax
  | case7 depth done cs c rest hskip hline l after hl depth' hmax ih =>
    rw [tokensFrom_eq, hskip]
    simp only [if_neg hline, hl]
    exact (if_neg hmax).trans ih

end Lexer

end PinnedDeps
