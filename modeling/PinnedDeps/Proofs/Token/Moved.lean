import PinnedDeps.Proofs.Token.Lexer

/-! Texts at other places. The lexer never looks at a place: when the characters of a text are put
at other places, it gives the same tokens, each where its first character is then, and refuses the
same texts for the same reasons. -/

namespace PinnedDeps

/-- The same thing at another place. -/
def Located.moved {α : Type} (f : Position → Position) (x : Located α) : Located α :=
  ⟨f x.pos, x.item⟩

@[simp]
theorem Located.item_moved {α : Type} (f : Position → Position) (x : Located α) :
    (x.moved f).item = x.item := rfl

@[simp]
theorem Located.pos_moved {α : Type} (f : Position → Position) (x : Located α) :
    (x.moved f).pos = f x.pos := rfl

/-- What `g` makes of the result, or the refusal at its other place. -/
def Moved.outcome {α β : Type} (f : Position → Position) (g : α → β) :
    Except SyntaxError α → Except SyntaxError β
  | .ok a => .ok (g a)
  | .error e => .error (e.moved f)

@[simp]
theorem Moved.outcome_ok {α β : Type} (f : Position → Position) (g : α → β) (a : α) :
    Moved.outcome f g (.ok a) = .ok (g a) := rfl

@[simp]
theorem Moved.outcome_error {α β : Type} (f : Position → Position) (g : α → β) (e : SyntaxError) :
    Moved.outcome f g (.error e) = .error (e.moved f) := rfl

variable (f : Position → Position)

theorem map_moved_cons {α : Type} (x : Located α) (xs : List (Located α)) :
    (x :: xs).map (·.moved f) = ⟨f x.pos, x.item⟩ :: xs.map (·.moved f) := rfl

theorem takeWhile_moved (p : Char → Bool) (cs : List (Located Char)) :
    (cs.map (·.moved f)).takeWhile (fun c => p c.item) =
      (cs.takeWhile fun c => p c.item).map (·.moved f) := List.takeWhile_map

theorem dropWhile_moved (p : Char → Bool) (cs : List (Located Char)) :
    (cs.map (·.moved f)).dropWhile (fun c => p c.item) =
      (cs.dropWhile fun c => p c.item).map (·.moved f) := List.dropWhile_map

theorem map_item_moved {α : Type} (cs : List (Located α)) :
    (cs.map (·.moved f)).map (·.item) = cs.map (·.item) := List.map_map

theorem any_head?_moved (p : Char → Bool) (cs : List (Located Char)) :
    ((cs.map (·.moved f)).head?.any fun c => p c.item) = cs.head?.any fun c => p c.item := by
  cases cs <;> rfl

/-! ### Literals -/

namespace Escape

theorem octal_moved (first : Char) (rest : List (Located Char)) :
    octal first (rest.map (·.moved f)) = octal first rest := by
  rw [octal, ← List.map_take, map_item_moved]
  rfl

theorem hex_moved (start : Position) (kind : Char) (width : Nat) (rest : List (Located Char)) :
    hex (f start) kind width (rest.map (·.moved f)) =
      Moved.outcome f id (hex start kind width rest) := by
  have hdigits : ((rest.map (·.moved f)).take width).map (fun c => hexDigit? c.item) =
      (rest.take width).map fun c => hexDigit? c.item := by
    rw [← List.map_take, List.map_map]
    rfl
  unfold hex
  rw [hdigits]
  dsimp only
  split
  · rfl
  split <;> rfl

theorem read_moved (start : Position) (c : Char) (rest : List (Located Char)) :
    read (f start) c (rest.map (·.moved f)) = Moved.outcome f id (read start c rest) := by
  unfold read
  split
  case h_12 => exact hex_moved f start 'x' 2 rest
  case h_13 => exact hex_moved f start 'u' 4 rest
  case h_14 => exact hex_moved f start 'U' 8 rest
  case h_16 =>
    rw [octal_moved]
    split <;> rfl
  all_goals rfl

end Escape

namespace Literal

theorem twoMore_moved (quote : Char) (cs : List (Located Char)) :
    twoMore quote (cs.map (·.moved f)) = twoMore quote cs := by
  match cs with
  | [] | [_] => rfl
  | _ :: _ :: _ => rfl

/-- A text, and the characters behind it at their other places. -/
abbrev behind {α : Type} (f : Position → Position) (r : α × List (Located Char)) :
    α × List (Located Char) :=
  (r.1, r.2.map (·.moved f))

theorem stringBody_moved (raw triple : Bool) (quote : Char) (start : Position) (done : List Char)
    (cs : List (Located Char)) :
    stringBody raw triple quote (f start) done (cs.map (·.moved f)) =
      Moved.outcome f (behind f) (stringBody raw triple quote start done cs) := by
  fun_induction stringBody raw triple quote start done cs with
  | case1 => rw [List.map_nil, stringBody.eq_def]; rfl
  | case2 done c rest hq ht =>
    rw [map_moved_cons, stringBody.eq_def]
    dsimp only
    rw [if_pos hq, if_pos ht, Moved.outcome_ok]
  | case3 done c rest hq ht hm =>
    rw [map_moved_cons, stringBody.eq_def]
    dsimp only
    rw [if_pos hq, if_neg ht, twoMore_moved, if_pos hm, ← List.map_drop, Moved.outcome_ok]
  | case4 done c rest hq ht hm ih =>
    rw [map_moved_cons, stringBody.eq_def]
    dsimp only
    rw [if_pos hq, if_neg ht, twoMore_moved, if_neg hm, ih]
  | case5 done c rest hq hn =>
    rw [map_moved_cons, stringBody.eq_def]
    dsimp only
    rw [if_neg hq, if_pos hn]
    rfl
  | case6 done c hq hn hs =>
    rw [map_moved_cons, List.map_nil, stringBody.eq_def]
    dsimp only
    rw [if_neg hq, if_neg hn, if_pos hs]
    rfl
  | case7 done c hq hn hs e rest hr ih =>
    rw [map_moved_cons, map_moved_cons, stringBody.eq_def]
    dsimp only
    rw [if_neg hq, if_neg hn, if_pos hs, if_pos hr, ih]
  | case8 done c hq hn hs e rest hr error he =>
    rw [map_moved_cons, map_moved_cons, stringBody.eq_def]
    dsimp only
    rw [if_neg hq, if_neg hn, if_pos hs, if_neg hr, Escape.read_moved, he]
    rfl
  | case9 done c hq hn hs e rest hr escape he ih =>
    rw [map_moved_cons, map_moved_cons, stringBody.eq_def]
    dsimp only
    rw [if_neg hq, if_neg hn, if_pos hs, if_neg hr, Escape.read_moved, he, ← ih, List.map_drop]
    rfl
  | case10 done c rest hq hn hs ih =>
    rw [map_moved_cons, stringBody.eq_def]
    dsimp only
    rw [if_neg hq, if_neg hn, if_neg hs, ih]

theorem string_moved (raw : Bool) (quote : Located Char) (rest : List (Located Char)) :
    string raw (quote.moved f) (rest.map (·.moved f)) =
      Moved.outcome f (behind f) (string raw quote rest) := by
  unfold string
  rw [Located.item_moved, Located.pos_moved, twoMore_moved, ← List.map_drop, stringBody_moved,
    stringBody_moved]
  split <;> rfl

theorem integer_moved (first : Located Char) (rest : List (Located Char)) :
    integer (first.moved f) (rest.map (·.moved f)) =
      Moved.outcome f (behind f) (integer first rest) := by
  have hdigits : (((first.moved f :: (rest.map (·.moved f)).takeWhile isDigitOrUnderscore).map
        (·.item)).filter Char.isDigit) =
      ((first :: rest.takeWhile isDigitOrUnderscore).map (·.item)).filter Char.isDigit := by
    rw [List.takeWhile_map, List.map_cons, map_item_moved]
    rfl
  have hbehind : (rest.map (·.moved f)).dropWhile isDigitOrUnderscore =
      (rest.dropWhile isDigitOrUnderscore).map (·.moved f) := List.dropWhile_map
  unfold integer
  dsimp only
  rw [hdigits, hbehind, any_head?_moved f fun c => Text.isAlphabetic c || c = '.']
  split
  · rfl
  split <;> rfl

end Literal

/-! ### Lexemes -/

namespace Lexer

open Literal (behind)

theorem skipBlanks_moved (cs : List (Located Char)) :
    skipBlanks (cs.map (·.moved f)) =
      Moved.outcome f (List.map (·.moved f)) (skipBlanks cs) := by
  fun_induction skipBlanks cs with
  | case1 => rfl
  | case2 c rest hb ih =>
    rw [map_moved_cons, skipBlanks.eq_def]
    dsimp only
    rw [if_pos hb, ih]
  | case3 c rest hb hc =>
    rw [map_moved_cons, skipBlanks.eq_def]
    dsimp only
    rw [if_neg hb, if_pos hc, List.dropWhile_map]
    rfl
  | case4 c hb hc hs d rest hd ih =>
    rw [map_moved_cons, map_moved_cons, skipBlanks.eq_def]
    dsimp only
    rw [if_neg hb, if_neg hc, if_pos hs, if_pos hd, ih]
  | case5 c hb hc hs d hd e rest he ih =>
    rw [map_moved_cons, map_moved_cons, map_moved_cons, skipBlanks.eq_def]
    dsimp only
    rw [if_neg hb, if_neg hc, if_pos hs, if_neg hd, if_pos he, ih]
  | case6 c hb hc hs d hd e rest he =>
    rw [map_moved_cons, map_moved_cons, map_moved_cons, skipBlanks.eq_def]
    dsimp only
    rw [if_neg hb, if_neg hc, if_pos hs, if_neg hd, if_neg he]
    rfl
  | case7 c hb hc hs d hd =>
    rw [map_moved_cons, map_moved_cons, List.map_nil, skipBlanks.eq_def]
    dsimp only
    rw [if_neg hb, if_neg hc, if_pos hs, if_neg hd]
    rfl
  | case8 c hb hc hs =>
    rw [map_moved_cons, List.map_nil, skipBlanks.eq_def]
    dsimp only
    rw [if_neg hb, if_neg hc, if_pos hs]
    rfl
  | case9 c rest hb hc hs =>
    rw [map_moved_cons, skipBlanks.eq_def]
    dsimp only
    rw [if_neg hb, if_neg hc, if_neg hs]
    rfl

theorem stringLexeme_moved (raw : Bool) (quote : Located Char) (rest : List (Located Char)) :
    stringLexeme raw (quote.moved f) (rest.map (·.moved f)) =
      Moved.outcome f (behind f) (stringLexeme raw quote rest) := by
  unfold stringLexeme
  rw [Literal.string_moved]
  cases Literal.string raw quote rest <;> rfl

theorem nameOrLiteral_moved (first : Located Char) (rest : List (Located Char)) :
    nameOrLiteral (first.moved f) (rest.map (·.moved f)) =
      Moved.outcome f (behind f) (nameOrLiteral first rest) := by
  unfold nameOrLiteral
  rw [takeWhile_moved f isNameRest, dropWhile_moved f isNameRest, map_item_moved,
    Located.item_moved]
  cases rest.dropWhile fun c => isNameRest c.item with
  | nil => rfl
  | cons quote more =>
    rw [map_moved_cons]
    dsimp only
    split
    · split
      · exact stringLexeme_moved f true quote more
      split
      · exact stringLexeme_moved f false quote more
      split <;> rfl
    · rfl

theorem lexeme_moved (c : Located Char) (rest : List (Located Char)) :
    lexeme (c.moved f) (rest.map (·.moved f)) = Moved.outcome f (behind f) (lexeme c rest) := by
  obtain ⟨pos, ch⟩ := c
  unfold lexeme
  dsimp only [Located.item_moved]
  split
  case h_11 =>
    rw [any_head?_moved f fun c => c = '=']
    split <;> rfl
  case h_12 => exact stringLexeme_moved f false _ rest
  case h_13 => exact stringLexeme_moved f false _ rest
  case h_14 =>
    split
    · rw [Literal.integer_moved]
      cases Literal.integer ⟨pos, ch⟩ rest <;> rfl
    split
    · exact nameOrLiteral_moved f _ rest
    · rfl
  all_goals rfl

theorem suppressesNewline_moved (depth : Nat) (done : List Token) :
    suppressesNewline depth (done.map (·.moved f)) = suppressesNewline depth done := by
  cases done <;> rfl

theorem tokensFrom_moved (stop : Position) (depth : Nat) (done : List Token)
    (cs : List (Located Char)) :
    tokensFrom (f stop) depth (done.map (·.moved f)) (cs.map (·.moved f)) =
      Moved.outcome f (List.map (·.moved f)) (tokensFrom stop depth done cs) := by
  fun_induction tokensFrom stop depth done cs with
  | case1 depth done cs e hskip =>
    rw [tokensFrom_eq, skipBlanks_moved, hskip]
    rfl
  | case2 depth done cs hskip =>
    rw [tokensFrom_eq, skipBlanks_moved, hskip]
    simp [Located.moved]
  | case3 depth done cs c rest hskip hline hs ih =>
    rw [tokensFrom_eq, skipBlanks_moved, hskip]
    simp only [Moved.outcome_ok, List.map_cons, Located.item_moved, if_pos hline,
      suppressesNewline_moved, if_pos hs, ih]
  | case4 depth done cs c rest hskip hline hs ih =>
    rw [tokensFrom_eq, skipBlanks_moved, hskip]
    simp only [Moved.outcome_ok, List.map_cons, Located.item_moved, if_pos hline,
      suppressesNewline_moved, if_neg hs]
    exact ih
  | case5 depth done cs c rest hskip hline e hl =>
    rw [tokensFrom_eq, skipBlanks_moved, hskip]
    simp only [Moved.outcome_ok, List.map_cons, Located.item_moved, if_neg hline, lexeme_moved, hl]
    rfl
  | case6 depth done cs c rest hskip hline l after hl depth' hmax =>
    rw [tokensFrom_eq, skipBlanks_moved, hskip]
    simp only [Moved.outcome_ok, List.map_cons, Located.item_moved, if_neg hline, lexeme_moved, hl]
    exact if_pos hmax
  | case7 depth done cs c rest hskip hline l after hl depth' hmax ih =>
    rw [tokensFrom_eq, skipBlanks_moved, hskip]
    simp only [Moved.outcome_ok, List.map_cons, Located.item_moved, if_neg hline, lexeme_moved, hl]
    exact (if_neg hmax).trans ih

end Lexer

end PinnedDeps
