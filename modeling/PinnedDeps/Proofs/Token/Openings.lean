import PinnedDeps.Proofs.Token.Lexer
import Mathlib.Tactic.SplitIfs

/-! The string literals of a text. A literal is told by its first character, a quote or a letter
directly before one, as the lexer tells it by the whole name; `openings` lists the literals that the
lexer comes to. What the lexer leaves is always an end of what it was given, so each literal is one
of the text. -/

namespace PinnedDeps

namespace Lexer

/-- A string literal that is about to be read: its opening quote and what is behind it. -/
structure Opening where
  raw : Bool
  quote : Located Char
  rest : List (Located Char)

/-- The literal that starts with the first character, if it is a quote. -/
def quoted (raw : Bool) : List (Located Char) → Option Opening
  | [] => none
  | quote :: rest => if isQuote quote.item then some ⟨raw, quote, rest⟩ else none

/-- The literal that starts with `c`: a quote, or one of the letters `r` and `u` of either case
directly before a quote. -/
def openingAt (c : Located Char) (rest : List (Located Char)) : Option Opening :=
  match c.item.toLower with
  | 'r' => quoted true rest
  | 'u' => quoted false rest
  | _ => quoted false (c :: rest)

theorem openingAt_of_not_isQuote {c : Located Char} (h : isQuote c.item = false)
    (rest : List (Located Char)) :
    openingAt c rest =
      if c.item.toLower = 'r' then quoted true rest
      else if c.item.toLower = 'u' then quoted false rest
      else none := by
  unfold openingAt
  split
  · next heq => rw [if_pos heq]
  · next heq => rw [heq]; rfl
  · next hr hu => rw [if_neg hr, if_neg hu, quoted, if_neg (by simp [h])]

theorem toLower_of_isDigit {c : Char} (h : c.isDigit = true) : c.toLower = c := by
  have hle : c.val ≤ '9'.val := of_decide_eq_true (Bool.and_eq_true_iff.mp h).2
  refine dif_neg fun hupper => ?_
  exact absurd (UInt32.le_trans hupper.1 hle) (by decide)

theorem openingAt_of_isDigit {c : Located Char} (h : c.item.isDigit = true)
    (rest : List (Located Char)) : openingAt c rest = none := by
  have hne {d : Char} (hd : d.isDigit = false) : c.item ≠ d := by
    rintro rfl
    rw [hd] at h
    cases h
  have hquote : isQuote c.item = false := by
    simp [isQuote, hne (d := '\'') rfl, hne (d := '"') rfl]
  rw [openingAt_of_not_isQuote hquote, toLower_of_isDigit h, if_neg (hne rfl), if_neg (hne rfl)]

theorem isNameRest_of_isQuote {c : Char} (h : isQuote c = true) : isNameRest c = false := by
  rcases isQuote_iff.mp h with rfl | rfl <;> decide

theorem isNameStart_of_isQuote {c : Char} (h : isQuote c = true) : isNameStart c = false := by
  rcases isQuote_iff.mp h with rfl | rfl <;> decide

/-- The literal that a name is the prefix of, told as the lexer does, by the whole name. -/
theorem openingAt_of_isNameStart {first : Located Char} (h : isNameStart first.item = true)
    (rest : List (Located Char)) :
    openingAt first rest =
      match rest.dropWhile fun c => isNameRest c.item with
      | [] => none
      | quote :: more =>
        let word := first.item :: (rest.takeWhile fun c => isNameRest c.item).map (·.item)
        if isQuote quote.item then
          if word.map Char.toLower = ['r'] then some ⟨true, quote, more⟩
          else if word.map Char.toLower = ['u'] then some ⟨false, quote, more⟩
          else none
        else none := by
  have hquote : isQuote first.item = false := Bool.eq_false_iff.mpr fun hbad => by
    rw [isNameStart_of_isQuote hbad] at h
    cases h
  rw [openingAt_of_not_isQuote hquote]
  cases rest with
  | nil => simp [quoted]
  | cons d rest =>
    by_cases hd : isNameRest d.item = true
    · have hnone (raw : Bool) : quoted raw (d :: rest) = none := by
        rw [quoted, if_neg]
        intro hbad
        rw [isNameRest_of_isQuote hbad] at hd
        cases hd
      rw [hnone, hnone, ite_self, ite_self, List.takeWhile_cons, if_pos hd]
      simp only [List.map_cons, List.cons.injEq, reduceCtorEq, and_false, if_false, ite_self]
      split <;> rfl
    · rw [List.takeWhile_cons, List.dropWhile_cons, if_neg hd, if_neg hd]
      simp only [quoted, List.map_cons, List.map_nil, List.cons.injEq, and_true]
      split_ifs <;> rfl

/-- The string literals that the lexer reads, from first to last. -/
def openings (cs : List (Located Char)) : List Opening :=
  match _hs : skipBlanks cs with
  | .error _ => []
  | .ok [] => []
  | .ok (c :: rest) =>
    if c.item = '\n' then openings rest
    else
      match _hl : lexeme c rest with
      | .error _ => []
      | .ok (_, after) => (openingAt c rest).toList ++ openings after
termination_by cs.length
decreasing_by
  all_goals
    have hlen := length_of_skipBlanks _hs
    simp only [List.length_cons] at hlen
  · omega
  · have := length_of_lexeme _hl; omega

theorem openings_eq (cs : List (Located Char)) :
    openings cs =
      match skipBlanks cs with
      | .error _ => []
      | .ok [] => []
      | .ok (c :: rest) =>
        if c.item = '\n' then openings rest
        else
          match lexeme c rest with
          | .error _ => []
          | .ok (_, after) => (openingAt c rest).toList ++ openings after := by
  rw [openings]
  split
  · next h => rw [h]
  · next h => rw [h]
  · next c rest h =>
    rw [h]
    dsimp only
    congr 1
    split
    · next hl => rw [hl]
    · next hl => rw [hl]

/-! ### What is left -/

theorem suffix_of_skipBlanks {cs after : List (Located Char)} (h : skipBlanks cs = .ok after) :
    after <:+ cs := by
  fun_induction skipBlanks cs with
  | case3 c rest _ _ =>
    cases h
    exact (List.dropWhile_suffix _).trans (List.suffix_cons c rest)
  | _ => grind [List.IsSuffix.trans, List.suffix_cons, List.suffix_refl]

theorem suffix_of_stringBody {raw triple : Bool} {quote : Char} {start : Position}
    {done text : List Char} {cs after : List (Located Char)}
    (h : Literal.stringBody raw triple quote start done cs = .ok (text, after)) : after <:+ cs := by
  fun_induction Literal.stringBody raw triple quote start done cs <;>
    grind [List.drop_suffix, List.IsSuffix.trans, List.suffix_cons, List.suffix_refl]

theorem suffix_of_stringLexeme {raw : Bool} {quote : Located Char}
    {rest after : List (Located Char)} {l : Lexeme}
    (h : stringLexeme raw quote rest = .ok (l, after)) : after <:+ rest := by
  unfold stringLexeme Literal.string at h
  split at h
  · next heq =>
    cases h
    split at heq
    · exact (suffix_of_stringBody heq).trans (List.drop_suffix 2 rest)
    · exact suffix_of_stringBody heq
  · cases h

theorem suffix_of_integer {first : Located Char} {rest after : List (Located Char)} {n : Nat}
    (h : Literal.integer first rest = .ok (n, after)) : after <:+ rest := by
  simp only [Literal.integer] at h
  split at h
  · cases h
  · split at h <;> cases h
    exact List.dropWhile_suffix _

theorem suffix_of_nameOrLiteral {first : Located Char} {rest after : List (Located Char)}
    {l : Lexeme} (h : nameOrLiteral first rest = .ok (l, after)) : after <:+ rest := by
  have hname : rest.dropWhile (fun c => isNameRest c.item) <:+ rest := List.dropWhile_suffix _
  simp only [nameOrLiteral] at h
  split at h
  · cases h
    exact List.nil_suffix
  · next quote more hm =>
    have hmore : more <:+ rest := (List.suffix_cons quote more).trans (hm ▸ hname)
    split at h
    · split at h
      · exact (suffix_of_stringLexeme h).trans hmore
      split at h
      · exact (suffix_of_stringLexeme h).trans hmore
      split at h <;> cases h
      exact hname
    · cases h
      exact hname

theorem suffix_of_lexeme {c : Located Char} {rest after : List (Located Char)} {l : Lexeme}
    (h : lexeme c rest = .ok (l, after)) : after <:+ rest := by
  unfold lexeme at h
  split at h
  case h_12 => exact suffix_of_stringLexeme h
  case h_13 => exact suffix_of_stringLexeme h
  case h_14 =>
    split at h
    · split at h
      · next hn => cases h; exact suffix_of_integer hn
      · cases h
    · split at h
      · exact suffix_of_nameOrLiteral h
      · cases h
  case h_11 => split at h <;> cases h; exact List.suffix_refl _
  all_goals cases h; exact List.suffix_refl _

theorem suffix_of_quoted {raw : Bool} {cs : List (Located Char)} {o : Opening}
    (h : o ∈ quoted raw cs) : o.rest <:+ cs := by
  cases cs with
  | nil => cases h
  | cons quote rest =>
    rw [quoted] at h
    split at h <;> cases h
    exact List.suffix_cons quote rest

theorem suffix_of_openingAt {c : Located Char} {rest : List (Located Char)} {o : Opening}
    (h : o ∈ openingAt c rest) : o.rest <:+ c :: rest := by
  unfold openingAt at h
  split at h
  · exact (suffix_of_quoted h).trans (List.suffix_cons c rest)
  · exact (suffix_of_quoted h).trans (List.suffix_cons c rest)
  · exact suffix_of_quoted h

theorem suffix_of_mem_openings {cs : List (Located Char)} {o : Opening} (h : o ∈ openings cs) :
    o.rest <:+ cs := by
  fun_induction openings cs with
  | case1 => cases h
  | case2 => cases h
  | case3 cs c rest hskip hline ih =>
    exact (ih h).trans ((List.suffix_cons c rest).trans (suffix_of_skipBlanks hskip))
  | case4 => cases h
  | case5 cs c rest hskip hline l after hl ih =>
    have hrest := suffix_of_skipBlanks hskip
    rcases List.mem_append.mp h with h | h
    · exact (suffix_of_openingAt (Option.mem_toList.mp h)).trans hrest
    · exact (ih h).trans ((suffix_of_lexeme hl).trans ((List.suffix_cons c rest).trans hrest))

end Lexer

end PinnedDeps
