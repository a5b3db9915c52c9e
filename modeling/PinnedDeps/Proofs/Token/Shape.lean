import PinnedDeps.Proofs.Token.Seam
import PinnedDeps.Proofs.Token.Spelling

/-! The shape of what is lexed. In each turn the lexer adds at most one token. It can be written,
it stands outside brackets and not behind another line end if it is a line end, and the depth that
the lexer keeps is the one counted over the tokens. So whatever text is lexed, its tokens in front
of the end marker are `Writable`. -/

namespace PinnedDeps.Spelling

open Lexer
open Grammar (depthBehind)

variable {c : Located Char} {cs rest after : List (Located Char)} {l : Lexeme} {depth : Nat}
  {done tokens : List Token} {stop : Position}

/-! ### One lexeme -/

theorem isName_of_isNameStart {first : Located Char} (h : isNameStart first.item = true)
    (rest : List (Located Char)) :
    IsName (String.ofList
      (first.item :: (rest.takeWhile fun c => isNameRest c.item).map (·.item))) := by
  refine ⟨_, _, String.toList_ofList, h, List.all_eq_true.mpr fun d hd => ?_⟩
  obtain ⟨c, hc, rfl⟩ := List.mem_map.mp hd
  exact List.all_eq_true.mp List.all_takeWhile c hc

theorem le_maxInteger_of_integer {n : Nat} (h : Literal.integer c rest = .ok (n, after)) :
    n ≤ Literal.maxInteger := by
  unfold Literal.integer at h
  dsimp only at h
  split at h
  · cases h
  split at h <;> cases h
  assumption

/-- A lexeme can be written, and none is a line end. -/
theorem isWritable_of_lexeme (h : lexeme c rest = .ok (l, after)) :
    IsWritable l ∧ l ≠ .newline := by
  unfold lexeme at h
  split at h
  case h_11 =>
    split at h <;> cases h
    simp [IsWritable]
  case h_12 | h_13 =>
    obtain ⟨text, rfl⟩ := exists_of_stringLexeme h
    simp [IsWritable]
  case h_14 =>
    split at h
    · split at h <;> cases h
      next n hn =>
        have hmax := le_maxInteger_of_integer hn
        exact ⟨⟨Int.natCast_nonneg n, Int.ofNat_le.mpr hmax⟩, by simp⟩
    split at h
    · next hstart =>
      rcases nameOrLiteral_cases h with rfl | ⟨text, rfl⟩
      · exact ⟨isName_of_isNameStart hstart rest, by simp⟩
      · simp [IsWritable]
    · cases h
  all_goals
    cases h
    simp [IsWritable]

/-! ### One more token -/

theorem nested_concat (depth : Nat) (tokens : List Token) (t : Token) :
    Nested depth ((tokens ++ [t]).map (·.item)) ↔
      Nested depth (tokens.map (·.item)) ∧
        (t.item = .newline → depthBehind depth tokens = 0) ∧
          t.item.depthAfter (depthBehind depth tokens) ≤ maxNesting := by
  induction tokens generalizing depth with
  | nil => simp [Nested]
  | cons u tokens ih =>
    simp only [List.cons_append, List.map_cons, Nested, Grammar.depthBehind_cons, ih, and_assoc]

theorem noEmptyLine_concat {tokens : List Token} (h : NoEmptyLine (tokens.map (·.item)))
    {t : Token} (ht : t.item = .newline → ∃ u ∈ tokens.getLast?, u.item ≠ .newline) :
    NoEmptyLine ((tokens ++ [t]).map (·.item)) := by
  rw [NoEmptyLine, List.map_append, ← List.cons_append, List.isChain_append]
  refine ⟨h, List.isChain_singleton _, fun x hx y hy hxn hyn => ?_⟩
  obtain rfl : t.item = y := by simpa using hy
  obtain ⟨u, hu, hun⟩ := ht hyn
  rw [List.getLast?_cons, List.getLast?_map, Option.mem_def.mp hu] at hx
  obtain rfl : u.item = x := by simpa using hx
  exact hun hxn

/-- What the lexer keeps in each turn about the tokens so far, the last one first, and the brackets
that it counts as open. -/
structure Lexed (depth : Nat) (done : List Token) : Prop where
  writable : Writable (done.reverse.map (·.item))
  depth_eq : depthBehind 0 done.reverse = depth
  depth_le : depth ≤ maxNesting

theorem lexed_nil : Lexed 0 [] where
  writable := ⟨by simp, trivial, List.isChain_singleton _⟩
  depth_eq := rfl
  depth_le := Nat.zero_le _

theorem Lexed.push (h : Lexed depth done) {t : Token} (ht : IsWritable t.item)
    (hd : t.item.depthAfter depth ≤ maxNesting)
    (hline : t.item = .newline → suppressesNewline depth done = false) :
    Lexed (t.item.depthAfter depth) (t :: done) := by
  obtain ⟨⟨htokens, hnested, hlines⟩, rfl, -⟩ := h
  -- a line end that is not suppressed stands outside brackets, behind a token of another kind
  have hopen (hn : t.item = .newline) :
      depthBehind 0 done.reverse = 0 ∧ ∃ u ∈ done.reverse.getLast?, u.item ≠ .newline := by
    have hs := hline hn
    cases done with
    | nil => simp [suppressesNewline] at hs
    | cons u done => simpa [suppressesNewline] using hs
  refine ⟨⟨?_, ?_, ?_⟩, ?_, hd⟩
  · simpa [or_imp, forall_and] using And.intro htokens ht
  · rw [List.reverse_cons, nested_concat]
    exact ⟨hnested, fun hn => (hopen hn).1, hd⟩
  · rw [List.reverse_cons]
    exact noEmptyLine_concat hlines fun hn => (hopen hn).2
  · rw [List.reverse_cons, Grammar.depthBehind_append]
    rfl

/-! ### All tokens -/

theorem writable_of_tokensFrom (h : tokensFrom stop depth done cs = .ok tokens)
    (hd : Lexed depth done) :
    ∃ ls, tokens.map (·.item) = ls ++ [.eof] ∧ Writable ls := by
  fun_induction tokensFrom stop depth done cs with
  | case1 => cases h
  | case2 depth done =>
    obtain rfl := Except.ok.inj h
    exact ⟨done.reverse.map (·.item), by simp, hd.writable⟩
  | case3 depth done cs c rest hskip hline hs ih => exact ih h hd
  | case4 depth done cs c rest hskip hline hs ih =>
    exact ih h (hd.push (t := ⟨c.pos, .newline⟩) trivial hd.depth_le fun _ => by simpa using hs)
  | case5 => cases h
  | case6 => cases h
  | case7 depth done cs c rest hskip hline l after hl depth' hmax ih =>
    obtain ⟨hwritable, hnewline⟩ := isWritable_of_lexeme hl
    exact ih h (hd.push (t := ⟨c.pos, l⟩) hwritable (Nat.not_lt.mp hmax) fun hn =>
      absurd hn hnewline)

/-- Whatever text is lexed, the end marker is its last token and no other, and the tokens in front
of it are written as tokens are: names and integers of the dialect, at most as many open brackets as
may be, and line ends that stand outside brackets, neither first nor behind one another. -/
theorem writable_of_tokenize {text : String} {tokens : List Token}
    (h : tokenize text = .ok tokens) :
    ∃ ls, tokens.map (·.item) = ls ++ [.eof] ∧ Writable ls :=
  writable_of_tokensFrom h lexed_nil

/-- Empty lines, line ends inside brackets, brackets that do not match and one that closes none. -/
theorem writable_of_tokenize_lines :
    let tokens : List Token :=
      [⟨⟨2, 1⟩, .closeParen⟩, ⟨⟨2, 2⟩, .newline⟩, ⟨⟨3, 1⟩, .openBracket⟩, ⟨⟨3, 2⟩, .openParen⟩,
        ⟨⟨4, 1⟩, .closeBracket⟩, ⟨⟨4, 2⟩, .closeBracket⟩, ⟨⟨4, 3⟩, .name "x_1"⟩,
        ⟨⟨4, 6⟩, .newline⟩, ⟨⟨8, 1⟩, .integer 70⟩, ⟨⟨8, 5⟩, .string "a"⟩, ⟨⟨8, 9⟩, .eof⟩]
    tokenize "\n)\n[(\n]]x_1\n\n# z\n\n7_0 u'a'" = .ok tokens ∧
      ∃ ls, tokens.map (·.item) = ls ++ [.eof] ∧ Writable ls := by
  intro tokens
  have h : tokenize "\n)\n[(\n]]x_1\n\n# z\n\n7_0 u'a'" = .ok tokens := by decide +kernel
  exact ⟨h, writable_of_tokenize h⟩

end PinnedDeps.Spelling
