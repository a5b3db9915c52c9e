import PinnedDeps.Proofs.Token.Lexer
import Mathlib.Data.List.Chain

/-! The ways to write tokens. A token is written in one way but for the quotes of a string; between
two tokens stand blanks and joined lines, inside brackets line feeds and comments too, and in front
of a line end a comment. All texts in which some tokens are written are lexed to these tokens. -/

namespace PinnedDeps.Spelling

open Lexer
open Source (locate)

/-! ### What can be written -/

/-- Names are names of the dialect, integers in its range, and the end marker is not written. -/
def IsWritable : Lexeme → Prop
  | .name name => IsName name
  | .integer value => 0 ≤ value ∧ value ≤ Literal.maxInteger
  | .eof => False
  | _ => True

/-- With `depth` brackets open in front, line ends stand outside all brackets, and nowhere are more
brackets open than may be. -/
def Nested (depth : Nat) : List Lexeme → Prop
  | [] => True
  | l :: rest =>
    (l = .newline → depth = 0) ∧ l.depthAfter depth ≤ maxNesting ∧ Nested (l.depthAfter depth) rest

/-- A line end is neither the first token nor right behind another one. -/
def NoEmptyLine (ls : List Lexeme) : Prop :=
  (Lexeme.newline :: ls).IsChain fun a b => a = .newline → b ≠ .newline

structure Writable (ls : List Lexeme) : Prop where
  tokens : ∀ l ∈ ls, IsWritable l
  nested : Nested 0 ls
  lines : NoEmptyLine ls

/-! ### How it is written -/

/-- The sign of a token that has always the same one. -/
def sign? : Lexeme → Option Char
  | .openBrace => some '{'
  | .closeBrace => some '}'
  | .openBracket => some '['
  | .closeBracket => some ']'
  | .openParen => some '('
  | .closeParen => some ')'
  | .colon => some ':'
  | .comma => some ','
  | .plus => some '+'
  | .assign => some '='
  | .semicolon => some ';'
  | .newline => some '\n'
  | _ => none

inductive Writes : Lexeme → List Char → Prop where
  | name {name : String} : Writes (.name name) name.toList
  | integer {n : Nat} : Writes (.integer n) (Nat.toDigits 10 n)
  | string {text : String} {quote : Char} :
      quote = '\'' ∨ quote = '"' →
      Writes (.string text) (quote :: (text.toList.flatMap (escaped quote) ++ [quote]))
  | sign {l : Lexeme} {c : Char} : sign? l = some c → Writes l [c]

/-- What separates tokens where `depth` brackets are open. -/
inductive Filler (depth : Nat) : List Char → Prop where
  | blank {c : Char} : c ∈ [' ', '\t', '\r', '\x0c'] → Filler depth [c]
  | joined : Filler depth ['\\', '\n']
  | line : 0 < depth → Filler depth ['\n']
  | comment {text : List Char} : 0 < depth → '\n' ∉ text → Filler depth ('#' :: (text ++ ['\n']))

inductive Gap (depth : Nat) : List Char → Prop where
  | nil : Gap depth []
  | cons {filler gap : List Char} :
      Filler depth filler → Gap depth gap → Gap depth (filler ++ gap)

/-- What stands in front of the token `next`. -/
inductive Between (depth : Nat) (next : Lexeme) : List Char → Prop where
  | gap {gap : List Char} : Gap depth gap → gap ≠ [] → Between depth next gap
  /-- The line end behind a comment is the next token itself. -/
  | remark {gap text : List Char} :
      Gap depth gap → '\n' ∉ text → next = .newline → Between depth next (gap ++ '#' :: text)

/-- The characters write the tokens, `depth` brackets being open in front. -/
inductive Spells : Nat → List Lexeme → List Char → Prop where
  | nil {depth : Nat} : Spells depth [] []
  | last {depth : Nat} {l : Lexeme} {word : List Char} : Writes l word → Spells depth [l] word
  | next {depth : Nat} {l l' : Lexeme} {ls : List Lexeme} {word gap cs : List Char} :
      Writes l word → Between (l.depthAfter depth) l' gap →
      Spells (l.depthAfter depth) (l' :: ls) cs → Spells depth (l :: l' :: ls) (word ++ (gap ++ cs))

variable {depth : Nat} {rest : List (Located Char)}

/-! ### Gaps -/

theorem skipBlanks_joined (p q : Position) (rest : List (Located Char)) :
    skipBlanks (⟨p, '\\'⟩ :: ⟨q, '\n'⟩ :: rest) = skipBlanks rest := by
  rw [skipBlanks.eq_def]
  rfl

/-- A comment is skipped up to its line feed. -/
theorem skipBlanks_comment {text : List Char} (h : '\n' ∉ text) (p q r : Position)
    (rest : List (Located Char)) :
    skipBlanks (⟨p, '#'⟩ :: (locate q text ++ ⟨r, '\n'⟩ :: rest)) = .ok (⟨r, '\n'⟩ :: rest) := by
  have hall : ∀ d ∈ locate q text, decide (d.item ≠ '\n') = true := by
    intro d hd
    have hmem := Source.item_mem_of_mem_locate hd
    exact decide_eq_true fun heq => h (heq ▸ hmem)
  have hdrop : (locate q text ++ ⟨r, '\n'⟩ :: rest).dropWhile (fun d => d.item ≠ '\n') =
      ⟨r, '\n'⟩ :: rest := (span_append hall (by simp)).2
  rw [skipBlanks.eq_def]
  show Except.ok _ = _
  rw [hdrop]

theorem lexes_joined (depth : Nat) (p : Position) (rest : List (Located Char)) :
    Lexes depth (locate p ['\\', '\n']) [] depth rest := by
  intro stop done
  show tokensFrom stop depth done (⟨p, '\\'⟩ :: ⟨p.after '\\', '\n'⟩ :: rest) = _
  rw [tokensFrom_eq, skipBlanks_joined, ← tokensFrom_eq]
  rfl

theorem lexes_line (hd : 0 < depth) (p : Position) (rest : List (Located Char)) :
    Lexes depth [⟨p, '\n'⟩] [] depth rest := by
  intro stop done
  show tokensFrom stop depth done (⟨p, '\n'⟩ :: rest) = _
  rw [tokensFrom_lineFeed, suppressesNewline, decide_eq_true hd]
  rfl

theorem lexes_remark {text : List Char} (h : '\n' ∉ text) (depth : Nat) (p q : Position)
    (rest : List (Located Char)) :
    Lexes depth (locate p ('#' :: text)) [] depth (⟨q, '\n'⟩ :: rest) := by
  intro stop done
  rw [Source.locate_cons, List.cons_append, tokensFrom_eq, skipBlanks_comment h,
    ← skipBlanks_lineFeed, ← tokensFrom_eq]
  rfl

theorem lexes_filler {filler : List Char} (h : Filler depth filler) (p : Position)
    (rest : List (Located Char)) : Lexes depth (locate p filler) [] depth rest := by
  cases h with
  | @blank c hc =>
    have hblank : isBlank c = true := by simpa [isBlank, or_assoc] using hc
    exact .of_blank hblank depth rest
  | joined => exact lexes_joined depth p rest
  | line hd => exact lexes_line hd p rest
  | @comment text hd ht =>
    have hline : Lexes depth (locate (p.afterAll ('#' :: text)) ['\n']) [] depth rest :=
      lexes_line hd _ rest
    exact Lexes.locate_append (lexes_remark ht depth p _ rest) hline

theorem lexes_gap {gap : List Char} (h : Gap depth gap) (p : Position)
    (rest : List (Located Char)) : Lexes depth (locate p gap) [] depth rest := by
  induction h generalizing p with
  | nil => exact .nil depth rest
  | cons hf _ ih => exact Lexes.locate_append (lexes_filler hf p _) (ih _)

/-! ### Tokens -/

/-- What follows a token: nothing, or the start of what separates it from the next one. -/
abbrev Ends (rest : List (Located Char)) : Prop :=
  StartsIn [' ', '\t', '\r', '\x0c', '\\', '\n', '#'] rest

theorem ends_of_filler {filler : List Char} (h : Filler depth filler) (p : Position)
    (rest : List (Located Char)) : Ends (locate p filler ++ rest) := by
  cases h with
  | @blank c hc =>
    refine StartsIn.cons (c := c) ?_ p _
    exact List.mem_append_left ['\\', '\n', '#'] hc
  | joined => exact StartsIn.cons (c := '\\') (by decide) p _
  | line => exact StartsIn.cons (c := '\n') (by decide) p _
  | comment =>
    rw [Source.locate_cons]
    exact StartsIn.cons (by decide) p _

theorem lexeme_sign {l : Lexeme} {c : Char} (h : sign? l = some c) (hn : l ≠ .newline)
    (hr : Ends rest) (p : Position) : lexeme ⟨p, c⟩ rest = .ok (l, rest) := by
  cases l with
  | assign =>
    obtain rfl := Option.some.inj h
    have hnext : (rest.head?.any fun d => d.item = '=') = false := by
      have hne := hr.elim (P := fun c => c ≠ '=') (by decide)
      cases rest with
      | nil => rfl
      | cons d rest => simp [hne d rfl]
    show (if _ then _ else _) = _
    rw [hnext]
    rfl
  | name => cases h
  | string => cases h
  | integer => cases h
  | eof => cases h
  | newline => exact absurd rfl hn
  | _ =>
    obtain rfl := Option.some.inj h
    rfl

/-- However it is written, a token is read back, when nothing that continues it follows. -/
theorem lexes_token {l : Lexeme} {word : List Char} (h : Writes l word) (hl : IsWritable l)
    (hn : l ≠ .newline) (hd : l.depthAfter depth ≤ maxNesting) (hr : Ends rest) (p : Position) :
    Lexes depth (locate p word) [⟨p, l⟩] (l.depthAfter depth) rest := by
  cases h with
  | name =>
    refine lexes_name hl (fun d hd' => ?_) hd p
    exact hr.elim (P := fun c => isNameRest c = false ∧ isQuote c = false) (by decide) d hd'
  | @integer n =>
    refine lexes_integer (Int.ofNat_le.mp hl.2) (fun d hd' => ?_) hd p
    exact hr.elim
      (P := fun c => (c.isDigit || c = '_') = false ∧ Text.isAlphabetic c = false ∧ c ≠ '.')
      (by decide) d hd'
  | @string text quote hq =>
    refine lexes_escaped (isQuote_iff.mpr hq) text (fun d hd' => ?_) hd p
    rcases hq with rfl | rfl
    · exact hr.elim (P := fun c => c ≠ '\'') (by decide) d hd'
    · exact hr.elim (P := fun c => c ≠ '"') (by decide) d hd'
  | sign hs => exact Lexes.of_lexeme (lexeme_sign hs hn hr p) hd

theorem eq_of_writes_newline {word : List Char} (h : Writes .newline word) : word = ['\n'] := by
  cases h with
  | sign hs =>
    obtain rfl := Option.some.inj hs
    rfl

/-- One token in front of what separates it from the next one is read as itself. -/
theorem tokensFrom_of_writes {l : Lexeme} {word : List Char} (done : List Token)
    (h : Writes l word) (hl : IsWritable l)
    (hline : l = .newline → depth = 0 ∧ suppressesNewline depth done = false)
    (hd : l.depthAfter depth ≤ maxNesting) (hr : Ends rest) (stop p : Position) :
    tokensFrom stop depth done (locate p word ++ rest) =
      tokensFrom stop (l.depthAfter depth) (⟨p, l⟩ :: done) rest := by
  by_cases hn : l = .newline
  · subst hn
    obtain rfl := eq_of_writes_newline h
    show tokensFrom stop depth done (⟨p, '\n'⟩ :: rest) = _
    rw [tokensFrom_lineFeed, if_neg (by simp [(hline rfl).2])]
    rfl
  · exact lexes_token h hl hn hd hr p stop done

/-! ### Texts -/

theorem ends_of_gap {gap : List Char} (h : Gap depth gap) (hne : gap ≠ []) (p : Position)
    (rest : List (Located Char)) : Ends (locate p gap ++ rest) := by
  cases h with
  | nil => exact absurd rfl hne
  | cons hf _ =>
    rw [Source.locate_append, List.append_assoc]
    exact ends_of_filler hf p _

theorem ends_of_between {next : Lexeme} {gap : List Char} (h : Between depth next gap)
    (p : Position) (rest : List (Located Char)) : Ends (locate p gap ++ rest) := by
  cases h with
  | gap hg hne => exact ends_of_gap hg hne p rest
  | @remark gap text hg _ _ =>
    rw [Source.locate_append, List.append_assoc]
    cases gap with
    | nil =>
      rw [Source.locate_cons]
      exact StartsIn.cons (by decide) p _
    | cons c gap => exact ends_of_gap hg (List.cons_ne_nil c gap) p _

theorem exists_of_spells_newline {ls : List Lexeme} {cs : List Char}
    (h : Spells depth (.newline :: ls) cs) : ∃ more, cs = '\n' :: more := by
  cases h with
  | last hw => exact ⟨[], eq_of_writes_newline hw⟩
  | next hw =>
    obtain rfl := eq_of_writes_newline hw
    exact ⟨_, rfl⟩

theorem lexes_between {next : Lexeme} {ls : List Lexeme} {gap cs : List Char}
    (h : Between depth next gap) (hs : Spells depth (next :: ls) cs) (p : Position) :
    Lexes depth (locate p gap) [] depth (locate (p.afterAll gap) cs) := by
  cases h with
  | gap hg _ => exact lexes_gap hg p _
  | remark hg ht hnext =>
    subst hnext
    obtain ⟨more, rfl⟩ := exists_of_spells_newline hs
    rw [Source.locate_cons]
    exact Lexes.locate_append (lexes_gap hg p _) (lexes_remark ht depth _ _ _)

/-- The tokens are read behind any others, when a line end among them is not suppressed there. -/
theorem tokensFrom_of_spells {ls : List Lexeme} {cs : List Char} (h : Spells depth ls cs)
    (hw : ∀ l ∈ ls, IsWritable l) (hn : Nested depth ls)
    (hc : ls.IsChain fun a b => a = .newline → b ≠ .newline) (stop p : Position)
    (done : List Token)
    (hfirst : ∀ l ∈ ls.head?, l = .newline → suppressesNewline depth done = false) :
    ∃ tokens, tokensFrom stop depth done (locate p cs) = .ok (done.reverse ++ tokens) ∧
      tokens.map (·.item) = ls ++ [.eof] := by
  induction h generalizing p done with
  | @nil depth => exact ⟨[⟨stop, .eof⟩], tokensFrom_end stop depth done, rfl⟩
  | @last depth l word hword =>
    have hread := tokensFrom_of_writes done hword (hw l List.mem_cons_self)
      (fun hl => ⟨hn.1 hl, hfirst l rfl hl⟩) hn.2.1 (StartsIn.nil _) stop p
    rw [List.append_nil, tokensFrom_end, List.reverse_cons, List.append_assoc] at hread
    exact ⟨_, hread, rfl⟩
  | @next depth l l' ls word gap cs hword hgap hs ih =>
    obtain ⟨hdepth, hmax, hn⟩ := hn
    obtain ⟨hpair, hc⟩ := List.isChain_cons_cons.mp hc
    have hnext : ∀ l'' ∈ (l' :: ls).head?, l'' = .newline →
        suppressesNewline (l.depthAfter depth) (⟨p, l⟩ :: done) = false := by
      intro l'' hl'' heq
      obtain rfl : l' = l'' := by simpa using hl''
      have hl : l ≠ .newline := fun hl => hpair hl heq
      simp [suppressesNewline, hn.1 heq, hl]
    have hw' : ∀ l'' ∈ l' :: ls, IsWritable l'' :=
      fun l'' hl'' => hw l'' (List.mem_cons_of_mem l hl'')
    obtain ⟨tokens, hread, hitems⟩ :=
      ih hw' hn hc ((p.afterAll word).afterAll gap) (⟨p, l⟩ :: done) hnext
    refine ⟨⟨p, l⟩ :: tokens, ?_, by rw [List.map_cons, hitems]; rfl⟩
    rw [Source.locate_append, Source.locate_append,
      tokensFrom_of_writes done hword (hw l List.mem_cons_self)
        (fun hl => ⟨hdepth hl, hfirst l rfl hl⟩) hmax (ends_of_between hgap _ _),
      lexes_between hgap hs, List.reverse_nil, List.nil_append, hread]
    simp

/-- Any text in which the tokens are written is lexed to them, and to the end marker. -/
theorem tokenize_of_spells {ls : List Lexeme} {text : String} (hw : Writable ls)
    (h : Spells 0 ls text.toList) :
    ∃ tokens, tokenize text = .ok tokens ∧ tokens.map (·.item) = ls ++ [.eof] := by
  have hfirst : ∀ l ∈ ls.head?, l = .newline → suppressesNewline 0 [] = false := by
    intro l hl heq
    cases ls with
    | nil => cases hl
    | cons l' ls =>
      obtain rfl : l' = l := by simpa using hl
      exact absurd heq ((List.isChain_cons_cons.mp hw.lines).1 rfl)
  exact tokensFrom_of_spells h hw.tokens hw.nested hw.lines.tail _ _ [] hfirst

/-! ### Two lines -/

def twoLines : List Lexeme :=
  [.name "x", .assign, .openBracket, .string "a'b\n", .closeBracket, .newline, .integer 7]

theorem writable_twoLines : Writable twoLines where
  tokens := by
    intro l hl
    simp only [twoLines, List.mem_cons, List.not_mem_nil, or_false] at hl
    rcases hl with rfl | rfl | rfl | rfl | rfl | rfl | rfl
    case inl => exact ⟨'x', [], rfl, by decide, by decide⟩
    all_goals simp [IsWritable, Literal.maxInteger]
  nested := by simp [Nested, twoLines, Lexeme.depthAfter, maxNesting]
  lines := by simp [NoEmptyLine, twoLines]

theorem spells_twoLines :
    Spells 0 twoLines "x \\\n= [ # one\n 'a\\'b\\n'\t] # two\n 7".toList := by
  have hpieces : "x \\\n= [ # one\n 'a\\'b\\n'\t] # two\n 7".toList =
      "x".toList ++ (" \\\n".toList ++ (['='] ++ ([' '] ++ (['['] ++ (" # one\n ".toList ++
        ("'a\\'b\\n'".toList ++ (['\t'] ++ ([']'] ++ (" # two".toList ++
          (['\n'] ++ ([' '] ++ ['7']))))))))))) := by
    decide +kernel
  have hblank : ∀ {depth}, Gap depth [' '] := .cons (.blank (by decide)) .nil
  have htab : Gap 1 ['\t'] := .cons (.blank (by decide)) .nil
  have hjoined : Gap 0 " \\\n".toList := .cons (.blank (by decide)) (.cons .joined .nil)
  have hone : Gap 1 " # one\n ".toList :=
    have ho : '\n' ∉ " one".toList := by decide +kernel
    .cons (.blank (by decide)) (.cons (.comment Nat.one_pos ho) hblank)
  have htwo : Between 0 .newline " # two".toList :=
    have ht : '\n' ∉ " two".toList := by decide +kernel
    .remark hblank ht rfl
  have hliteral : Writes (.string "a'b\n") "'a\\'b\\n'".toList := Writes.string (.inl rfl)
  rw [hpieces]
  refine .next .name (.gap hjoined (by simp)) ?_
  refine .next (.sign rfl) (.gap hblank (by simp)) ?_
  refine .next (.sign rfl) (.gap hone (by simp)) ?_
  refine .next hliteral (.gap htab (by simp)) ?_
  refine .next (.sign rfl) htwo ?_
  refine .next (.sign rfl) (.gap hblank (by simp)) ?_
  exact .last .integer

theorem tokenize_twoLines :
    ∃ tokens, tokenize "x \\\n= [ # one\n 'a\\'b\\n'\t] # two\n 7" = .ok tokens ∧
      tokens.map (·.item) = twoLines ++ [.eof] :=
  tokenize_of_spells writable_twoLines spells_twoLines

end PinnedDeps.Spelling
