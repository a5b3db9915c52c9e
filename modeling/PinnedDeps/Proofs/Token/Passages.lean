import PinnedDeps.Proofs.Source
import PinnedDeps.Proofs.Token.Payload
import PinnedDeps.Proofs.Token.Turns

/-! A lexed text laid out. It falls into passages, one for each token, and nothing is left over. A
passage is what is skipped in front of the token, and the characters in which the token is written.
The place of a token is that of its first character, counted out in the text, and the end marker
stands where the text ends. -/

namespace PinnedDeps

namespace Spelling

open Lexer Literal

/-! ### Words -/

/-- The characters spell the token in front of `behind`. -/
inductive Spelled (behind : List Char) : Lexeme → List Char → Prop where
  | name {name : String} :
      IsName name → (∀ c ∈ behind.head?, isNameRest c = false) →
      Spelled behind (.name name) name.toList
  | integer {first : Char} {more : List Char} :
      first.isDigit = true → (∀ c ∈ more, c.isDigit = true ∨ c = '_') →
      (∀ c ∈ behind.head?, c.isDigit = false ∧ c ≠ '_') →
      Spelled behind (.integer (Nat.ofDigitChars 10 ((first :: more).filter Char.isDigit) 0))
        (first :: more)
  | ordinary {letters body text : List Char} {quote : Char} {triple : Bool} :
      letters ∈ [[], ['u'], ['U']] → Encloses quote triple body behind → Denotes body text →
      Spelled behind (.string (String.ofList text))
        (letters ++ (delimiter quote triple ++ (body ++ delimiter quote triple)))
  | raw {letters body : List Char} {quote : Char} {triple : Bool} :
      letters ∈ [['r'], ['R']] → Encloses quote triple body behind →
      Spelled behind (.string (String.ofList body))
        (letters ++ (delimiter quote triple ++ (body ++ delimiter quote triple)))
  | sign {l : Lexeme} {c : Char} : sign? l = some c → Spelled behind l [c]
  | eof : behind = [] → Spelled behind .eof []

variable {c : Located Char} {cs rest after : List (Located Char)} {l : Lexeme}

theorem spelled_of_stringLexeme {raw : Bool} {letters : List Char}
    (hl : letters ∈ if raw then [['r'], ['R']] else [[], ['u'], ['U']])
    (hq : isQuote c.item = true) (h : stringLexeme raw c rest = .ok (l, after)) :
    ∃ more, rest = more ++ after ∧
      Spelled (after.map (·.item)) l (letters ++ (c :: more).map (·.item)) := by
  unfold stringLexeme at h
  split at h <;> cases h
  next text hstring =>
  obtain ⟨triple, more, body, hcut, hword, hencloses, hraw, hordinary⟩ :=
    exists_of_string hq hstring
  refine ⟨more, hcut, ?_⟩
  rw [hword]
  cases raw with
  | true =>
    obtain rfl := hraw rfl
    exact .raw hl hencloses
  | false => exact .ordinary hl hencloses (hordinary rfl)

theorem singleton_of_map_toLower {word : List Char} {lower upper : Char}
    (hcase : upper.val = lower.val - ('a'.val - 'A'.val)) (h : word.map Char.toLower = [lower]) :
    word = [lower] ∨ word = [upper] := by
  obtain ⟨c, rfl, hc⟩ := List.map_eq_singleton_iff.mp h
  unfold Char.toLower at hc
  split at hc
  · have hval : c.val = upper.val := by
      rw [hcase, ← hc]
      exact (UInt32.add_sub_cancel _ _).symm
    exact .inr (congrArg ([·]) (Char.ext hval))
  · exact .inl (congrArg ([·]) hc)

/-- What is left behind a run starts with nothing that could be part of it. -/
theorem exists_of_mem_head?_dropWhile {test : Located Char → Bool} {d : Char}
    (h : d ∈ ((cs.dropWhile test).map (·.item)).head?) : ∃ x, x.item = d ∧ test x = false := by
  rw [List.head?_map] at h
  obtain ⟨x, hx, rfl⟩ := Option.map_eq_some_iff.mp h
  have htest := List.head?_dropWhile_not test cs
  rw [hx] at htest
  exact ⟨x, rfl, htest⟩

theorem spelled_of_integer {n : Nat} (hc : c.item.isDigit = true)
    (h : Literal.integer c rest = .ok (n, after)) :
    ∃ more, rest = more ++ after ∧
      Spelled (after.map (·.item)) (.integer n) ((c :: more).map (·.item)) := by
  unfold Literal.integer at h
  dsimp only at h
  split at h
  · cases h
  split at h <;> cases h
  refine ⟨rest.takeWhile isDigitOrUnderscore, List.takeWhile_append_dropWhile.symm, ?_⟩
  have hvalue := foldl_digits
    (((c :: rest.takeWhile isDigitOrUnderscore).map (·.item)).filter Char.isDigit) 0
  rw [Escape.ofDigits, hvalue]
  refine .integer hc (fun d hd => ?_) fun d hd => ?_
  · obtain ⟨x, hx, rfl⟩ := List.mem_map.mp hd
    have htest : isDigitOrUnderscore x = true := List.all_eq_true.mp List.all_takeWhile x hx
    simpa [isDigitOrUnderscore] using htest
  · obtain ⟨x, rfl, htest⟩ := exists_of_mem_head?_dropWhile hd
    simpa [isDigitOrUnderscore] using htest

theorem spelled_of_nameOrLiteral (hc : isNameStart c.item = true)
    (h : nameOrLiteral c rest = .ok (l, after)) :
    ∃ more, rest = more ++ after ∧ Spelled (after.map (·.item)) l ((c :: more).map (·.item)) := by
  let word := rest.takeWhile fun d => isNameRest d.item
  let behind := rest.dropWhile fun d => isNameRest d.item
  have hrest : rest = word ++ behind := List.takeWhile_append_dropWhile.symm
  have hname : Spelled (behind.map (·.item)) (.name (String.ofList ((c :: word).map (·.item))))
      ((c :: word).map (·.item)) := by
    have hbehind : ∀ d ∈ (behind.map (·.item)).head?, isNameRest d = false := by
      intro d hd
      obtain ⟨x, rfl, htest⟩ := exists_of_mem_head?_dropWhile hd
      exact htest
    have hspelled := Spelled.name (isName_of_isNameStart hc rest) hbehind
    rwa [String.toList_ofList] at hspelled
  unfold nameOrLiteral at h
  dsimp only at h
  split at h
  · next heq =>
    cases h
    exact ⟨word, by rw [hrest, show behind = [] from heq], heq ▸ hname⟩
  next quote more heq =>
  replace heq : behind = quote :: more := heq
  have hliteral (raw : Bool)
      (hl : (c :: word).map (·.item) ∈ if raw then [['r'], ['R']] else [[], ['u'], ['U']])
      (hq : isQuote quote.item = true) (h : stringLexeme raw quote more = .ok (l, after)) :
      ∃ more, rest = more ++ after ∧ Spelled (after.map (·.item)) l ((c :: more).map (·.item)) := by
    obtain ⟨inside, rfl, hspelled⟩ := spelled_of_stringLexeme hl hq h
    refine ⟨word ++ quote :: inside, by rw [hrest, heq]; simp, ?_⟩
    rwa [← List.cons_append, List.map_append]
  split at h
  · next hq =>
    split at h
    · next hr =>
      have hword := @singleton_of_map_toLower _ _ 'R' rfl hr
      exact hliteral true (List.mem_cons.mpr (hword.imp_right List.mem_singleton.mpr)) hq h
    split at h
    · next hu =>
      have hword := @singleton_of_map_toLower _ _ 'U' rfl hu
      exact hliteral false (List.mem_cons_of_mem [] (List.mem_cons.mpr
        (hword.imp_right List.mem_singleton.mpr))) hq h
    split at h <;> cases h
    exact ⟨word, hrest, hname⟩
  · cases h
    exact ⟨word, hrest, hname⟩

/-- What is read as a lexeme spells it. -/
theorem spelled_of_lexeme (h : lexeme c rest = .ok (l, after)) :
    ∃ more, rest = more ++ after ∧ Spelled (after.map (·.item)) l ((c :: more).map (·.item)) := by
  unfold lexeme at h
  split at h
  case h_11 heq =>
    split at h <;> cases h
    exact ⟨[], rfl, .sign (congrArg some heq.symm)⟩
  case h_12 heq | h_13 heq => exact spelled_of_stringLexeme List.mem_cons_self (by rw [heq]; rfl) h
  case h_14 =>
    split at h
    · next hdigit =>
      split at h <;> cases h
      next n hn => exact spelled_of_integer hdigit hn
    · split at h
      · next hstart => exact spelled_of_nameOrLiteral hstart h
      · cases h
  all_goals
    next heq =>
      cases h
      exact ⟨[], rfl, .sign (congrArg some heq.symm)⟩

theorem Spelled.ne_nil {behind word : List Char} (h : Spelled behind l word) (hl : l ≠ .eof) :
    word ≠ [] := by
  cases h with
  | name hname =>
    obtain ⟨first, more, heq, -⟩ := hname
    simp [heq]
  | integer => exact List.cons_ne_nil _ _
  | @ordinary _ _ _ quote triple | @raw _ _ quote triple => cases triple <;> simp [delimiter]
  | sign => exact List.cons_ne_nil _ _
  | eof => exact absurd rfl hl

theorem Spelled.of_eof {behind word : List Char} (h : Spelled behind .eof word) :
    word = [] ∧ behind = [] := by
  cases h with
  | sign hs => cases hs
  | eof hb => exact ⟨rfl, hb⟩

/-! ### What is skipped -/

/-- Behind these tokens a line end is left out. -/
def LeavesOut (before : List Token) : Prop :=
  0 < Grammar.depthBehind 0 before ∨ ∀ t ∈ before.getLast?, t.item = .newline

/-- The characters can be skipped in front of `behind`: blanks, joined lines, comments up to their
line ends, and line ends where these are left out. -/
inductive Skipped (lines : Prop) (behind : List Char) : List Char → Prop where
  | nil : Skipped lines behind []
  | blank {c : Char} {cs : List Char} :
      isBlank c = true → Skipped lines behind cs → Skipped lines behind (c :: cs)
  | joined {cs : List Char} : Skipped lines behind cs → Skipped lines behind ('\\' :: '\n' :: cs)
  | joinedReturn {cs : List Char} :
      Skipped lines behind cs → Skipped lines behind ('\\' :: '\r' :: '\n' :: cs)
  | comment {text cs : List Char} :
      '\n' ∉ text → (∀ c ∈ (cs ++ behind).head?, c = '\n') → Skipped lines behind cs →
      Skipped lines behind ('#' :: (text ++ cs))
  | line {cs : List Char} : lines → Skipped lines behind cs → Skipped lines behind ('\n' :: cs)

theorem leavesOut_iff (done : List Token) :
    LeavesOut done.reverse ↔
      suppressesNewline (Grammar.depthBehind 0 done.reverse) done = true := by
  unfold LeavesOut suppressesNewline
  rw [List.getLast?_reverse, Bool.or_eq_true, decide_eq_true_iff]
  cases done.head? <;> simp

variable {lines : Prop} {behind skipped gap : List Char}

theorem Skipped.append (h : Skipped lines (gap ++ behind) skipped) (h' : Skipped lines behind gap) :
    Skipped lines behind (skipped ++ gap) := by
  induction h with
  | nil => exact h'
  | blank hc _ ih => exact .blank hc ih
  | joined _ ih => exact .joined ih
  | joinedReturn _ ih => exact .joinedReturn ih
  | comment htext hend _ ih =>
    rw [List.cons_append, List.append_assoc]
    exact .comment htext (by rwa [List.append_assoc]) ih
  | line hl _ ih => exact .line hl ih

theorem exists_of_skipBlanks (lines : Prop) (h : skipBlanks cs = .ok after) :
    ∃ gap, cs = gap ++ after ∧ Skipped lines (after.map (·.item)) (gap.map (·.item)) := by
  fun_induction skipBlanks cs with
  | case1 =>
    cases h
    exact ⟨[], rfl, .nil⟩
  | case2 c rest hc ih =>
    obtain ⟨gap, rfl, hgap⟩ := ih h
    exact ⟨c :: gap, rfl, .blank hc hgap⟩
  | case3 c rest hc hhash =>
    cases h
    let text := rest.takeWhile fun d => decide (d.item ≠ '\n')
    refine ⟨c :: (text ++ []), by simp [text], ?_⟩
    have htext : '\n' ∉ text.map (·.item) := fun hmem => by
      obtain ⟨d, hd, hline⟩ := List.mem_map.mp hmem
      exact of_decide_eq_true (List.all_eq_true.mp List.all_takeWhile d hd) hline
    have hend : ∀ d ∈ ((rest.dropWhile fun d => decide (d.item ≠ '\n')).map (·.item)).head?,
        d = '\n' := by
      intro d hd
      obtain ⟨x, rfl, htest⟩ := exists_of_mem_head?_dropWhile hd
      simpa using htest
    rw [List.map_cons, List.map_append, hhash]
    exact .comment htext hend .nil
  | case4 c hc hhash hslash d rest hline ih =>
    obtain ⟨gap, rfl, hgap⟩ := ih h
    refine ⟨c :: d :: gap, rfl, ?_⟩
    rw [List.map_cons, List.map_cons, hslash, hline]
    exact .joined hgap
  | case5 c hc hhash hslash d hline e rest hreturn ih =>
    obtain ⟨gap, rfl, hgap⟩ := ih h
    refine ⟨c :: d :: e :: gap, rfl, ?_⟩
    rw [List.map_cons, List.map_cons, List.map_cons, hslash, hreturn.1, hreturn.2]
    exact .joinedReturn hgap
  | case6 | case7 | case8 => cases h
  | case9 c rest =>
    cases h
    exact ⟨[], rfl, .nil⟩

end Spelling

/-! ### Passages -/

open Spelling Lexer
open Source (locate placeAt)

/-- A token, the offset at which it stands, what is skipped in front of it, and the characters that
spell it. -/
structure Passage where
  offset : Nat
  skipped : List Char
  word : List Char
  token : Token

namespace Passage

def characters (p : Passage) : List Char := p.skipped ++ p.word

/-- The passage stands in the text, right behind the passages before it: the text up to its offset is
what these are made of and what is skipped, and the word follows. -/
structure Stands (cs : List Char) (before : List Passage) (p : Passage) : Prop where
  offset_le : p.offset ≤ cs.length
  take_eq : cs.take p.offset = before.flatMap characters ++ p.skipped
  drop_eq : cs.drop p.offset = p.word ++ cs.drop (p.offset + p.word.length)
  head_eq : cs[p.offset]? = p.word.head?
  skipped : Skipped (LeavesOut (before.map (·.token))) (cs.drop p.offset) p.skipped
  spelled : Spelled (cs.drop (p.offset + p.word.length)) p.token.item p.word
  pos_eq : p.token.pos = placeAt cs p.offset
  offset_of_eof : p.token.item = .eof → p.offset = cs.length

/-- The passage of the next token. -/
def next (before : List Passage) (skipped word : List Char) (l : Lexeme) : Passage where
  offset := (before.flatMap characters ++ skipped).length
  skipped := skipped
  word := word
  token := ⟨Position.start.afterAll (before.flatMap characters ++ skipped), l⟩

variable {cs skipped word behind : List Char} {before passages : List Passage} {p : Passage}
  {l : Lexeme}

theorem stands_next (hcut : cs = before.flatMap characters ++ skipped ++ (word ++ behind))
    (hskipped : Skipped (LeavesOut (before.map (·.token))) (word ++ behind) skipped)
    (hspelled : Spelled behind l word) : (next before skipped word l).Stands cs before := by
  unfold next
  generalize hfront : before.flatMap characters ++ skipped = front at hcut
  subst hcut
  have hdrop : (front ++ (word ++ behind)).drop (front.length + word.length) = behind := by
    rw [← List.append_assoc, ← List.length_append, List.drop_left]
  have hend (hl : l = .eof) : word ++ behind = [] := by
    subst hl
    obtain ⟨rfl, rfl⟩ := hspelled.of_eof
    rfl
  refine ⟨?_, hfront ▸ List.take_left, ?_, ?_, ?_, ?_, ?_, fun hl => ?_⟩
  · exact (List.prefix_append front (word ++ behind)).length_le
  · rw [hdrop, List.drop_left]
  · rw [List.getElem?_append_right (Nat.le_refl _), Nat.sub_self, ← List.head?_eq_getElem?]
    cases word with
    | cons => rfl
    | nil =>
      have hl : l = .eof := Classical.byContradiction fun hl => hspelled.ne_nil hl rfl
      rw [hend hl]
  · rwa [List.drop_left]
  · rwa [hdrop]
  · exact (Source.placeAt_append _ _).symm
  · rw [hend hl, List.append_nil]

theorem Stands.offset_eq (h : Stands cs before p) :
    p.offset = (before.flatMap characters).length + p.skipped.length := by
  rw [← List.length_append, ← h.take_eq, List.length_take_of_le h.offset_le]

/-- The passages stand one behind the other in the text. -/
structure InOrder (cs : List Char) (passages : List Passage) : Prop where
  increasing : (passages.map (·.offset)).Pairwise (· < ·)
  stands : ∀ before p after, passages = before ++ p :: after → p.Stands cs before

theorem InOrder.concat (h : InOrder cs passages) (hp : p.Stands cs passages)
    (hbelow : ∀ q ∈ passages, q.offset < (passages.flatMap characters).length) :
    InOrder cs (passages ++ [p]) where
  increasing := by
    rw [List.map_append, List.pairwise_append]
    refine ⟨h.increasing, List.pairwise_singleton _ _, fun k hk k' hk' => ?_⟩
    obtain ⟨q, hq, rfl⟩ := List.mem_map.mp hk
    obtain rfl : k' = p.offset := by simpa using hk'
    have hlt := hbelow q hq
    have heq := hp.offset_eq
    omega
  stands := by
    intro before q after heq
    rcases cut_of_concat heq.symm with ⟨rfl, rfl⟩ | ⟨more, hmore⟩
    · exact hp
    · exact h.stands before q more hmore

end Passage

namespace Lexing

open Passage (characters InOrder)

/-- What the lexer has gone through falls into the passages and what is skipped behind them. -/
structure Laid (cs : List Char) (passages : List Passage) (skipped : List Char) (s : Lexing) :
    Prop where
  tokens_eq : passages.map (·.token) = s.done.reverse
  text_eq : cs = passages.flatMap characters ++ skipped ++ s.rest.map (·.item)
  rest_eq : s.rest =
    locate (Position.start.afterAll (passages.flatMap characters ++ skipped)) (s.rest.map (·.item))
  skipped : Skipped (LeavesOut s.done.reverse) (s.rest.map (·.item)) skipped
  inOrder : InOrder cs passages
  below : ∀ p ∈ passages, p.offset < (passages.flatMap characters).length

variable {text : String} {cs skipped : List Char} {passages : List Passage} {depth : Nat}
  {done : List Token} {gap rest after : List (Located Char)} {c : Located Char} {l : Lexeme}
  {s s' : Lexing}

theorem laid_start (text : String) : Laid text.toList [] [] (start text) where
  tokens_eq := rfl
  text_eq := (Source.map_item_locate _ _).symm
  rest_eq := by
    rw [start, Source.map_item_locate]
    rfl
  skipped := .nil
  inOrder := ⟨.nil, by simp⟩
  below := nofun

theorem Laid.skip (h : Laid cs passages skipped ⟨depth, done, gap ++ rest⟩)
    (hgap : Skipped (LeavesOut done.reverse) (rest.map (·.item)) (gap.map (·.item))) :
    Laid cs passages (skipped ++ gap.map (·.item)) ⟨depth, done, rest⟩ where
  tokens_eq := h.tokens_eq
  text_eq := by simpa using h.text_eq
  rest_eq := by
    have hrest := (Source.eq_of_locate_eq_append h.rest_eq.symm).2
    rwa [← Source.afterAll_append, List.append_assoc] at hrest
  skipped := by
    have hskipped := h.skipped
    rw [List.map_append] at hskipped
    exact hskipped.append hgap
  inOrder := h.inOrder
  below := h.below

theorem Laid.push (h : Laid cs passages skipped ⟨depth, done, c :: rest ++ after⟩)
    (hl : Spelled (after.map (·.item)) l ((c :: rest).map (·.item))) (depth' : Nat) :
    ∃ p, Laid cs (passages ++ [p]) [] ⟨depth', ⟨c.pos, l⟩ :: done, after⟩ := by
  let p := Passage.next passages skipped ((c :: rest).map (·.item)) l
  have hpos : p.token = ⟨c.pos, l⟩ := by
    have hrest := h.rest_eq
    rw [List.cons_append, List.map_cons, Source.locate_cons] at hrest
    rw [(List.cons.inj hrest).1]
    rfl
  have htext : cs = passages.flatMap characters ++ skipped ++
      ((c :: rest).map (·.item) ++ after.map (·.item)) := by
    rw [← List.map_append]
    exact h.text_eq
  have hp : p.Stands cs passages := by
    have hskipped := h.skipped
    rw [← h.tokens_eq, List.map_append] at hskipped
    exact Passage.stands_next htext hskipped hl
  have hflat : (passages ++ [p]).flatMap characters =
      passages.flatMap characters ++ skipped ++ (c :: rest).map (·.item) := by
    rw [List.flatMap_append, List.flatMap_singleton, List.append_assoc]
    rfl
  refine ⟨p, ?_, ?_, ?_, .nil, h.inOrder.concat hp h.below, fun q hq => ?_⟩
  · rw [List.map_append, h.tokens_eq, List.map_singleton, hpos, List.reverse_cons]
  · rw [hflat, List.append_nil, List.append_assoc]
    exact htext
  · have hafter := (Source.eq_of_locate_eq_append h.rest_eq.symm).2
    rwa [← Source.afterAll_append, ← hflat, ← List.append_nil (List.flatMap _ _)] at hafter
  · rw [hflat, List.length_append, List.length_map]
    rcases List.mem_append.mp hq with hq | hq
    · have hlt := h.below q hq
      rw [List.length_append]
      omega
    · obtain rfl := List.mem_singleton.mp hq
      exact Nat.lt_add_of_pos_right (Nat.succ_pos _)

theorem Turn.laid (hturn : Turn s s') (hs : Spelling.Lexed s.depth s.done)
    (h : Laid cs passages skipped s) :
    ∃ passages skipped, Laid cs passages skipped s' := by
  have hdepth := hs.depth_eq
  cases hturn with
  | @leaveOut depth done _ rest p hskip hline =>
    obtain ⟨gap, rfl, hgap⟩ := exists_of_skipBlanks (LeavesOut done.reverse) hskip
    have hleft : LeavesOut done.reverse := (leavesOut_iff done).mpr (hdepth ▸ hline)
    have hnow : Laid cs _ _ ⟨depth, done, [⟨p, '\n'⟩] ++ rest⟩ := h.skip hgap
    exact ⟨_, _, hnow.skip (.line hleft .nil)⟩
  | @lineEnd depth done _ rest p hskip hline =>
    obtain ⟨gap, rfl, hgap⟩ := exists_of_skipBlanks _ hskip
    have hnow : Laid cs _ _ ⟨depth, done, ⟨p, '\n'⟩ :: [] ++ rest⟩ := h.skip hgap
    obtain ⟨p, hp⟩ := hnow.push (l := .newline) (.sign rfl) depth
    exact ⟨_, _, hp⟩
  | token hskip hl hd =>
    obtain ⟨gap, rfl, hgap⟩ := exists_of_skipBlanks _ hskip
    obtain ⟨more, rfl, hspelled⟩ := spelled_of_lexeme hl
    obtain ⟨p, hp⟩ := (h.skip hgap).push hspelled _
    exact ⟨_, _, hp⟩

theorem Comes.laid (h : Comes text s) :
    ∃ passages skipped, Laid text.toList passages skipped s := by
  induction h with
  | refl => exact ⟨[], [], laid_start text⟩
  | tail hcomes hturn ih =>
    obtain ⟨passages, skipped, hlaid⟩ := ih
    exact hturn.laid (Comes.lexed hcomes) hlaid

end Lexing

/-- A lexed text falls into passages, one for each token, at ever greater offsets: the characters
that spell the token, behind blanks, comments, joined lines and line ends that are left out. The
place of the token is the line and the column of its first character, and the end marker stands
behind the last one. -/
theorem tokenize_passages {text : String} {tokens : List Token} (h : tokenize text = .ok tokens) :
    ∃ passages : List Passage, passages.map (·.token) = tokens ∧
      passages.flatMap Passage.characters = text.toList ∧
      (passages.map (·.offset)).Pairwise (· < ·) ∧
      ∀ before p after, passages = before ++ p :: after → p.Stands text.toList before := by
  obtain ⟨⟨depth, done, rest⟩, hcomes, hskip, rfl⟩ := Lexing.tokenize_eq_ok_iff.mp h
  obtain ⟨passages, skipped, hlaid⟩ := hcomes.laid
  obtain ⟨gap, rfl, hgap⟩ := exists_of_skipBlanks (LeavesOut done.reverse) hskip
  -- what is left is the gap in front of the end marker
  have hend := hlaid.skip hgap
  have htext : text.toList =
      passages.flatMap Passage.characters ++ (skipped ++ gap.map (·.item)) := by
    simpa using hend.text_eq
  have hskipped := hend.skipped
  rw [← hlaid.tokens_eq] at hskipped
  have hlast := Passage.stands_next (htext.trans (List.append_nil _).symm) hskipped (.eof rfl)
  have horder := hend.inOrder.concat hlast hend.below
  refine ⟨_, ?_, ?_, horder.increasing, horder.stands⟩
  · rw [List.map_append, hlaid.tokens_eq, htext]
    rfl
  · rw [List.flatMap_append, List.flatMap_singleton, htext]
    simp [Passage.characters, Passage.next]

/-- With a comment and an empty line in front, letters before quotes, an escape, a line end inside
brackets and a joined line. -/
theorem tokenize_passages_lines :
    let text := "\n# z\nx = [u'\\x61',\n  r\"b\\n\" \\\n]\n7"
    let tokens : List Token :=
      [⟨⟨3, 1⟩, .name "x"⟩, ⟨⟨3, 3⟩, .assign⟩, ⟨⟨3, 5⟩, .openBracket⟩, ⟨⟨3, 6⟩, .string "a"⟩,
        ⟨⟨3, 13⟩, .comma⟩, ⟨⟨4, 3⟩, .string "b\\n"⟩, ⟨⟨5, 1⟩, .closeBracket⟩, ⟨⟨5, 2⟩, .newline⟩,
        ⟨⟨6, 1⟩, .integer 7⟩, ⟨⟨6, 2⟩, .eof⟩]
    tokenize text = .ok tokens ∧
      ∃ passages : List Passage, passages.map (·.token) = tokens ∧
        passages.flatMap Passage.characters = text.toList ∧
        (passages.map (·.offset)).Pairwise (· < ·) ∧
        ∀ before p after, passages = before ++ p :: after → p.Stands text.toList before := by
  intro text tokens
  have h : tokenize text = .ok tokens := by decide +kernel
  exact ⟨h, tokenize_passages h⟩

end PinnedDeps
