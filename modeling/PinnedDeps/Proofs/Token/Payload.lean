import PinnedDeps.Proofs.Token.Escapes
import PinnedDeps.Proofs.Token.Extent

/-! What stands between the quotes of an ordinary literal and what it says. Without a backslash a
character says itself; behind one, some characters together say one character, or two, or none.
Which these are is told here by the characters alone, with no word of how they are read, and
whatever the reader makes of a body is what the body says. -/

namespace PinnedDeps.Literal

open Lexer Spelling

/-- The characters are what a backslash takes with it in front of `behind`, and say the text. Of
octal digits it takes as many as there are, up to three; two characters that are no escape say
themselves. -/
inductive Says (behind : List Char) : List Char → List Char → Prop where
  | joined : Says behind ['\n'] []
  | letter {c letter : Char} : (c, letter) ∈ letterEscapes → Says behind [letter] [c]
  | octal {first : Char} {more : List Char} :
      (∀ c ∈ first :: more, Escape.isOctal c = true) → more.length ≤ 2 →
      (more.length < 2 → ∀ c ∈ behind.head?, Escape.isOctal c = false) →
      Says behind (first :: more)
        [Char.ofNat (Escape.ofDigits 8 ((first :: more).map fun c => c.toNat - '0'.toNat))]
  | hex {kind : Char} {width : Nat} {written : List Char} {values : List Nat} :
      (kind, width) ∈ hexEscapes → written.length = width →
      written.map Escape.hexDigit? = values.map some →
      (Escape.ofDigits 16 values).isValidChar →
      Says behind (kind :: written) [Char.ofNat (Escape.ofDigits 16 values)]
  | kept {c : Char} :
      c ≠ '\n' → c ∉ letterEscapes.map (·.2) → Escape.isOctal c = false →
      c ∉ hexEscapes.map (·.1) → c ≠ 'N' → Says behind [c] ['\\', c]

/-- What an ordinary literal with this body says. -/
inductive Denotes : List Char → List Char → Prop where
  | nil : Denotes [] []
  | char {c : Char} {body text : List Char} :
      c ≠ '\\' → Denotes body text → Denotes (c :: body) (c :: text)
  | escape {word said body text : List Char} :
      Says body word said → Denotes body text → Denotes ('\\' :: (word ++ body)) (said ++ text)

/-- Between two delimiters made of `quote` stands the body, and the second is the first in front of
`behind` that closes the literal. -/
structure Encloses (quote : Char) (triple : Bool) (body behind : List Char) : Prop where
  isQuote : quote = '\'' ∨ quote = '"'
  single : triple = false → ¬[quote, quote] <+: body ++ (delimiter quote triple ++ behind)
  closes : ClosesFirstAt (delimiter quote triple) (body ++ (delimiter quote triple ++ behind))
    body.length

variable {triple : Bool} {quote c : Char} {start : Position} {done text : List Char}
  {cs rest after : List (Located Char)} {escape : Escape}

/-! ### Escapes -/

/-- Less behind the characters changes nothing. -/
theorem Says.of_append {behind more word said : List Char} (h : Says (behind ++ more) word said) :
    Says behind word said := by
  cases h with
  | joined => exact .joined
  | letter hl => exact .letter hl
  | octal hoctal hlength hnext =>
    refine .octal hoctal hlength fun hlt d hd => hnext hlt d ?_
    rw [List.head?_append, Option.mem_def.mp hd]
    rfl
  | hex hk hlength hdigits hvalid => exact .hex hk hlength hdigits hvalid
  | kept hline hletter hoctal hhex hname => exact .kept hline hletter hoctal hhex hname

/-- A run that ends before it may ends at a character that is not of it. -/
theorem head?_drop_takeWhile_take {test : Char → Bool} {n : Nat} {cs : List Char}
    (h : ((cs.take n).takeWhile test).length < n) :
    ∀ c ∈ (cs.drop ((cs.take n).takeWhile test).length).head?, test c = false := by
  induction cs generalizing n with
  | nil => simp
  | cons d cs ih =>
    cases n with
    | zero => exact absurd h (Nat.not_lt_zero _)
    | succ n =>
      rw [List.take_succ_cons] at h ⊢
      by_cases hd : test d = true
      · rw [List.takeWhile_cons_of_pos hd] at h ⊢
        exact ih (Nat.lt_of_succ_lt_succ h)
      · rw [List.takeWhile_cons_of_neg hd]
        simpa using hd

theorem says_octal {first : Char} (hfirst : Escape.isOctal first = true)
    (rest : List (Located Char)) :
    Says ((rest.drop (Escape.octal first rest).taken).map (·.item))
      (first :: (rest.take (Escape.octal first rest).taken).map (·.item))
      (Escape.octal first rest).text := by
  let cs := rest.map (·.item)
  let more := (cs.take 2).takeWhile Escape.isOctal
  have hmore : ((rest.take 2).map (·.item)).takeWhile Escape.isOctal = more := by
    rw [List.map_take]
  have hescape : Escape.octal first rest = ⟨[Char.ofNat (Escape.ofDigits 8
      ((first :: more).map fun c => c.toNat - '0'.toNat))], more.length⟩ := by
    rw [Escape.octal, hmore]
  have hlength : more.length ≤ 2 :=
    Nat.le_trans (List.takeWhile_sublist _).length_le (List.length_take_le 2 cs)
  have hprefix : more <+: cs := (List.takeWhile_prefix _).trans (List.take_prefix 2 cs)
  have hoctal : ∀ c ∈ first :: more, Escape.isOctal c = true :=
    List.forall_mem_cons.mpr ⟨hfirst, fun c hc => List.all_eq_true.mp List.all_takeWhile c hc⟩
  rw [hescape, List.map_take, List.map_drop, ← List.prefix_iff_eq_take.mp hprefix]
  exact .octal hoctal hlength head?_drop_takeWhile_take

theorem map_some_reduceOption {α : Type} {xs : List (Option α)} (h : none ∉ xs) :
    xs.reduceOption.map some = xs := by
  induction xs with
  | nil => rfl
  | cons x xs ih =>
    rw [List.mem_cons, not_or] at h
    obtain ⟨a, rfl⟩ := Option.ne_none_iff_exists'.mp (Ne.symm h.1)
    exact congrArg (some a :: ·) (ih h.2)

theorem says_hex {kind : Char} {width : Nat} (hk : (kind, width) ∈ hexEscapes)
    (h : Escape.hex start kind width rest = .ok escape) :
    Says ((rest.drop escape.taken).map (·.item))
      (kind :: (rest.take escape.taken).map (·.item)) escape.text := by
  unfold Escape.hex at h
  dsimp only at h
  split at h
  · cases h
  next hdigits =>
  split at h <;> cases h
  next hvalid =>
  rw [not_or] at hdigits
  obtain ⟨hlength, hnone⟩ := hdigits
  rw [List.length_map] at hlength
  have htaken : ((rest.take width).map (·.item)).length = width := by
    rw [List.length_map]
    exact Nat.le_antisymm (List.length_take_le width rest) (Nat.not_lt.mp hlength)
  refine .hex hk htaken ?_ hvalid
  rw [map_some_reduceOption hnone, List.map_map]
  rfl

/-- An escape says what it is read as. -/
theorem says_of_read (h : Escape.read start c rest = .ok escape) :
    Says ((rest.drop escape.taken).map (·.item))
      (c :: (rest.take escape.taken).map (·.item)) escape.text := by
  unfold Escape.read at h
  split at h
  case h_1 =>
    cases h
    exact .joined
  case h_12 | h_13 | h_14 => exact says_hex (by decide) h
  case h_15 => cases h
  case h_16 =>
    split at h
    · next hoctal =>
      cases h
      exact says_octal hoctal rest
    · next hoctal =>
      cases h
      refine .kept ‹_› ?_ (Bool.eq_false_iff.mpr hoctal) ?_ ‹_›
      · simp only [letterEscapes, List.map_cons, List.map_nil, List.mem_cons, List.not_mem_nil]
        tauto
      · simp only [hexEscapes, List.map_cons, List.map_nil, List.mem_cons, List.not_mem_nil]
        tauto
  all_goals
    cases h
    exact .letter (by decide)

/-! ### Bodies -/

theorem exists_of_stringBody_ordinary (hquote : isQuote quote = true)
    (h : stringBody false triple quote start done cs = .ok (text, after)) :
    ∃ body closing said, cs = body ++ (closing ++ after) ∧
      closing.map (·.item) = delimiter quote triple ∧ text = done.reverse ++ said ∧
        Denotes (body.map (·.item)) said := by
  generalize hraw : false = raw at h
  fun_induction stringBody raw triple quote start done cs with
  | case1 => cases h
  | case2 done c rest hq ht =>
    cases h
    exact ⟨[], [c], [], rfl, map_item_quote hq ht, (List.append_nil _).symm, .nil⟩
  | case3 done c rest hq ht hm =>
    cases h
    exact ⟨[], c :: rest.take 2, [], by simp, map_item_quotes hq ht hm, (List.append_nil _).symm,
      .nil⟩
  | case4 done c rest hq ht hm ih =>
    obtain ⟨body, closing, said, rfl, hclosing, rfl, hsaid⟩ := ih h
    have hslash : c.item ≠ '\\' := fun heq => ne_of_isQuote hquote rfl (heq.symm.trans hq)
    exact ⟨c :: body, closing, c.item :: said, rfl, hclosing, by simp, .char hslash hsaid⟩
  | case5 => cases h
  | case6 => cases h
  | case7 => cases hraw.trans ‹_›
  | case8 => cases h
  | case9 done c hq hn hs e rest hr escape hread ih =>
    obtain ⟨body, closing, said, hcut, hclosing, rfl, hsaid⟩ := ih h
    have hsays := says_of_read hread
    rw [hcut, List.map_append] at hsays
    refine ⟨c :: e :: (rest.take escape.taken ++ body), closing, escape.text ++ said, ?_, hclosing,
      by simp, ?_⟩
    · rw [List.cons_append, List.cons_append, List.append_assoc, ← hcut, List.take_append_drop]
    · rw [List.map_cons, List.map_cons, List.map_append, hs]
      exact .escape hsays.of_append hsaid
  | case10 done c rest hq hn hs ih =>
    obtain ⟨body, closing, said, rfl, hclosing, rfl, hsaid⟩ := ih h
    exact ⟨c :: body, closing, c.item :: said, rfl, hclosing, by simp, .char hs hsaid⟩

/-! ### Whole literals -/

/-- A literal ends behind its body, which is the text of a raw one and says the text of an ordinary
one. -/
theorem exists_of_string {raw : Bool} {quote : Located Char} (hq : isQuote quote.item = true)
    (h : string raw quote rest = .ok (text, after)) :
    ∃ triple more body, rest = more ++ after ∧
      (quote :: more).map (·.item) =
        delimiter quote.item triple ++ (body ++ delimiter quote.item triple) ∧
      Encloses quote.item triple body (after.map (·.item)) ∧
      (raw = true → text = body) ∧ (raw = false → Denotes body text) := by
  obtain ⟨opened, inside, hcut, hopening, hstring⟩ := exists_opening quote rest
  generalize htriple : twoMore quote.item rest = triple at hopening hstring
  rw [hstring] at h
  -- a raw literal can be read there, and it tells where the literal ends
  obtain ⟨body, closing, rfl, hclosing, hfirst, hraw, hordinary⟩ : ∃ body closing,
      inside = body ++ (closing ++ after) ∧ closing.map (·.item) = delimiter quote.item triple ∧
        ClosesFirstAt (delimiter quote.item triple) (inside.map (·.item)) body.length ∧
        (raw = true → text = body.map (·.item)) ∧
        (raw = false → Denotes (body.map (·.item)) text) := by
    cases raw with
    | true =>
      obtain ⟨body, closing, hinside, hclosing, htext, hfirst⟩ := exists_of_stringBody_raw hq h
      exact ⟨body, closing, hinside, hclosing, hfirst, fun _ => htext, nofun⟩
    | false =>
      obtain ⟨kept, hkept, -⟩ := exists_raw_of_ordinary hq h []
      obtain ⟨body, closing, hinside, hclosing, -, hfirst⟩ := exists_of_stringBody_raw hq hkept
      obtain ⟨body', closing', said, hinside', hclosing', rfl, hsaid⟩ :=
        exists_of_stringBody_ordinary hq h
      have hlength : (closing ++ after).length = (closing' ++ after).length := by
        have heq := congrArg List.length (hclosing.trans hclosing'.symm)
        simpa using heq
      obtain ⟨rfl, -⟩ := List.append_inj' (hinside.symm.trans hinside') hlength
      exact ⟨body, closing, hinside, hclosing, hfirst, nofun, fun _ => hsaid⟩
  refine ⟨triple, opened ++ (body ++ closing), body.map (·.item), by simp [hcut], ?_, ?_, hraw,
    hordinary⟩
  · rw [← List.cons_append, List.map_append, List.map_append, hopening, hclosing]
  rw [List.map_append, List.map_append, hclosing] at hfirst
  refine ⟨isQuote_iff.mp hq, fun hsingle hquotes => ?_, by rwa [List.length_map]⟩
  subst hsingle
  obtain rfl : opened = [] := by simpa [delimiter] using hopening
  rw [List.nil_append] at hcut
  have htwo : twoMore quote.item rest = true := by
    rw [twoMore_iff_begins, hcut, List.map_append, List.map_append, hclosing]
    exact hquotes
  exact absurd (htwo.symm.trans htriple) (by simp)

end PinnedDeps.Literal
