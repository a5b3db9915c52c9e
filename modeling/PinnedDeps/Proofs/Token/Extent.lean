import PinnedDeps.Proofs.Token.Lexer
import Mathlib.Control.Monad.Basic

/-! Where a string literal ends. A raw literal is closed by the first delimiter of which the first
quote is not the second half of a backslash pair, and its text is all that stands in between. An
ordinary literal takes more characters than the pair for some escapes, but these are digits, which
neither close a literal nor pair up with anything. So wherever an ordinary literal can be read, a
raw one can be read too, and both end at the same place. -/

namespace PinnedDeps.Literal

open Lexer

/-! ### Delimiters in a text -/

/-- The character at `i` is the second half of a backslash pair: the backslashes directly before it
are odd in number. -/
def Escaped (cs : List Char) (i : Nat) : Prop :=
  ((cs.take i).reverse.takeWhile (· = '\\')).length % 2 = 1

/-- The delimiter stands at `i`, and its first quote is not the second half of a pair. -/
def ClosesAt (delimiter cs : List Char) (i : Nat) : Prop :=
  delimiter <+: cs.drop i ∧ ¬Escaped cs i

def ClosesFirstAt (delimiter cs : List Char) (i : Nat) : Prop :=
  ClosesAt delimiter cs i ∧ ∀ j < i, ¬ClosesAt delimiter cs j

section Delimiters

variable {c d : Char} {cs delim : List Char} {i : Nat}

theorem not_escaped_zero (cs : List Char) : ¬Escaped cs 0 := by simp [Escaped]

theorem escaped_one (cs : List Char) : Escaped ('\\' :: cs) 1 := by simp [Escaped]

theorem escaped_cons_succ (h : c ≠ '\\') : Escaped (c :: cs) (i + 1) ↔ Escaped cs i := by
  unfold Escaped
  rw [List.take_succ_cons, List.reverse_cons, List.takeWhile_append]
  split
  · next hall => simp [h, hall]
  · rfl

/-- A pair in front changes nothing behind it, also if the second half is a backslash. -/
theorem escaped_pair_add_two : Escaped ('\\' :: c :: cs) (i + 2) ↔ Escaped cs i := by
  unfold Escaped
  rw [List.take_succ_cons, List.take_succ_cons, List.reverse_cons, List.reverse_cons,
    List.append_assoc, List.takeWhile_append]
  split
  · next hall => by_cases h : c = '\\' <;> simp [h, hall]
  · rfl

theorem closesFirstAt_zero (h : delim <+: cs) : ClosesFirstAt delim cs 0 :=
  ⟨⟨h, not_escaped_zero cs⟩, nofun⟩

theorem closesAt_cons_succ (h : c ≠ '\\') :
    ClosesAt delim (c :: cs) (i + 1) ↔ ClosesAt delim cs i := by
  unfold ClosesAt
  rw [List.drop_succ_cons, escaped_cons_succ h]

theorem closesAt_pair_add_two :
    ClosesAt delim ('\\' :: c :: cs) (i + 2) ↔ ClosesAt delim cs i := by
  unfold ClosesAt
  rw [List.drop_succ_cons, List.drop_succ_cons, escaped_pair_add_two]

theorem ClosesFirstAt.cons (h : ClosesFirstAt delim cs i) (hc : c ≠ '\\')
    (hn : ¬delim <+: c :: cs) : ClosesFirstAt delim (c :: cs) (i + 1) := by
  refine ⟨(closesAt_cons_succ hc).mpr h.1, fun j hj hclose => ?_⟩
  cases j with
  | zero => exact hn hclose.1
  | succ j => exact h.2 j (by omega) ((closesAt_cons_succ hc).mp hclose)

theorem ClosesFirstAt.pair (h : ClosesFirstAt delim cs i) (hn : ¬delim <+: '\\' :: c :: cs) :
    ClosesFirstAt delim ('\\' :: c :: cs) (i + 2) := by
  refine ⟨closesAt_pair_add_two.mpr h.1, fun j hj hclose => ?_⟩
  match j with
  | 0 => exact hn hclose.1
  | 1 => exact hclose.2 (escaped_one (c :: cs))
  | j + 2 => exact h.2 j (by omega) (closesAt_pair_add_two.mp hclose)

end Delimiters

/-! ### Raw literals -/

variable {raw triple : Bool} {quote : Char} {start : Position} {done text : List Char}
  {cs rest after : List (Located Char)}

theorem twoMore_iff_begins : twoMore quote cs = true ↔ [quote, quote] <+: cs.map (·.item) := by
  rw [twoMore_iff, List.prefix_iff_eq_take, List.map_take]
  exact eq_comm

theorem not_delimiter_begins {c : Char} {cs : List Char} (h : c ≠ quote) :
    ¬delimiter quote triple <+: c :: cs := by
  cases triple <;> simp [delimiter, Ne.symm h]

theorem map_item_quote {c : Located Char} (hq : c.item = quote) (ht : (!triple) = true) :
    [c].map (·.item) = delimiter quote triple := by
  simp_all [delimiter]

theorem map_item_quotes {c : Located Char} (hq : c.item = quote) (ht : ¬(!triple) = true)
    (hm : twoMore quote rest = true) :
    (c :: rest.take 2).map (·.item) = delimiter quote triple := by
  rw [List.map_cons, twoMore_iff.mp hm]
  simp_all [delimiter]

/-- By the recursion of the reader: the characters up to the first closing delimiter are kept as
they are. -/
theorem exists_of_stringBody_raw (hquote : isQuote quote = true)
    (h : stringBody true triple quote start done cs = .ok (text, after)) :
    ∃ body closing, cs = body ++ (closing ++ after) ∧
      closing.map (·.item) = delimiter quote triple ∧ text = done.reverse ++ body.map (·.item) ∧
        ClosesFirstAt (delimiter quote triple) (cs.map (·.item)) body.length := by
  have hslash : '\\' ≠ quote := ne_of_isQuote hquote rfl
  generalize hraw : true = raw at h
  fun_induction stringBody raw triple quote start done cs with
  | case1 => cases h
  | case2 done c rest hq ht =>
    cases h
    have hclosing := map_item_quote hq ht
    refine ⟨[], [c], rfl, hclosing, by simp, closesFirstAt_zero ?_⟩
    rw [← hclosing]
    exact List.prefix_append _ _
  | case3 done c rest hq ht hm =>
    cases h
    have hclosing := map_item_quotes hq ht hm
    refine ⟨[], c :: rest.take 2, by simp, hclosing, by simp, closesFirstAt_zero ?_⟩
    rw [← hclosing]
    exact (List.cons_prefix_cons.mpr ⟨rfl, List.take_prefix 2 rest⟩).map _
  | case4 done c rest hq ht hm ih =>
    have hne : c.item ≠ '\\' := fun heq => hslash (heq.symm.trans hq)
    have hprefix : ¬delimiter quote triple <+: c.item :: rest.map (·.item) := by
      obtain rfl : triple = true := by simpa using ht
      exact fun hbad => hm (twoMore_iff_begins.mpr (List.cons_prefix_cons.mp hbad).2)
    obtain ⟨body, closing, rfl, hclosing, rfl, hfirst⟩ := ih h
    exact ⟨c :: body, closing, rfl, hclosing, by simp, hfirst.cons hne hprefix⟩
  | case5 => cases h
  | case6 => cases h
  | case7 done c hq hn hs e rest hr ih =>
    obtain ⟨body, closing, rfl, hclosing, rfl, hfirst⟩ := ih h
    refine ⟨c :: e :: body, closing, rfl, hclosing, by simp [hs], ?_⟩
    rw [List.map_cons, List.map_cons, hs]
    exact hfirst.pair (not_delimiter_begins hslash)
  | case8 done c hq hn hs e rest hr => exact absurd hraw.symm hr
  | case9 done c hq hn hs e rest hr => exact absurd hraw.symm hr
  | case10 done c rest hq hn hs ih =>
    obtain ⟨body, closing, rfl, hclosing, rfl, hfirst⟩ := ih h
    exact ⟨c :: body, closing, rfl, hclosing, by simp, hfirst.cons hs (not_delimiter_begins hq)⟩

/-! ### Ordinary literals -/

theorem isSome_hexDigit_of_isOctal {c : Char} (h : Escape.isOctal c = true) :
    (Escape.hexDigit? c).isSome = true := by
  obtain ⟨hlow, hhigh⟩ := Bool.and_eq_true_iff.mp h
  have hle : c ≤ '9' := UInt32.le_trans (of_decide_eq_true hhigh) (by decide)
  rw [Escape.hexDigit?, if_pos ⟨of_decide_eq_true hlow, hle⟩]
  rfl

theorem isSome_hexDigit_of_octal (first : Char) :
    ∀ d ∈ rest.take (Escape.octal first rest).taken, (Escape.hexDigit? d.item).isSome = true := by
  let digits := (rest.take 2).takeWhile (Escape.isOctal ∘ (·.item))
  have htaken : (Escape.octal first rest).taken = digits.length := by
    simp only [Escape.octal, List.takeWhile_map, List.length_map]
    rfl
  have hprefix : digits <+: rest := (List.takeWhile_prefix _).trans (List.take_prefix 2 rest)
  rw [htaken, ← List.prefix_iff_eq_take.mp hprefix]
  intro d hd
  exact isSome_hexDigit_of_isOctal (List.all_eq_true.mp List.all_takeWhile d hd)

theorem isSome_hexDigit_of_hex {kind : Char} {width : Nat} {escape : Escape}
    (h : Escape.hex start kind width rest = .ok escape) :
    ∀ d ∈ rest.take escape.taken, (Escape.hexDigit? d.item).isSome = true := by
  unfold Escape.hex at h
  dsimp only at h
  split at h
  · cases h
  next hdigits =>
  split at h <;> cases h
  intro d hd
  rw [Option.isSome_iff_ne_none]
  intro hnone
  exact hdigits (.inr (List.mem_map.mpr ⟨d, hd, hnone⟩))

/-- What an escape takes behind the character that names it are digits. -/
theorem isSome_hexDigit_of_read {c : Char} {escape : Escape}
    (h : Escape.read start c rest = .ok escape) :
    ∀ d ∈ rest.take escape.taken, (Escape.hexDigit? d.item).isSome = true := by
  unfold Escape.read at h
  split at h
  case h_12 | h_13 | h_14 => exact isSome_hexDigit_of_hex h
  case h_15 => cases h
  case h_16 =>
    split at h <;> cases h
    · exact isSome_hexDigit_of_octal c
    · simp
  all_goals
    cases h
    simp

theorem ne_of_hexDigit {c d : Char} (h : (Escape.hexDigit? c).isSome = true)
    (hd : Escape.hexDigit? d = none) : c ≠ d := by
  rintro rfl
  rw [hd] at h
  cases h

/-- Digits neither close a literal nor pair up with anything. -/
theorem stringBody_digits (hquote : isQuote quote = true) {n : Nat}
    (h : ∀ d ∈ rest.take n, (Escape.hexDigit? d.item).isSome = true) :
    stringBody raw triple quote start done rest =
      stringBody raw triple quote start (((rest.take n).map (·.item)).reverse ++ done)
        (rest.drop n) := by
  have hnone : Escape.hexDigit? quote = none := by
    rcases isQuote_iff.mp hquote with rfl | rfl <;> rfl
  induction n generalizing rest done with
  | zero => rfl
  | succ n ih =>
    cases rest with
    | nil => rfl
    | cons c rest =>
      rw [List.take_succ_cons, List.forall_mem_cons] at h
      rw [stringBody_plain (ne_of_hexDigit h.1 hnone) (ne_of_hexDigit h.1 rfl)
        (ne_of_hexDigit h.1 rfl), ih h.2]
      simp

/-- By the recursion of the reader of ordinary literals: where it comes to an end the raw one does
so too, and without a backslash they keep the same. -/
theorem exists_raw_of_ordinary (hquote : isQuote quote = true)
    (h : stringBody false triple quote start done cs = .ok (text, after)) (kept : List Char) :
    ∃ body, stringBody true triple quote start kept cs = .ok (kept.reverse ++ body, after) ∧
      ('\\' ∉ body → text = done.reverse ++ body) := by
  generalize hraw : false = raw at h
  fun_induction stringBody raw triple quote start done cs generalizing kept with
  | case1 => cases h
  | case2 done c rest hq ht =>
    cases h
    refine ⟨[], ?_, by simp⟩
    rw [← List.singleton_append, stringBody_delimiter (map_item_quote hq ht), List.append_nil]
  | case3 done c rest hq ht hm =>
    cases h
    refine ⟨[], ?_, by simp⟩
    rw [← List.take_append_drop 2 rest, ← List.cons_append,
      stringBody_delimiter (map_item_quotes hq ht hm)]
    simp
  | case4 done c rest hq ht hm ih =>
    obtain ⟨body, hbody, hsame⟩ := ih (c.item :: kept) h
    obtain ⟨p, c⟩ := c
    obtain rfl : c = quote := hq
    obtain rfl : triple = true := by simpa using ht
    refine ⟨c :: body, ?_, fun hslash => ?_⟩
    · rw [stringBody_quote (by simpa using hm), hbody]
      simp
    · simp [hsame (List.not_mem_of_not_mem_cons hslash)]
  | case5 => cases h
  | case6 => cases h
  | case7 => cases hraw.trans ‹_›
  | case8 => cases h
  | case9 done c hq hn hs e rest hr escape hread ih =>
    obtain ⟨p, c⟩ := c
    obtain rfl : c = '\\' := hs
    let digits := (rest.take escape.taken).map (·.item)
    obtain ⟨body, hbody, -⟩ := ih (digits.reverse ++ e.item :: '\\' :: kept) h
    refine ⟨'\\' :: e.item :: (digits ++ body), ?_, fun hslash => ?_⟩
    · rw [stringBody_pair hquote, stringBody_digits hquote (isSome_hexDigit_of_read hread), hbody]
      simp
    · exact absurd List.mem_cons_self hslash
  | case10 done c rest hq hn hs ih =>
    obtain ⟨body, hbody, hsame⟩ := ih (c.item :: kept) h
    obtain ⟨p, c⟩ := c
    have hline : triple = false → c ≠ '\n' := by
      rintro rfl rfl
      exact hn rfl
    refine ⟨c :: body, ?_, fun hslash => ?_⟩
    · rw [stringBody_char hq hs hline, hbody]
      simp
    · simp [hsame (List.not_mem_of_not_mem_cons hslash)]

/-! ### Whole literals -/

/-- The rest of the opening delimiter, and the body behind it. -/
theorem exists_opening (quote : Located Char) (rest : List (Located Char)) :
    ∃ opened body, rest = opened ++ body ∧
      (quote :: opened).map (·.item) = delimiter quote.item (twoMore quote.item rest) ∧
        ∀ raw, string raw quote rest =
          stringBody raw (twoMore quote.item rest) quote.item quote.pos [] body := by
  unfold string
  cases htwo : twoMore quote.item rest with
  | true =>
    refine ⟨rest.take 2, rest.drop 2, (List.take_append_drop 2 rest).symm, ?_, fun raw => rfl⟩
    exact map_item_quotes rfl (by simp) htwo
  | false => exact ⟨[], rest, rfl, rfl, fun raw => rfl⟩

/-- A raw literal, three quotes opening one if three stand there, is closed by the first delimiter
of which the first quote is not the second half of a backslash pair, and its text is what stands in
between. An ordinary literal there ends at the same place if it can be read at all, and has the same
text if there is no backslash in it. -/
theorem string_raw_extent {quote : Char} (hquote : isQuote quote = true) (p : Position)
    (cs : List Char) {text : List Char} {after : List (Located Char)}
    (h : string true ⟨p, quote⟩ (Source.locate (p.after quote) cs) = .ok (text, after)) :
    let delimiter := delimiter quote ([quote, quote].isPrefixOf cs)
    ∃ rest : List Char,
      quote :: cs = delimiter ++ (text ++ (delimiter ++ rest)) ∧
        ClosesFirstAt delimiter (text ++ (delimiter ++ rest)) text.length ∧
        after = Source.locate (p.afterAll (delimiter ++ (text ++ delimiter))) rest ∧
        ∀ text' after',
          string false ⟨p, quote⟩ (Source.locate (p.after quote) cs) = .ok (text', after') →
            after' = after ∧ ('\\' ∉ text → text' = text) := by
  intro delimiter
  obtain ⟨opened, behind, hcut, hopening, hstring⟩ :=
    exists_opening ⟨p, quote⟩ (Source.locate (p.after quote) cs)
  have htriple : twoMore quote (Source.locate (p.after quote) cs) =
      [quote, quote].isPrefixOf cs := by
    rw [Bool.eq_iff_iff, twoMore_iff_begins, Source.map_item_locate, List.isPrefixOf_iff_prefix]
  simp only [htriple] at hopening hstring
  rw [hstring] at h
  obtain ⟨body, closing, rfl, hclosing, htext, hfirst⟩ := exists_of_stringBody_raw hquote h
  obtain rfl : text = body.map (·.item) := htext
  have hwhole : Source.locate p (quote :: cs) =
      ⟨p, quote⟩ :: opened ++ (body ++ closing) ++ after := by
    rw [Source.locate_cons, hcut]
    simp
  have hconsumed : (⟨p, quote⟩ :: opened ++ (body ++ closing)).map (·.item) =
      delimiter ++ (body.map (·.item) ++ delimiter) := by
    rw [List.map_append, List.map_append, hopening, hclosing]
  obtain ⟨hcs, hafter⟩ := Source.eq_of_locate_eq_append hwhole
  rw [hconsumed] at hcs hafter
  refine ⟨after.map (·.item), by simpa using hcs, ?_, hafter, fun text' after' h' => ?_⟩
  · rw [List.map_append, List.map_append, hclosing] at hfirst
    rwa [List.length_map]
  · -- the raw reader comes to one end only
    rw [hstring] at h'
    obtain ⟨text, hraw, hsame⟩ := exists_raw_of_ordinary hquote h' []
    rw [h] at hraw
    obtain ⟨rfl, rfl⟩ := Prod.mk.inj (Except.ok.inj hraw)
    exact ⟨rfl, hsame⟩

/-- Between three quotes, with quotes that do not close the literal and an escape that is longer
than a pair. -/
theorem string_raw_extent_quotes :
    let cs := "''a\\'''\\x27''' + 1".toList
    let text := "a\\'''\\x27".toList
    let after := Source.locate ⟨1, 17⟩ " + 1".toList
    let delimiter := ['\'', '\'', '\'']
    string true ⟨⟨1, 2⟩, '\''⟩ (Source.locate ⟨1, 3⟩ cs) = .ok (text, after) ∧
      string false ⟨⟨1, 2⟩, '\''⟩ (Source.locate ⟨1, 3⟩ cs) = .ok ("a''''".toList, after) ∧
      ∃ rest : List Char,
        '\'' :: cs = delimiter ++ (text ++ (delimiter ++ rest)) ∧
          ClosesFirstAt delimiter (text ++ (delimiter ++ rest)) text.length ∧
          after = Source.locate (Position.afterAll ⟨1, 2⟩ (delimiter ++ (text ++ delimiter))) rest ∧
          ∀ text' after',
            string false ⟨⟨1, 2⟩, '\''⟩ (Source.locate ⟨1, 3⟩ cs) = .ok (text', after') →
              after' = after ∧ ('\\' ∉ text → text' = text) := by
  intro cs text after delimiter
  have hraw : string true ⟨⟨1, 2⟩, '\''⟩ (Source.locate ⟨1, 3⟩ cs) = .ok (text, after) := by
    decide +kernel
  have hordinary : string false ⟨⟨1, 2⟩, '\''⟩ (Source.locate ⟨1, 3⟩ cs) =
      .ok ("a''''".toList, after) := by
    decide +kernel
  have hdelimiter : Lexer.delimiter '\'' (['\'', '\''].isPrefixOf cs) = delimiter := by
    decide +kernel
  have hextent := string_raw_extent rfl ⟨1, 2⟩ cs hraw
  rw [hdelimiter] at hextent
  exact ⟨hraw, hordinary, hextent⟩

end PinnedDeps.Literal
