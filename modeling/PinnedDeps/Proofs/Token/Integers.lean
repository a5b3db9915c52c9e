import PinnedDeps.Proofs.Token.Passages

/-! Integer literals as numbers. A run of digits and underscores that starts with a digit writes one
number in decimal, however long the run is and however many zeros it starts with. Where the lexer
comes to such a run it reads exactly that number, or it refuses the text at the first digit: when a
letter or a point follows, and when the number takes more than 63 bits. -/

namespace PinnedDeps

namespace Literal

variable {digits run more behind : List Char} {first : Char} {n : Nat}

/-! ### Numbers in decimal -/

/-- Without its underscores the run is some zeros and then the digits of the number. -/
def WritesInDecimal (run : List Char) (n : Nat) : Prop :=
  ∃ zeros, run.filter (· ≠ '_') = List.replicate zeros '0' ++ Nat.toDigits 10 n

theorem WritesInDecimal.eq (h : WritesInDecimal run n) :
    n = Nat.ofDigitChars 10 (run.filter (· ≠ '_')) 0 := by
  obtain ⟨zeros, h⟩ := h
  rw [h, Nat.ofDigitChars_append, Nat.ofDigitChars_replicate_zero, Nat.mul_zero,
    Nat.ofDigitChars_ten_toDigits]

theorem exists_toDigits_of_isDigit {c : Char} (h : c.isDigit = true) :
    ∃ d < 10, Nat.toDigits 10 d = [c] := by
  have hc : 48 ≤ c.toNat ∧ c.toNat ≤ 57 := Char.isDigit_iff_toNat.mp h
  have hd : c.toNat - 48 < 10 := by omega
  refine ⟨c.toNat - 48, hd, ?_⟩
  rw [Nat.toDigits_of_lt_base hd, List.singleton_inj, ← Char.toNat_inj,
    Nat.toNat_digitChar_of_lt_ten hd]
  omega

/-- By the last digit: it goes behind those of ten times as much, and takes the place of a zero. -/
theorem exists_of_digits (hne : digits ≠ []) (h : ∀ c ∈ digits, c.isDigit = true) :
    ∃ zeros n, digits = List.replicate zeros '0' ++ Nat.toDigits 10 n := by
  induction digits using List.reverseRecOn with
  | nil => exact absurd rfl hne
  | append_singleton digits c ih =>
    obtain ⟨d, hd, hc⟩ := exists_toDigits_of_isDigit (h c (by simp))
    by_cases hnil : digits = []
    · exact ⟨0, d, by simp [hnil, hc]⟩
    · obtain ⟨zeros, n, hn⟩ := ih hnil fun c hc => h c (List.mem_append_left _ hc)
      rcases Nat.eq_zero_or_pos n with rfl | hpos
      · refine ⟨zeros + 1, d, ?_⟩
        rw [hn, hc, Nat.toDigits_zero, List.replicate_succ']
      · refine ⟨zeros, 10 * n + d, ?_⟩
        rw [hn, ← hc, List.append_assoc, Nat.toDigits_append_toDigits (by decide) hpos hd]

/-- Digits and underscores, of which the first is a digit. -/
structure IsRun (first : Char) (more : List Char) : Prop where
  first : first.isDigit = true
  more : ∀ c ∈ more, c.isDigit = true ∨ c = '_'

/-- Nothing that could be part of a run follows it. -/
def EndsBefore (behind : List Char) : Prop := ∀ c ∈ behind.head?, c.isDigit = false ∧ c ≠ '_'

/-- What follows makes the run a number of another kind. -/
def SpoiltBy (behind : List Char) : Prop :=
  ∃ c ∈ behind.head?, Text.isAlphabetic c = true ∨ c = '.'

theorem ne_underscore_of_isDigit {c : Char} (h : c.isDigit = true) : c ≠ '_' := by
  rintro rfl
  exact absurd h (by decide)

theorem IsRun.filter_eq (h : IsRun first more) :
    (first :: more).filter Char.isDigit = (first :: more).filter (· ≠ '_') := by
  apply List.filter_congr
  intro c hc
  have hc' : c.isDigit = true ∨ c = '_' := by
    rcases List.mem_cons.mp hc with rfl | hc
    · exact .inl h.first
    · exact h.more c hc
  rcases hc' with hdigit | rfl
  · simp [hdigit, ne_underscore_of_isDigit hdigit]
  · decide

theorem IsRun.existsUnique (h : IsRun first more) :
    ∃ n, ∀ m, WritesInDecimal (first :: more) m ↔ m = n := by
  have hdigits : ∀ c ∈ (first :: more).filter (· ≠ '_'), c.isDigit = true := by
    rw [← h.filter_eq]
    exact fun c hc => (List.mem_filter.mp hc).2
  have hne : (first :: more).filter (· ≠ '_') ≠ [] := by
    simp [ne_underscore_of_isDigit h.first]
  obtain ⟨zeros, n, hn⟩ := exists_of_digits hne hdigits
  have hwrites : WritesInDecimal (first :: more) n := ⟨zeros, hn⟩
  refine ⟨n, fun m => ⟨fun hm => hm.eq.trans hwrites.eq.symm, ?_⟩⟩
  rintro rfl
  exact hwrites

/-! ### What is read -/

theorem maxInteger_eq : maxInteger = 2 ^ 63 - 1 := rfl

theorem spoiltBy_iff (q : Position) : SpoiltBy behind ↔
    ((Source.locate q behind).head?.any fun c => Text.isAlphabetic c.item || c.item = '.') =
      true := by
  cases behind <;> simp [SpoiltBy]

instance (behind : List Char) : Decidable (SpoiltBy behind) :=
  decidable_of_iff _ (spoiltBy_iff .start).symm

/-- The reader of integers takes the run as a whole, and what follows decides first. -/
theorem integer_of_isRun (h : IsRun first more) (hends : EndsBefore behind)
    (hn : WritesInDecimal (first :: more) n) (p q : Position) :
    integer ⟨p, first⟩ (Source.locate q (more ++ behind)) =
      if SpoiltBy behind then .error ⟨p, .notDecimal⟩
      else if n ≤ maxInteger then .ok (n, Source.locate (q.afterAll more) behind)
      else .error ⟨p, .integerTooLarge (String.ofList ((first :: more).filter (· ≠ '_')))⟩ := by
  have hall : ∀ c ∈ Source.locate q more, isDigitOrUnderscore c = true := by
    intro c hc
    have hitem := h.more c.item (Source.item_mem_of_mem_locate hc)
    simpa [isDigitOrUnderscore] using hitem
  have hstop : ∀ c ∈ (Source.locate (q.afterAll more) behind).head?,
      isDigitOrUnderscore c = false := by
    intro c hc
    have hitem : c.item ∈ behind.head? := by
      rw [← Source.map_item_locate (q.afterAll more) behind, List.head?_map]
      exact Option.mem_map_of_mem _ hc
    simpa [isDigitOrUnderscore] using hends c.item hitem
  obtain ⟨htake, hdrop⟩ := Lexer.span_append hall hstop
  have hvalue : Escape.ofDigits 10
      (((first :: more).filter Char.isDigit).map fun c => c.toNat - '0'.toNat) = n := by
    rw [Escape.ofDigits, Lexer.foldl_digits, h.filter_eq, hn.eq]
  unfold integer
  rw [Source.locate_append, htake, hdrop, List.map_cons, Source.map_item_locate]
  dsimp only
  rw [hvalue, h.filter_eq]
  simp only [spoiltBy_iff (q.afterAll more)]

end Literal

namespace Lexing

open Lexer Literal
open Source (locate placeAt)

variable {text : String} {depth n : Nat} {done : List Token} {c : Located Char}
  {rest after : List (Located Char)} {first : Char} {more behind : List Char} {p : Position}

/-! ### What the lexer comes to -/

/-- The lexer comes to the characters, the blanks in front of them skipped. -/
def Faces (text : String) (depth : Nat) (done : List Token) (rest : List (Located Char)) : Prop :=
  ∃ cs, Comes text ⟨depth, done, cs⟩ ∧ skipBlanks cs = .ok rest

/-- What the lexer faces is the rest of the text, each character at its place. -/
theorem Faces.exists_front (h : Faces text depth done (c :: rest)) :
    ∃ front, text.toList = front ++ (c :: rest).map (·.item) ∧
      c.pos = placeAt text.toList front.length := by
  obtain ⟨cs, hcomes, hskip⟩ := h
  obtain ⟨passages, skipped, hlaid⟩ := hcomes.laid
  obtain ⟨gap, rfl, hgap⟩ := Spelling.exists_of_skipBlanks _ hskip
  have hnow := hlaid.skip hgap
  refine ⟨_, hnow.text_eq, ?_⟩
  have hplace := hnow.rest_eq
  rw [List.map_cons, Source.locate_cons] at hplace
  rw [hnow.text_eq, Source.placeAt_append, (List.cons.inj hplace).1]

theorem Faces.tokenize_eq_error (h : Faces text depth done (c :: rest)) (hc : c.item ≠ '\n')
    {e : SyntaxError} (hl : lexeme c rest = .error e) : tokenize text = .error e := by
  obtain ⟨cs, hcomes, hskip⟩ := h
  rw [hcomes.tokenize_eq, tokensFrom_eq, hskip]
  simp only [if_neg hc, hl]

theorem Faces.comes (h : Faces text depth done (c :: rest)) {l : Lexeme}
    (hl : lexeme c rest = .ok (l, after)) (hd : l.depthAfter depth ≤ maxNesting) :
    Comes text ⟨l.depthAfter depth, ⟨c.pos, l⟩ :: done, after⟩ := by
  obtain ⟨cs, hcomes, hskip⟩ := h
  exact hcomes.tail (.token hskip hl hd)

theorem Faces.depth_le (h : Faces text depth done rest) : depth ≤ maxNesting := by
  obtain ⟨cs, hcomes, -⟩ := h
  exact hcomes.lexed.depth_le

/-- Where the lexer comes to a run of digits and underscores that starts with a digit, the run
writes one number in decimal. If a letter or a point follows, the text is refused at the first digit;
so it is if the number takes more than 63 bits. Otherwise that number is the next token. -/
theorem integer_exact_or_refused
    (h : Faces text depth done (locate p (first :: (more ++ behind)))) (hrun : IsRun first more)
    (hends : EndsBefore behind) :
    (∃ front, text.toList = front ++ first :: (more ++ behind) ∧
      p = placeAt text.toList front.length) ∧
    ∃ n, (∀ m, WritesInDecimal (first :: more) m ↔ m = n) ∧
      (SpoiltBy behind → tokenize text = .error ⟨p, .notDecimal⟩) ∧
      (¬SpoiltBy behind → n ≤ 2 ^ 63 - 1 →
        Comes text ⟨depth, ⟨p, .integer n⟩ :: done, locate (p.afterAll (first :: more)) behind⟩) ∧
      (¬SpoiltBy behind → 2 ^ 63 - 1 < n →
        tokenize text = .error
          ⟨p, .integerTooLarge (String.ofList ((first :: more).filter (· ≠ '_')))⟩) := by
  rw [Source.locate_cons] at h
  have hline : first ≠ '\n' := by
    rintro rfl
    exact absurd hrun.first (by decide)
  obtain ⟨n, hn⟩ := hrun.existsUnique
  have hlexeme := @lexeme_of_isDigit (locate (p.after first) (more ++ behind)) p first hrun.first
  rw [integer_of_isRun hrun hends ((hn n).mpr rfl), maxInteger_eq] at hlexeme
  refine ⟨?_, n, hn, fun hs => ?_, fun hs hle => ?_, fun hs hlt => ?_⟩
  · obtain ⟨front, htext, hplace⟩ := h.exists_front
    rw [List.map_cons, Source.map_item_locate] at htext
    exact ⟨front, htext, hplace⟩
  · rw [if_pos hs] at hlexeme
    exact h.tokenize_eq_error hline hlexeme
  · rw [if_neg hs, if_pos hle] at hlexeme
    exact h.comes hlexeme h.depth_le
  · rw [if_neg hs, if_neg (Nat.not_le.mpr hlt)] at hlexeme
    exact h.tokenize_eq_error hline hlexeme

/-- The least number that takes more than 63 bits, with zeros and underscores in it. -/
theorem integer_exact_or_refused_beyond :
    let text := "x = 0_0922_3372036854775808 # x"
    let more := "_0922_3372036854775808".toList
    let behind := " # x".toList
    let before : List Token := [⟨⟨1, 3⟩, .assign⟩, ⟨⟨1, 1⟩, .name "x"⟩]
    Faces text 0 before (locate ⟨1, 5⟩ ('0' :: (more ++ behind))) ∧ IsRun '0' more ∧
      EndsBefore behind ∧
      tokenize text = .error ⟨⟨1, 5⟩, .integerTooLarge "009223372036854775808"⟩ := by
  intro text more behind before
  have hname : skipBlanks (start text).rest = .ok (⟨⟨1, 1⟩, 'x'⟩ :: (start text).rest.drop 1) := by
    decide +kernel
  have hassign : skipBlanks ((start text).rest.drop 1) =
      .ok (⟨⟨1, 3⟩, '='⟩ :: (start text).rest.drop 3) := by
    decide +kernel
  have hcomes : Comes text ⟨0, before, (start text).rest.drop 3⟩ :=
    .tail (.single (.token (l := .name "x") hname (by decide +kernel) (by decide)))
      (.token (l := .assign) hassign (by decide +kernel) (by decide))
  have hfaces : Faces text 0 before (locate ⟨1, 5⟩ ('0' :: (more ++ behind))) :=
    ⟨_, hcomes, by decide +kernel⟩
  have hmore : (more.all fun c => c.isDigit || c == '_') = true := by decide +kernel
  have hrun : IsRun '0' more := ⟨by decide, by simpa using hmore⟩
  have hends : EndsBefore behind := by
    intro c hc
    obtain rfl : ' ' = c := Option.some.inj hc
    decide
  obtain ⟨-, n, hn, -, -, hlarge⟩ := integer_exact_or_refused hfaces hrun hends
  obtain rfl : 2 ^ 63 = n := (hn _).mp ⟨2, by decide +kernel⟩
  exact ⟨hfaces, hrun, hends, hlarge (by decide +kernel) (by decide)⟩

end Lexing

end PinnedDeps
