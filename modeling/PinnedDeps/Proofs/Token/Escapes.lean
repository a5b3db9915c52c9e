import PinnedDeps.Proofs.Token.Lexer
import Mathlib.Algebra.Group.Nat.Defs
import Mathlib.Data.List.Forall2
import Mathlib.Data.Option.Basic

/-! The ways to write a text in an ordinary string literal. A character is written as itself where
it neither ends the literal nor starts an escape, by the letter that names it, or by its code in
octal or hexadecimal digits; lines can be joined anywhere in between. What escapes with digits stand
for is told by the number that the digits write, whatever follows. All literals in which a text is
written are lexed to this text. -/

namespace PinnedDeps.Spelling

open Lexer Literal
open Source (locate)

/-! ### How it is written -/

/-- The last `width` digits of a number in base `base`. -/
def digits (base : Nat) : Nat → Nat → List Nat
  | 0, _ => []
  | width + 1, n => digits base width (n / base) ++ [n % base]

/-- Letters of either case are digits. -/
def IsHexDigit (d : Nat) (c : Char) : Prop := c = d.digitChar ∨ c = d.digitChar.toUpper

/-- The characters that have an escape of one letter, and the letter. -/
def letterEscapes : List (Char × Char) :=
  [('\\', '\\'), ('\'', '\''), ('"', '"'), ('\x07', 'a'), ('\x08', 'b'), ('\x0c', 'f'), ('\n', 'n'),
    ('\r', 'r'), ('\t', 't'), ('\x0b', 'v')]

/-- The letters in front of hexadecimal digits, and how many of these follow. -/
def hexEscapes : List (Char × Nat) := [('x', 2), ('u', 4), ('U', 8)]

inductive WritesChar (quote : Char) (triple : Bool) (c : Char) : List Char → Prop where
  | plain : c ≠ '\\' → c ≠ quote → (triple = false → c ≠ '\n') → WritesChar quote triple c [c]
  | letter {letter : Char} : (c, letter) ∈ letterEscapes → WritesChar quote triple c ['\\', letter]
  | octal : c.toNat ≤ 0o777 →
      WritesChar quote triple c ('\\' :: (digits 8 3 c.toNat).map Nat.digitChar)
  | hex {kind : Char} {width : Nat} {written : List Char} :
      (kind, width) ∈ hexEscapes → c.toNat < 16 ^ width →
      List.Forall₂ IsHexDigit (digits 16 width c.toNat) written →
      WritesChar quote triple c ('\\' :: kind :: written)

/-- The characters write a text between the delimiters of a literal. -/
inductive WritesText (quote : Char) (triple : Bool) : List Char → List Char → Prop where
  | nil : WritesText quote triple [] []
  | joined {text cs : List Char} :
      WritesText quote triple text cs → WritesText quote triple text ('\\' :: '\n' :: cs)
  | char {c : Char} {word text cs : List Char} :
      WritesChar quote triple c word → WritesText quote triple text cs →
      WritesText quote triple (c :: text) (word ++ cs)

/-! ### Digits -/

variable {base width n d : Nat}

theorem ofDigits_digits (base width n : Nat) :
    Escape.ofDigits base (digits base width n) = n % base ^ width := by
  induction width generalizing n with
  | zero => rw [Nat.pow_zero, Nat.mod_one]; rfl
  | succ width ih =>
    have hfold (ds : List Nat) (d : Nat) :
        Escape.ofDigits base (ds ++ [d]) = Escape.ofDigits base ds * base + d := by
      simp [Escape.ofDigits]
    rw [digits, hfold, ih, Nat.pow_succ, Nat.mul_comm (base ^ width), Nat.mod_mul, Nat.mul_comm,
      Nat.add_comm]

theorem length_digits (base width n : Nat) : (digits base width n).length = width := by
  induction width generalizing n with
  | zero => rfl
  | succ width ih => simp [digits, ih]

theorem lt_of_mem_digits (hb : 0 < base) (h : d ∈ digits base width n) : d < base := by
  induction width generalizing n with
  | zero => cases h
  | succ width ih =>
    rcases List.mem_append.mp h with h | h
    · exact ih h
    · obtain rfl := List.mem_singleton.mp h
      exact Nat.mod_lt n hb

theorem hexDigit?_of_isHexDigit {c : Char} (hd : d < 16) (h : IsHexDigit d c) :
    Escape.hexDigit? c = some d := by
  have hdigits : ∀ d < 16, Escape.hexDigit? d.digitChar = some d ∧
      Escape.hexDigit? d.digitChar.toUpper = some d := by decide
  rcases h with rfl | rfl
  · exact (hdigits d hd).1
  · exact (hdigits d hd).2

theorem isHexDigit_of_hexDigit? {c : Char} (h : Escape.hexDigit? c = some d) :
    d < 16 ∧ IsHexDigit d c := by
  -- the digits stand among the first 128 characters, which can be looked through
  have hall : ∀ n < 128, ∀ d ∈ Escape.hexDigit? (Char.ofNat n),
      d < 16 ∧ (Char.ofNat n = d.digitChar ∨ Char.ofNat n = d.digitChar.toUpper) := by decide
  have hbelow : c.toNat < 128 := by
    simp only [Escape.hexDigit?, Char.le_def, UInt32.le_iff_toNat_le, Char.toNat_val,
      Char.reduceToNat] at h
    split_ifs at h <;> omega
  have hc := hall c.toNat hbelow d
  rw [Char.ofNat_toNat] at hc
  exact hc h

theorem hexDigits_of_forall₂ {ds : List Nat} {written : List Char} (hlt : ∀ d ∈ ds, d < 16)
    (h : List.Forall₂ IsHexDigit ds written) : written.map Escape.hexDigit? = ds.map some := by
  induction h with
  | nil => rfl
  | cons hd _ ih =>
    rw [List.forall_mem_cons] at hlt
    rw [List.map_cons, List.map_cons, hexDigit?_of_isHexDigit hlt.1 hd, ih hlt.2]

/-- A digit of the base, a letter being of either case. -/
def IsDigit (base : Nat) (c : Char) : Prop := ∃ d < base, IsHexDigit d c

theorem hexDigit?_eq_none {c : Char} (h : ¬IsDigit 16 c) : Escape.hexDigit? c = none := by
  rw [Option.eq_none_iff_forall_ne_some]
  intro d hd
  exact h ⟨d, isHexDigit_of_hexDigit? hd⟩

theorem exists_of_isOctal {c : Char} (h : Escape.isOctal c = true) : ∃ d < 8, c = d.digitChar := by
  simp only [Escape.isOctal, Bool.and_eq_true, decide_eq_true_eq, Char.le_def,
    UInt32.le_iff_toNat_le, Char.toNat_val, Char.reduceToNat] at h
  have hd : c.toNat - 48 < 8 := by omega
  refine ⟨c.toNat - 48, hd, ?_⟩
  rw [← Char.toNat_inj, Nat.toNat_digitChar_of_lt_ten (by omega)]
  omega

/-- No octal digit is a letter. -/
theorem eq_digitChar_of_isHexDigit {c : Char} (hd : d < 8) (h : IsHexDigit d c) :
    c = d.digitChar := by
  have hupper : ∀ d < 8, d.digitChar.toUpper = d.digitChar := by decide
  rcases h with rfl | rfl
  · rfl
  · exact hupper d hd

theorem isOctal_iff {c : Char} : Escape.isOctal c = true ↔ IsDigit 8 c := by
  constructor
  · intro h
    obtain ⟨d, hd, hc⟩ := exists_of_isOctal h
    exact ⟨d, hd, .inl hc⟩
  · rintro ⟨d, hd, hc⟩
    have hall : ∀ d < 8, Escape.isOctal d.digitChar = true := by decide
    rw [eq_digitChar_of_isHexDigit hd hc]
    exact hall d hd

theorem octalDigits_of_forall₂ {ds : List Nat} {written : List Char} (hlt : ∀ d ∈ ds, d < 8)
    (h : List.Forall₂ IsHexDigit ds written) :
    written.map (fun c => c.toNat - '0'.toNat) = ds := by
  have hvalue : ∀ d < 8, d.digitChar.toNat - '0'.toNat = d := by decide
  induction h with
  | nil => rfl
  | cons hd _ ih =>
    rw [List.forall_mem_cons] at hlt
    rw [List.map_cons, eq_digitChar_of_isHexDigit hlt.1 hd, hvalue _ hlt.1, ih hlt.2]

/-! ### Numbers -/

/-- The characters write the number in the base, with as many digits as there are characters. -/
def WritesIn (base : Nat) (written : List Char) (n : Nat) : Prop :=
  n < base ^ written.length ∧ List.Forall₂ IsHexDigit (digits base written.length n) written

section Numbers

variable {m : Nat} {written : List Char}

theorem writesIn_nil (base : Nat) : WritesIn base [] 0 := ⟨Nat.one_pos, .nil⟩

theorem writesIn_of_digits (hn : n < base ^ width)
    (h : List.Forall₂ IsHexDigit (digits base width n) written) : WritesIn base written n := by
  obtain rfl : width = written.length := (length_digits base width n).symm.trans h.length_eq
  exact ⟨hn, h⟩

/-- With one digit more the number is as many times greater as the base says, and the digit is
added. -/
theorem WritesIn.concat {c : Char} (h : WritesIn base written n) (hd : d < base)
    (hc : IsHexDigit d c) : WritesIn base (written ++ [c]) (n * base + d) := by
  have hdiv : (n * base + d) / base = n := by
    rw [Nat.mul_comm, Nat.mul_add_div (by omega), Nat.div_eq_of_lt hd, Nat.add_zero]
  have hmod : (n * base + d) % base = d := by
    rw [Nat.mul_comm, Nat.mul_add_mod, Nat.mod_eq_of_lt hd]
  unfold WritesIn
  rw [List.length_append, List.length_singleton]
  refine ⟨?_, ?_⟩
  · calc n * base + d < (n + 1) * base := by rw [Nat.add_mul, Nat.one_mul]; omega
      _ ≤ base ^ written.length * base := Nat.mul_le_mul_right base h.1
      _ = base ^ (written.length + 1) := (Nat.pow_succ ..).symm
  · rw [digits, hdiv, hmod]
    exact List.rel_append h.2 (.cons hc .nil)

theorem WritesIn.ofDigits_eq (h : WritesIn base written n) :
    Escape.ofDigits base (digits base written.length n) = n := by
  rw [ofDigits_digits, Nat.mod_eq_of_lt h.1]

theorem WritesIn.isDigit (h : WritesIn base written n) (hb : 0 < base) :
    ∀ c ∈ written, IsDigit base c := by
  have hlt : ∀ d ∈ digits base written.length n, d < base := fun d hd => lt_of_mem_digits hb hd
  intro c hc
  obtain ⟨i, hi, rfl⟩ := List.mem_iff_getElem.mp hc
  have hi' : i < (digits base written.length n).length := by rwa [length_digits]
  exact ⟨_, hlt _ (List.getElem_mem hi'), (List.forall₂_iff_get.mp h.2).2 i hi' hi⟩

theorem WritesIn.map_hexDigit? (h : WritesIn base written n) (hb : 0 < base) (hle : base ≤ 16) :
    written.map Escape.hexDigit? = (digits base written.length n).map some := by
  apply hexDigits_of_forall₂ _ h.2
  intro d hd
  exact Nat.lt_of_lt_of_le (lt_of_mem_digits hb hd) hle

theorem WritesIn.unique (h : WritesIn base written n) (h' : WritesIn base written m) (hb : 0 < base)
    (hle : base ≤ 16) : m = n := by
  have hsome := (h'.map_hexDigit? hb hle).symm.trans (h.map_hexDigit? hb hle)
  have hdigits := List.map_injective_iff.mpr (Option.some_injective Nat) hsome
  rw [← h'.ofDigits_eq, ← h.ofDigits_eq, hdigits]

theorem WritesIn.eq_iff (h : WritesIn base written n) (hb : 0 < base) (hle : base ≤ 16) :
    WritesIn base written m ↔ m = n := by
  refine ⟨fun h' => h.unique h' hb hle, ?_⟩
  rintro rfl
  exact h

end Numbers

/-! ### The digits that stand first -/

/-- In front of `behind` stand the digits, all that there are, but `limit` of them at the most. -/
structure Leading (base limit : Nat) (rest ds behind : List (Located Char)) : Prop where
  rest_eq : rest = ds ++ behind
  digit : ∀ c ∈ ds, IsDigit base c.item
  length_le : ds.length ≤ limit
  longest : ds.length < limit → ∀ c ∈ behind.head?, ¬IsDigit base c.item

section Leading

variable {limit : Nat} {rest ds behind : List (Located Char)} {start : Position}

theorem leading_nil (h : 0 < limit → ∀ c ∈ rest.head?, ¬IsDigit base c.item) :
    Leading base limit rest [] rest :=
  ⟨rfl, nofun, Nat.zero_le limit, h⟩

theorem Leading.cons {c : Located Char} (h : Leading base limit rest ds behind)
    (hc : IsDigit base c.item) : Leading base (limit + 1) (c :: rest) (c :: ds) behind where
  rest_eq := by rw [h.rest_eq, List.cons_append]
  digit := List.forall_mem_cons.mpr ⟨hc, h.digit⟩
  length_le := Nat.succ_le_succ h.length_le
  longest hlt := h.longest (Nat.lt_of_succ_lt_succ hlt)

theorem Leading.behind_eq (h : Leading base limit rest ds behind) :
    behind = rest.drop ds.length := by
  rw [h.rest_eq, List.drop_left]

theorem Leading.length_eq (h : Leading base limit rest ds behind) (hlt : ¬ds.length < limit) :
    ds.length = limit :=
  Nat.le_antisymm h.length_le (Nat.not_lt.mp hlt)

theorem leading_of_length {cs : List Char} (h : ∀ c ∈ cs, IsDigit base c) (hl : cs.length = limit)
    (p : Position) (rest : List (Located Char)) :
    Leading base limit (locate p cs ++ rest) (locate p cs) rest where
  rest_eq := rfl
  digit c hc := h c.item (Source.item_mem_of_mem_locate hc)
  length_le := Nat.le_of_eq (by rw [Source.length_locate, hl])
  longest hlt := by
    rw [Source.length_locate, hl] at hlt
    exact absurd hlt (Nat.lt_irrefl limit)

/-- If all digits are there the number decides; else the escape ends too early. -/
theorem hex_of_leading {kind : Char} (h : Leading 16 width rest ds behind)
    (hn : WritesIn 16 (ds.map (·.item)) n) :
    Escape.hex start kind width rest =
      if ds.length < width then .error ⟨start, .truncatedEscape kind width⟩
      else if n.isValidChar then .ok ⟨[Char.ofNat n], width⟩
      else .error ⟨start, .invalidEscape kind width n⟩ := by
  have hvalues : ds.map (fun c => Escape.hexDigit? c.item) = (digits 16 ds.length n).map some := by
    have hsome := hn.map_hexDigit? (by decide) (by decide)
    rwa [List.map_map, List.length_map] at hsome
  unfold Escape.hex
  dsimp only
  by_cases hlt : ds.length < width
  · have hshort : (rest.take width).length < width ∨
        none ∈ (rest.take width).map fun c => Escape.hexDigit? c.item := by
      rw [h.rest_eq, List.take_append, List.take_of_length_le h.length_le]
      obtain ⟨more, hmore⟩ := Nat.exists_eq_add_of_lt hlt
      cases behind with
      | nil => exact .inl (by simpa using hlt)
      | cons c behind =>
        have htake : (c :: behind).take (width - ds.length) = c :: behind.take more := by
          rw [hmore, Nat.add_assoc, Nat.add_sub_cancel_left, List.take_succ_cons]
        refine .inr (List.mem_map.mpr ⟨c, ?_, hexDigit?_eq_none (h.longest hlt c rfl)⟩)
        rw [htake]
        exact List.mem_append_right ds List.mem_cons_self
    rw [List.length_map, if_pos hshort, if_pos hlt]
  · have htake : rest.take width = ds := by rw [h.rest_eq, List.take_left' (h.length_eq hlt)]
    have hsome : ((digits 16 ds.length n).map some).reduceOption = digits 16 ds.length n :=
      List.filterMap_map.trans List.filterMap_some
    have hcode : Escape.ofDigits 16 (digits 16 ds.length n) = n := by
      simpa using hn.ofDigits_eq
    rw [htake, hvalues, hsome, hcode, if_neg (by simp [length_digits, hlt]), if_neg hlt]

/-- The number is that of the first digit and those behind it. -/
theorem octal_of_leading {first : Char} (h : Leading 8 2 rest ds behind)
    (hn : WritesIn 8 (first :: ds.map (·.item)) n) :
    Escape.octal first rest = ⟨[Char.ofNat n], ds.length⟩ := by
  have hmore : ((rest.take 2).map (·.item)).takeWhile Escape.isOctal = ds.map (·.item) := by
    have hall : ∀ c ∈ ds.map (·.item), Escape.isOctal c = true := by
      intro c hc
      obtain ⟨e, he, rfl⟩ := List.mem_map.mp hc
      exact isOctal_iff.mpr (h.digit e he)
    have hstop : ∀ c ∈ ((behind.take (2 - ds.length)).map (·.item)).head?,
        Escape.isOctal c = false := by
      intro c hc
      rw [List.head?_map, List.head?_take] at hc
      split at hc
      · cases hc
      next hroom =>
      obtain ⟨e, he, rfl⟩ := Option.map_eq_some_iff.mp hc
      rw [Bool.eq_false_iff, Ne, isOctal_iff]
      exact h.longest (by omega) e he
    rw [h.rest_eq, List.take_append, List.take_of_length_le h.length_le, List.map_append]
    exact (span_append hall hstop).1
  have hvalues := octalDigits_of_forall₂ (fun d hd => lt_of_mem_digits (by decide) hd) hn.2
  unfold Escape.octal
  dsimp only
  rw [hmore, hvalues, hn.ofDigits_eq, List.length_map]

end Leading

/-! ### Escapes -/

/-- The character `first` and the characters `more` behind it are an escape that stands for `c`. -/
def Names (c first : Char) (more : List Char) : Prop :=
  ∀ start p rest, Escape.read start first (locate p more ++ rest) = .ok ⟨[c], more.length⟩

variable {c : Char}

theorem names_letter {letter : Char} (h : (c, letter) ∈ letterEscapes) : Names c letter [] := by
  intro start p rest
  simp only [letterEscapes, List.mem_cons, Prod.mk.injEq, List.not_mem_nil, or_false] at h
  rcases h with ⟨rfl, rfl⟩ | ⟨rfl, rfl⟩ | ⟨rfl, rfl⟩ | ⟨rfl, rfl⟩ | ⟨rfl, rfl⟩ | ⟨rfl, rfl⟩ |
    ⟨rfl, rfl⟩ | ⟨rfl, rfl⟩ | ⟨rfl, rfl⟩ | ⟨rfl, rfl⟩ <;> rfl

theorem read_digitChar (h : d < 8) (start : Position) (rest : List (Located Char)) :
    Escape.read start d.digitChar rest = .ok (Escape.octal d.digitChar rest) := by
  match d, h with
  | 0, _ | 1, _ | 2, _ | 3, _ | 4, _ | 5, _ | 6, _ | 7, _ => rfl

theorem read_of_isOctal (h : Escape.isOctal c = true) (start : Position)
    (rest : List (Located Char)) : Escape.read start c rest = .ok (Escape.octal c rest) := by
  obtain ⟨d, hd, rfl⟩ := exists_of_isOctal h
  exact read_digitChar hd start rest

theorem read_of_hexEscape {kind : Char} (h : (kind, width) ∈ hexEscapes) (start : Position)
    (rest : List (Located Char)) :
    Escape.read start kind rest = Escape.hex start kind width rest := by
  simp only [hexEscapes, List.mem_cons, Prod.mk.injEq, List.not_mem_nil, or_false] at h
  rcases h with ⟨rfl, rfl⟩ | ⟨rfl, rfl⟩ | ⟨rfl, rfl⟩ <;> rfl

/-- Of the digits behind an octal escape two belong to it. -/
theorem names_octal (h : c.toNat ≤ 0o777) :
    ∃ first more, (digits 8 3 c.toNat).map Nat.digitChar = first :: more ∧ Names c first more := by
  have hwritten : List.Forall₂ IsHexDigit (digits 8 3 c.toNat)
      ((digits 8 3 c.toNat).map Nat.digitChar) := by
    rw [List.forall₂_map_right_iff, List.forall₂_same]
    exact fun d _ => .inl rfl
  have hwrites : WritesIn 8 ((digits 8 3 c.toNat).map Nat.digitChar) c.toNat :=
    writesIn_of_digits (by omega) hwritten
  obtain ⟨first, more, hmore⟩ :
      ∃ first more, (digits 8 3 c.toNat).map Nat.digitChar = first :: more := ⟨_, _, rfl⟩
  have hlength : more.length = 2 := by
    simpa [length_digits] using (congrArg List.length hmore).symm
  rw [hmore] at hwrites
  have hdigit := List.forall_mem_cons.mp (hwrites.isDigit (by decide))
  refine ⟨first, more, hmore, fun start p rest => ?_⟩
  have hleading := leading_of_length hdigit.2 hlength p rest
  rw [read_of_isOctal (isOctal_iff.mpr hdigit.1),
    octal_of_leading hleading (by rwa [Source.map_item_locate]), Char.ofNat_toNat,
    Source.length_locate]

theorem names_hex {kind : Char} {width : Nat} {written : List Char}
    (hk : (kind, width) ∈ hexEscapes) (hc : c.toNat < 16 ^ width)
    (hw : List.Forall₂ IsHexDigit (digits 16 width c.toNat) written) : Names c kind written := by
  intro start p rest
  have hlength : written.length = width := hw.length_eq.symm.trans (length_digits 16 width _)
  have hwrites : WritesIn 16 written c.toNat := writesIn_of_digits hc hw
  have hleading := leading_of_length (hwrites.isDigit (by decide)) hlength p rest
  have hvalid : c.toNat.isValidChar := c.valid
  rw [read_of_hexEscape hk, hex_of_leading hleading (by rwa [Source.map_item_locate]),
    if_neg (by simp [hlength]), if_pos hvalid, Char.ofNat_toNat, hlength]

/-! ### Literals -/

variable {quote : Char} {triple : Bool} {word text cs : List Char} {rest : List (Located Char)}

theorem WritesChar.plain_or_names (h : WritesChar quote triple c word) :
    (word = [c] ∧ c ≠ '\\' ∧ c ≠ quote ∧ (triple = false → c ≠ '\n')) ∨
      ∃ first more, word = '\\' :: first :: more ∧ Names c first more := by
  cases h with
  | plain hslash hquote hline => exact .inl ⟨rfl, hslash, hquote, hline⟩
  | letter hl => exact .inr ⟨_, [], rfl, names_letter hl⟩
  | octal hc =>
    obtain ⟨first, more, hdigits, hnames⟩ := names_octal hc
    exact .inr ⟨first, more, by rw [hdigits], hnames⟩
  | hex hk hc hw => exact .inr ⟨_, _, rfl, names_hex hk hc hw⟩

/-- By the characters of the text: each is put behind those read before it. -/
theorem stringBody_of_writesText (hq : isQuote quote = true) (h : WritesText quote triple text cs)
    (start p : Position) (done : List Char) {closing : List (Located Char)}
    (hclosing : closing.map (·.item) = delimiter quote triple) (rest : List (Located Char)) :
    stringBody false triple quote start done (locate p cs ++ (closing ++ rest)) =
      .ok (done.reverse ++ text, rest) := by
  induction h generalizing p done with
  | nil =>
    rw [Source.locate_nil, List.nil_append, stringBody_delimiter hclosing, List.append_nil]
  | joined _ ih =>
    simp only [Source.locate_cons, List.cons_append]
    rw [stringBody_escape hq rfl, List.drop_zero]
    exact ih _ done
  | @char c word text cs hc _ ih =>
    rcases hc.plain_or_names with ⟨rfl, hslash, hquote, hline⟩ | ⟨first, more, rfl, hnames⟩
    · simp only [List.cons_append, List.nil_append, Source.locate_cons]
      rw [stringBody_char hquote hslash hline, ih]
      simp
    · simp only [List.cons_append, Source.locate_cons, Source.locate_append, List.append_assoc]
      rw [stringBody_escape hq (hnames start _ _), List.drop_left' (by simp), ih]
      simp

theorem WritesText.head_ne (hq : isQuote quote = true) (h : WritesText quote triple text cs) :
    ∀ c ∈ cs.head?, c ≠ quote := by
  have hslash : '\\' ≠ quote := ne_of_isQuote hq rfl
  cases h with
  | nil => nofun
  | joined => simpa using hslash
  | char hc =>
    rcases hc.plain_or_names with ⟨rfl, -, hquote, -⟩ | ⟨first, more, rfl, -⟩
    · simpa using hquote
    · simpa using hslash

theorem string_of_delimiter {raw : Bool} {quote : Located Char} {opened body : List (Located Char)}
    (h : (quote :: opened).map (·.item) = delimiter quote.item triple)
    (hbody : triple = false → twoMore quote.item body = false) :
    Literal.string raw quote (opened ++ body) =
      stringBody raw triple quote.item quote.pos [] body := by
  cases triple with
  | false =>
    obtain rfl : opened = [] := by simpa [delimiter] using h
    rw [List.nil_append, Literal.string, hbody rfl, if_neg Bool.false_ne_true]
  | true =>
    have hitems : opened.map (·.item) = [quote.item, quote.item] := by simpa [delimiter] using h
    have hlength : opened.length = 2 := by simpa using congrArg List.length hitems
    have htwo : twoMore quote.item (opened ++ body) = true := by
      rw [twoMore_iff, List.take_left' hlength, hitems]
    rw [Literal.string, htwo, if_pos rfl, List.drop_left' hlength]

/-- A literal in which the text is written, if no quote follows that would make three of two. -/
theorem stringLexeme_of_writesText (hq : isQuote quote = true)
    (h : WritesText quote triple text cs) (hrest : ∀ d ∈ rest.head?, d.item ≠ quote)
    (p : Position) :
    ∃ behind, locate p (delimiter quote triple ++ (cs ++ delimiter quote triple)) =
        ⟨p, quote⟩ :: behind ∧
      stringLexeme false ⟨p, quote⟩ (behind ++ rest) =
        .ok (.string (String.ofList text), rest) := by
  obtain ⟨more, hmore⟩ : ∃ more, delimiter quote triple = quote :: more := by
    cases triple <;> exact ⟨_, rfl⟩
  refine ⟨locate (p.after quote) (more ++ (cs ++ delimiter quote triple)), by rw [hmore]; simp, ?_⟩
  have hbody (q r : Position) (htriple : triple = false) :
      twoMore quote (locate q cs ++ (locate r (delimiter quote triple) ++ rest)) = false := by
    subst htriple
    refine twoMore_of_quote (fun d hd => ?_) hrest r
    apply h.head_ne hq
    rw [← Source.map_item_locate q cs, List.head?_map]
    exact Option.mem_map_of_mem _ hd
  rw [Source.locate_append, Source.locate_append, List.append_assoc, List.append_assoc,
    stringLexeme, string_of_delimiter (by simp [hmore]) (hbody _ _),
    stringBody_of_writesText hq h p _ [] (Source.map_item_locate _ _)]
  rfl

/-- The letters in front of an ordinary literal that change nothing. -/
theorem lexeme_of_letter {letter : Char} (h : letter = 'u' ∨ letter = 'U')
    (hq : isQuote quote = true) (p q : Position) :
    lexeme ⟨p, letter⟩ (⟨q, quote⟩ :: rest) = stringLexeme false ⟨q, quote⟩ rest := by
  have hrest : isNameRest quote = false := by
    rcases isQuote_iff.mp hq with rfl | rfl <;> decide
  have hstart : isNameStart letter = true := by rcases h with rfl | rfl <;> decide
  have hlower : letter.toLower = 'u' := by rcases h with rfl | rfl <;> decide
  rw [lexeme_of_isNameStart hstart]
  simp [nameOrLiteral, hrest, hq, hlower]

theorem lexes_literal {depth : Nat} {letters : List Char} (hl : letters ∈ [[], ['u'], ['U']])
    (hq : isQuote quote = true) (h : WritesText quote triple text cs)
    (hrest : ∀ d ∈ rest.head?, d.item ≠ quote) (hd : depth ≤ maxNesting) (p : Position) :
    Lexes depth (locate p (letters ++ (delimiter quote triple ++ (cs ++ delimiter quote triple))))
      [⟨p, .string (String.ofList text)⟩] depth rest := by
  have hletter {letter : Char} (hl : letter = 'u' ∨ letter = 'U') :
      Lexes depth
        (locate p ([letter] ++ (delimiter quote triple ++ (cs ++ delimiter quote triple))))
        [⟨p, .string (String.ofList text)⟩] depth rest := by
    obtain ⟨behind, hlocate, hread⟩ := stringLexeme_of_writesText hq h hrest (p.after letter)
    rw [List.singleton_append, Source.locate_cons, hlocate]
    refine Lexes.of_lexeme ?_ hd
    rw [List.cons_append, lexeme_of_letter hl hq]
    exact hread
  simp only [List.mem_cons, List.not_mem_nil, or_false] at hl
  rcases hl with rfl | rfl | rfl
  · obtain ⟨behind, hlocate, hread⟩ := stringLexeme_of_writesText hq h hrest p
    rw [List.nil_append, hlocate]
    refine Lexes.of_lexeme ?_ hd
    rw [lexeme_of_isQuote hq]
    exact hread
  · exact hletter (.inl rfl)
  · exact hletter (.inr rfl)

/-- A text consisting of a literal, in which some text is written in any of its ways, is lexed to
that text and the end marker. -/
theorem tokenize_of_writesText {text : String} {letters : List Char}
    (hl : letters ∈ [[], ['u'], ['U']]) (hq : quote = '\'' ∨ quote = '"')
    (h : WritesText quote triple text.toList cs) :
    let source := letters ++ (delimiter quote triple ++ (cs ++ delimiter quote triple))
    tokenize (String.ofList source) =
      .ok [⟨.start, .string text⟩, ⟨Position.start.afterAll source, .eof⟩] := by
  intro source
  have hlexes : Lexes 0 (locate .start source) [⟨.start, .string text⟩] 0 [] := by
    have hlexes := @lexes_literal quote triple _ cs [] 0 _ hl (isQuote_iff.mpr hq) h nofun
      (Nat.zero_le _) .start
    rwa [String.ofList_toList] at hlexes
  have hread := hlexes (Position.start.afterAll source) []
  rw [List.append_nil, tokensFrom_end] at hread
  rw [tokenize, String.toList_ofList]
  exact hread

/-- A quote, a line end, a backslash and letters inside and outside the plane of 16 bits, each in a
way of its own, with lines joined in front and behind. -/
theorem tokenize_manySpellings :
    tokenize (String.ofList ['U', '\'', '\\', '\n', 'a', '\\', '\'', '\\', '0', '1', '2',
      '\\', '\\', '\\', 'u', '0', '0', 'E', '9', '\\', 'x', '4', 'a',
      '\\', 'U', '0', '0', '0', '1', 'F', '6', '0', '0', '\\', '\n', '\'']) =
      .ok [⟨.start, .string "a'\n\\éJ😀"⟩, ⟨⟨3, 2⟩, .eof⟩] := by
  have hend : WritesText '\'' false [] ['\\', '\n'] := .joined .nil
  have hface : WritesChar '\'' false '😀' ['\\', 'U', '0', '0', '0', '1', 'F', '6', '0', '0'] := by
    refine .hex (by decide : ('U', 8) ∈ hexEscapes) (by decide) ?_
    simp [digits, IsHexDigit]
    decide
  have hcapital : WritesChar '\'' false 'J' ['\\', 'x', '4', 'a'] := by
    refine .hex (by decide : ('x', 2) ∈ hexEscapes) (by decide) ?_
    simp [digits, IsHexDigit]
  have haccent : WritesChar '\'' false 'é' ['\\', 'u', '0', '0', 'E', '9'] := by
    refine .hex (by decide : ('u', 4) ∈ hexEscapes) (by decide) ?_
    simp [digits, IsHexDigit]
    decide
  have hslash : WritesChar '\'' false '\\' ['\\', '\\'] := .letter (by decide)
  have hline : WritesChar '\'' false '\n' ['\\', '0', '1', '2'] := .octal (by decide)
  have hquote : WritesChar '\'' false '\'' ['\\', '\''] := .letter (by decide)
  have hletter : WritesChar '\'' false 'a' ['a'] := .plain (by decide) (by decide) (by decide)
  have hwritten := WritesText.joined (.char hletter (.char hquote (.char hline (.char hslash
    (.char haccent (.char hcapital (.char hface hend)))))))
  have htext : "a'\n\\éJ😀".toList = ['a', '\'', '\n', '\\', 'é', 'J', '😀'] := by decide
  rw [← htext] at hwritten
  exact (tokenize_of_writesText (by decide : ['U'] ∈ [[], ['u'], ['U']]) (.inl rfl) hwritten :)

end PinnedDeps.Spelling
