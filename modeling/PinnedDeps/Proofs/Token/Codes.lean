import PinnedDeps.Proofs.Token.Escapes

/-! Characters told by their codes. A reader takes one digit after the other and keeps the code in a
word of 32 bits. After every digit the word holds the very number that the digits so far write:
eight hexadecimal digits fill it and do not overflow it, and three octal digits stay below 512. So
this number alone decides an escape: if it is the code of a character the literal goes on, otherwise
it is refused at its opening quote. -/

namespace PinnedDeps

namespace Escape

open Spelling

variable {base limit width n d : Nat} {c first kind : Char} {start : Position}
  {rest ds behind : List (Located Char)}

/-! ### The reader of digits -/

/-- The value of a digit of the base. -/
def digit? (base : Nat) (c : Char) : Option Nat := (hexDigit? c).filter (· < base)

/-- A reader of digits between two of them: the code so far, the digits that it took, and what it
has left. -/
structure Reading where
  code : UInt32
  taken : List Char
  left : List (Located Char)

namespace Reading

/-- One digit more, if one stands there. Where it overflows the word wraps around. -/
def step? (base : Nat) (r : Reading) : Option Reading :=
  match r.left with
  | [] => none
  | c :: left =>
    (digit? base c.item).map fun d => ⟨r.code * .ofNat base + .ofNat d, r.taken ++ [c.item], left⟩

/-- As many steps as can be made, but `limit` of them at the most. -/
def run (base : Nat) : Nat → Reading → Reading
  | 0, r => r
  | limit + 1, r =>
    match r.step? base with
    | none => r
    | some r' => run base limit r'

/-- The word holds the number that the digits write. -/
def Holds (base : Nat) (r : Reading) : Prop := WritesIn base r.taken r.code.toNat

/-- A word has room for so many digits more. -/
def HasRoom (base limit : Nat) (r : Reading) : Prop := base ^ (r.taken.length + limit) ≤ 2 ^ 32

/-- The reader takes the digits and leaves what stands behind them. After each of them the word
holds the very number that the digits so far write, so no step overflowed it. -/
structure Takes (base limit : Nat) (r : Reading) (ds behind : List (Located Char)) : Prop where
  leading : Leading base limit r.left ds behind
  run_eq : ∀ i ≤ limit, ∃ m < 2 ^ 32,
    WritesIn base (r.taken ++ (ds.take i).map (·.item)) m ∧
      r.run base i = ⟨.ofNat m, r.taken ++ (ds.take i).map (·.item), ds.drop i ++ behind⟩

end Reading

theorem digit?_eq_some_iff (hb : base ≤ 16) :
    digit? base c = some d ↔ d < base ∧ IsHexDigit d c := by
  rw [digit?, Option.filter_eq_some_iff, decide_eq_true_iff]
  constructor
  · rintro ⟨hd, hlt⟩
    exact ⟨hlt, (isHexDigit_of_hexDigit? hd).2⟩
  · rintro ⟨hlt, hd⟩
    exact ⟨hexDigit?_of_isHexDigit (Nat.lt_of_lt_of_le hlt hb) hd, hlt⟩

theorem not_isDigit_of_digit? (hb : base ≤ 16) (h : digit? base c = none) : ¬IsDigit base c := by
  rintro ⟨d, hlt, hd⟩
  have hsome := (digit?_eq_some_iff hb).mpr ⟨hlt, hd⟩
  rw [h] at hsome
  cases hsome

namespace Reading

variable {r r' : Reading}

/-! ### One step -/

theorem exists_of_step? (hb : base ≤ 16) (h : r.step? base = some r') :
    ∃ c d, r.left = c :: r'.left ∧ d < base ∧ IsHexDigit d c.item ∧
      r'.taken = r.taken ++ [c.item] ∧ r'.code = r.code * .ofNat base + .ofNat d := by
  unfold step? at h
  split at h
  · cases h
  next c left hleft =>
  obtain ⟨d, hd, rfl⟩ := Option.map_eq_some_iff.mp h
  obtain ⟨hlt, hc⟩ := (digit?_eq_some_iff hb).mp hd
  exact ⟨c, d, hleft, hlt, hc, rfl, rfl⟩

theorem not_isDigit_of_step? (hb : base ≤ 16) (h : r.step? base = none) :
    ∀ c ∈ r.left.head?, ¬IsDigit base c.item := by
  intro c hc
  obtain ⟨left, hleft⟩ := List.head?_eq_some_iff.mp hc
  rw [step?, hleft] at h
  exact not_isDigit_of_digit? hb (Option.map_eq_none_iff.mp h)

/-- As long as there is room, a digit more is a digit more of the number in the word. -/
theorem Holds.step (hb : base ≤ 16) (hroom : r.HasRoom base (limit + 1)) (h : r.Holds base)
    (hstep : r.step? base = some r') : r'.Holds base ∧ r'.HasRoom base limit := by
  obtain ⟨c, d, -, hd, hc, htaken, hcode⟩ := exists_of_step? hb hstep
  have hwrites := h.concat hd hc
  rw [← htaken] at hwrites
  have hroom' : r'.HasRoom base limit := by
    have hlength : r'.taken.length = r.taken.length + 1 := by simp [htaken]
    unfold HasRoom at hroom ⊢
    rwa [hlength, Nat.add_assoc, Nat.add_comm 1]
  have hfits : r.code.toNat * base + d < 2 ^ 32 := by
    refine Nat.lt_of_lt_of_le hwrites.1 (Nat.le_trans ?_ hroom')
    exact Nat.pow_le_pow_right (Nat.zero_lt_of_lt hd) (Nat.le_add_right _ limit)
  have hword : r'.code.toNat = r.code.toNat * base + d := by
    have hbase : (UInt32.ofNat base).toNat = base :=
      UInt32.toNat_ofNat_of_lt' (Nat.lt_of_le_of_lt hb (by decide))
    have hdigit : (UInt32.ofNat d).toNat = d :=
      UInt32.toNat_ofNat_of_lt' (Nat.lt_of_lt_of_le hd (Nat.le_trans hb (by decide)))
    rw [hcode, UInt32.toNat_add, UInt32.toNat_mul, hbase, hdigit, Nat.mod_add_mod,
      Nat.mod_eq_of_lt hfits]
  refine ⟨?_, hroom'⟩
  unfold Holds
  rwa [hword]

/-! ### A run -/

theorem run_of_step?_none (h : r.step? base = none) (limit : Nat) : r.run base limit = r := by
  cases limit with
  | zero => rfl
  | succ limit => rw [run, h]

/-- Before the first of the digits. -/
theorem Holds.exists_run_zero (h : r.Holds base) (hleft : r.left = ds ++ behind) :
    ∃ m < 2 ^ 32, WritesIn base (r.taken ++ (ds.take 0).map (·.item)) m ∧
      r = ⟨.ofNat m, r.taken ++ (ds.take 0).map (·.item), ds.drop 0 ++ behind⟩ := by
  refine ⟨r.code.toNat, r.code.toNat_lt, ?_, ?_⟩
  · rw [List.take_zero, List.map_nil, List.append_nil]
    exact h
  · simp [← hleft]

theorem Holds.takes_nil (h : r.Holds base) (hstuck : ∀ i ≤ limit, r.run base i = r)
    (hnone : 0 < limit → ∀ c ∈ r.left.head?, ¬IsDigit base c.item) :
    r.Takes base limit [] r.left := by
  refine ⟨leading_nil hnone, fun i hi => ?_⟩
  rw [hstuck i hi, List.take_nil, List.drop_nil]
  exact h.exists_run_zero (List.nil_append r.left).symm

theorem Holds.takes_cons {c : Located Char} (h : r.Holds base) (hc : IsDigit base c.item)
    (hleft : r.left = c :: r'.left) (htaken : r'.taken = r.taken ++ [c.item])
    (hstep : r.step? base = some r') (h' : r'.Takes base limit ds behind) :
    r.Takes base (limit + 1) (c :: ds) behind := by
  refine ⟨by rw [hleft]; exact h'.leading.cons hc, fun i hi => ?_⟩
  cases i with
  | zero => exact h.exists_run_zero (by rw [hleft, h'.leading.rest_eq, List.cons_append])
  | succ i =>
    obtain ⟨m, hm, hwrites, hrun⟩ := h'.run_eq i (Nat.le_of_succ_le_succ hi)
    have htaken' : r'.taken ++ (ds.take i).map (·.item) =
        r.taken ++ ((c :: ds).take (i + 1)).map (·.item) := by
      simp [htaken]
    rw [htaken'] at hwrites hrun
    refine ⟨m, hm, hwrites, ?_⟩
    rw [run, hstep]
    exact hrun

/-- By the steps that may be made: after one, there is room for all that are left. -/
theorem Holds.exists_takes (hb : base ≤ 16) (hroom : r.HasRoom base limit) (h : r.Holds base) :
    ∃ ds behind, r.Takes base limit ds behind := by
  induction limit generalizing r with
  | zero =>
    refine ⟨[], r.left, h.takes_nil (fun i hi => ?_) nofun⟩
    obtain rfl := Nat.le_zero.mp hi
    rfl
  | succ limit ih =>
    cases hstep : r.step? base with
    | none =>
      exact ⟨[], r.left, h.takes_nil (fun i _ => run_of_step?_none hstep i)
        fun _ => not_isDigit_of_step? hb hstep⟩
    | some r' =>
      obtain ⟨c, d, hleft, hd, hc, htaken, -⟩ := exists_of_step? hb hstep
      obtain ⟨hholds, hroom'⟩ := h.step hb hroom hstep
      obtain ⟨ds, behind, htakes⟩ := ih hroom' hholds
      exact ⟨c :: ds, behind, h.takes_cons ⟨d, hd, hc⟩ hleft htaken hstep htakes⟩

/-- Behind the last of the digits. -/
theorem Takes.exists_run (h : r.Takes base limit ds behind) :
    ∃ n < 2 ^ 32, WritesIn base (r.taken ++ ds.map (·.item)) n ∧
      r.run base limit = ⟨.ofNat n, r.taken ++ ds.map (·.item), behind⟩ := by
  obtain ⟨n, hn, hwrites, hrun⟩ := h.run_eq limit (Nat.le_refl limit)
  rw [List.take_of_length_le h.leading.length_le] at hwrites hrun
  rw [List.drop_of_length_le h.leading.length_le] at hrun
  exact ⟨n, hn, hwrites, hrun⟩

end Reading

/-! ### Escapes digit by digit -/

/-- The character with a code, if there is one. -/
def charOf? (code : UInt32) : Option Char :=
  if code.toNat.isValidChar then some (Char.ofNat code.toNat) else none

/-- In front of the digits of a hexadecimal escape. -/
def hexReading (rest : List (Located Char)) : Reading := ⟨0, [], rest⟩

/-- Behind the first digit of an octal escape. -/
def octalReading (first : Char) (rest : List (Located Char)) : Reading :=
  ⟨.ofNat ((digit? 8 first).getD 0), [first], rest⟩

/-- A hexadecimal escape, its digits taken one by one. -/
def hexByDigits (start : Position) (kind : Char) (width : Nat) (rest : List (Located Char)) :
    Except SyntaxError Escape :=
  let r := (hexReading rest).run 16 width
  if r.taken.length < width then .error ⟨start, .truncatedEscape kind width⟩
  else
    match charOf? r.code with
    | some c => .ok ⟨[c], r.taken.length⟩
    | none => .error ⟨start, .invalidEscape kind width r.code.toNat⟩

/-- An octal escape, its digits taken one by one. The replacement character would stand for a code
that is not that of a character. -/
def octalByDigits (first : Char) (rest : List (Located Char)) : Escape :=
  let r := (octalReading first rest).run 8 2
  ⟨[(charOf? r.code).getD '\uFFFD'], r.taken.length - 1⟩

/-- The code is that of a character: no surrogate, and not above the last plane. -/
def IsScalar (n : Nat) : Prop := n ≤ 0x10FFFF ∧ ¬(0xD800 ≤ n ∧ n ≤ 0xDFFF)

theorem isScalar_iff : IsScalar n ↔ n.isValidChar := by
  unfold IsScalar Nat.isValidChar
  omega

theorem toNat_ofNat (h : n.isValidChar) : (Char.ofNat n).toNat = n := by
  rw [Char.ofNat, dif_pos h]
  rfl

theorem charOf?_ofNat (hn : n < 2 ^ 32) :
    charOf? (.ofNat n) = if n.isValidChar then some (Char.ofNat n) else none := by
  rw [charOf?, UInt32.toNat_ofNat_of_lt' hn]

theorem le_of_octal (h : Leading 8 2 rest ds behind)
    (hn : WritesIn 8 (first :: ds.map (·.item)) n) : n ≤ 0o777 := by
  have hlength : (first :: ds.map (·.item)).length ≤ 3 := by
    rw [List.length_cons, List.length_map]
    exact Nat.succ_le_succ h.length_le
  have hlt := Nat.lt_of_lt_of_le hn.1 (Nat.pow_le_pow_right (by decide) hlength)
  omega

theorem isValidChar_of_octal (h : n ≤ 0o777) : n.isValidChar := .inl (by omega)

/-- Eight digits at the most have room in a word. -/
theorem exists_takes_hex (hw : width ≤ 8) (rest : List (Located Char)) :
    ∃ ds behind n, (hexReading rest).Takes 16 width ds behind ∧
      WritesIn 16 (ds.map (·.item)) n := by
  have hroom : (hexReading rest).HasRoom 16 width := by
    have hpow := Nat.pow_le_pow_right (n := 16) (by decide) hw
    simpa [Reading.HasRoom, hexReading] using hpow
  have hholds : (hexReading rest).Holds 16 := writesIn_nil 16
  obtain ⟨ds, behind, htakes⟩ := hholds.exists_takes (Nat.le_refl 16) hroom
  obtain ⟨n, -, hn, -⟩ := htakes.exists_run
  exact ⟨ds, behind, n, htakes, hn⟩

theorem exists_takes_octal (h : isOctal first = true) (rest : List (Located Char)) :
    ∃ ds behind n, (octalReading first rest).Takes 8 2 ds behind ∧
      WritesIn 8 (first :: ds.map (·.item)) n := by
  obtain ⟨d, hd, hfirst⟩ := exists_of_isOctal h
  have hdigit : digit? 8 first = some d := (digit?_eq_some_iff (by decide)).mpr ⟨hd, .inl hfirst⟩
  have hword : (octalReading first rest).code.toNat = d := by
    rw [octalReading, hdigit]
    exact UInt32.toNat_ofNat_of_lt' (Nat.lt_of_lt_of_le hd (by decide))
  have hholds : (octalReading first rest).Holds 8 := by
    have hwrites := (writesIn_nil 8).concat hd (.inl hfirst)
    rw [List.nil_append, Nat.zero_mul, Nat.zero_add] at hwrites
    unfold Reading.Holds
    rwa [hword]
  have hroom : (octalReading first rest).HasRoom 8 2 := show 8 ^ (1 + 2) ≤ 2 ^ 32 by decide
  obtain ⟨ds, behind, htakes⟩ := hholds.exists_takes (by decide) hroom
  obtain ⟨n, -, hn, -⟩ := htakes.exists_run
  exact ⟨ds, behind, n, htakes, hn⟩

/-- In a word of 32 bits a hexadecimal escape is the same, also where it is refused. -/
theorem hexByDigits_of_takes (h : (hexReading rest).Takes 16 width ds behind)
    (hn : WritesIn 16 (ds.map (·.item)) n) :
    hexByDigits start kind width rest = hex start kind width rest := by
  obtain ⟨m, hm, hwrites, hrun⟩ := h.exists_run
  have hleading : Leading 16 width rest ds behind := h.leading
  have hword : (hexReading rest).run 16 width = ⟨.ofNat m, ds.map (·.item), behind⟩ := hrun
  obtain rfl : m = n := hn.unique hwrites (by decide) (by decide)
  rw [hex_of_leading hleading hn]
  simp only [hexByDigits, hword, charOf?_ofNat hm, UInt32.toNat_ofNat_of_lt' hm, List.length_map]
  split
  · rfl
  next hlt =>
  rw [hleading.length_eq hlt]
  by_cases hvalid : m.isValidChar
  · simp only [if_pos hvalid]
  · simp only [if_neg hvalid]

/-- So is an octal escape, and its code is that of a character. -/
theorem octalByDigits_of_takes (h : (octalReading first rest).Takes 8 2 ds behind)
    (hn : WritesIn 8 (first :: ds.map (·.item)) n) :
    charOf? ((octalReading first rest).run 8 2).code = some (Char.ofNat n) ∧
      octalByDigits first rest = octal first rest := by
  obtain ⟨m, hm, hwrites, hrun⟩ := h.exists_run
  have hleading : Leading 8 2 rest ds behind := h.leading
  have hword : (octalReading first rest).run 8 2 =
    ⟨.ofNat m, first :: ds.map (·.item), behind⟩ := hrun
  obtain rfl : m = n := hn.unique hwrites (by decide) (by decide)
  have hchar : charOf? (.ofNat m) = some (Char.ofNat m) := by
    rw [charOf?_ofNat hm, if_pos (isValidChar_of_octal (le_of_octal hleading hn))]
  refine ⟨by rw [hword, hchar], ?_⟩
  rw [octal_of_leading hleading hn]
  simp only [octalByDigits, hword, hchar, Option.getD_some, List.length_cons, List.length_map,
    Nat.add_sub_cancel]

/-! ### What decides a hexadecimal escape -/

theorem hex_eq_ok (h : Leading 16 width rest ds behind) (hn : WritesIn 16 (ds.map (·.item)) n)
    (hlength : ds.length = width) (hscalar : IsScalar n) (start : Position) (kind : Char) :
    ∃ c, c.toNat = n ∧ hex start kind width rest = .ok ⟨[c], width⟩ := by
  have hvalid := isScalar_iff.mp hscalar
  refine ⟨Char.ofNat n, toNat_ofNat hvalid, ?_⟩
  rw [hex_of_leading h hn, if_neg (by omega), if_pos hvalid]

theorem hex_eq_error (h : Leading 16 width rest ds behind) (hn : WritesIn 16 (ds.map (·.item)) n)
    (hrefused : ¬(ds.length = width ∧ IsScalar n)) (start : Position) (kind : Char) :
    hex start kind width rest = .error ⟨start,
      if ds.length < width then .truncatedEscape kind width else .invalidEscape kind width n⟩ := by
  rw [hex_of_leading h hn]
  by_cases hlt : ds.length < width
  · rw [if_pos hlt, if_pos hlt]
  · have hinvalid : ¬n.isValidChar := fun hvalid =>
      hrefused ⟨h.length_eq hlt, isScalar_iff.mpr hvalid⟩
    rw [if_neg hlt, if_neg hlt, if_neg hinvalid]

theorem le_of_hexEscape (h : (kind, width) ∈ hexEscapes) : width ≤ 8 := by
  have hall : ∀ e ∈ hexEscapes, e.2 ≤ 8 := by decide
  exact hall _ h

end Escape

namespace Literal

open Lexer

variable {quote : Located Char} {cs rest behind : List (Located Char)} {triple : Bool}
  {done : List Char} {first : Char}

/-! ### Escapes in literals -/

/-- Reading the ordinary literal that `quote` opens comes to `rest`, and `done` is its text so far,
in reverse. -/
inductive Reaches (quote : Located Char) (cs : List (Located Char)) :
    Bool → List Char → List (Located Char) → Prop where
  | one : twoMore quote.item cs = false → Reaches quote cs false [] cs
  | three : twoMore quote.item cs = true → Reaches quote cs true [] (cs.drop 2)
  | char {triple : Bool} {done : List Char} {c : Located Char} {rest : List (Located Char)} :
      Reaches quote cs triple done (c :: rest) → c.item ≠ quote.item → c.item ≠ '\\' →
      (triple = false → c.item ≠ '\n') → Reaches quote cs triple (c.item :: done) rest
  | quote {done : List Char} {c : Located Char} {rest : List (Located Char)} :
      Reaches quote cs true done (c :: rest) → c.item = quote.item →
      twoMore quote.item rest = false → Reaches quote cs true (c.item :: done) rest
  | escape {triple : Bool} {done : List Char} {b e : Located Char} {rest : List (Located Char)}
      {escape : Escape} :
      Reaches quote cs triple done (b :: e :: rest) → b.item = '\\' →
      Escape.read quote.pos e.item rest = .ok escape →
      Reaches quote cs triple (escape.text.reverse ++ done) (rest.drop escape.taken)

/-- An ordinary literal that comes to the escape has `c` next in its text and is read on from
`behind`. -/
def GoesOn (quote : Located Char) (first : Char) (rest : List (Located Char)) (c : Char)
    (behind : List (Located Char)) : Prop :=
  ∀ cs triple done p q, Reaches quote cs triple done (⟨p, '\\'⟩ :: ⟨q, first⟩ :: rest) →
    Reaches quote cs triple (c :: done) behind ∧
      string false quote cs = stringBody false triple quote.item quote.pos (c :: done) behind

/-- An ordinary literal that comes to the escape is refused at the quote that opened it. -/
def Fails (quote : Located Char) (first : Char) (rest : List (Located Char)) (reason : Reason) :
    Prop :=
  ∀ cs triple done p q, Reaches quote cs triple done (⟨p, '\\'⟩ :: ⟨q, first⟩ :: rest) →
    string false quote cs = .error ⟨quote.pos, reason⟩

/-- By the characters and escapes read so far: what is left is read as the rest of the literal. -/
theorem Reaches.string_eq (hq : isQuote quote.item = true) (h : Reaches quote cs triple done rest) :
    string false quote cs = stringBody false triple quote.item quote.pos done rest := by
  induction h with
  | one h => rw [string, h, if_neg Bool.false_ne_true]
  | three h => rw [string, if_pos h]
  | char _ hquote hslash hline ih => rw [ih, stringBody_char hquote hslash hline]
  | @quote _ c _ _ hc hmore ih =>
    obtain ⟨p, ch⟩ := c
    obtain rfl : ch = quote.item := hc
    rw [ih, stringBody_quote hmore]
  | @escape _ _ b _ _ _ _ hb hread ih =>
    obtain ⟨p, ch⟩ := b
    obtain rfl : ch = '\\' := hb
    rw [ih, stringBody_escape hq hread]

theorem fails_of_read (hq : isQuote quote.item = true) {reason : Reason}
    (hread : Escape.read quote.pos first rest = .error ⟨quote.pos, reason⟩) :
    Fails quote first rest reason := by
  intro cs triple done p q h
  rw [h.string_eq hq, stringBody.eq_def]
  simp [ne_of_isQuote hq (c := '\\') rfl, hread]

theorem goesOn_of_read (hq : isQuote quote.item = true) {base limit : Nat}
    {ds : List (Located Char)} {c : Char} (h : Spelling.Leading base limit rest ds behind)
    (hread : Escape.read quote.pos first rest = .ok ⟨[c], ds.length⟩) :
    GoesOn quote first rest c behind := by
  intro cs triple done p q hreaches
  have hnext : Reaches quote cs triple (c :: done) behind := by
    rw [h.behind_eq]
    exact hreaches.escape rfl hread
  exact ⟨hnext, hnext.string_eq hq⟩

end Literal

namespace Escape

open Lexer Literal Spelling

/-- Of a hexadecimal escape the digits are taken up to its width and nothing else is; the word of 32
bits holds the number that they write at every point. If all are there and the number is the code of
a character, the escape stands for this character and the literal goes on behind the digits; else
the literal is refused at its opening quote. Of an octal escape at most two digits are taken behind
the first, all that there are up to then, and it stands for the character whose code they write. -/
theorem numeric_escapes_exact {quote : Located Char} (hq : isQuote quote.item = true)
    (rest : List (Located Char)) :
    (∀ kind width, (kind, width) ∈ hexEscapes → ∃ ds behind n,
      (hexReading rest).Takes 16 width ds behind ∧
      (∀ m, WritesIn 16 (ds.map (·.item)) m ↔ m = n) ∧
      read quote.pos kind rest = hexByDigits quote.pos kind width rest ∧
      (ds.length = width ∧ IsScalar n → ∃ c, c.toNat = n ∧
        read quote.pos kind rest = .ok ⟨[c], width⟩ ∧ GoesOn quote kind rest c behind) ∧
      (¬(ds.length = width ∧ IsScalar n) →
        let reason : Reason :=
          if ds.length < width then .truncatedEscape kind width else .invalidEscape kind width n
        read quote.pos kind rest = .error ⟨quote.pos, reason⟩ ∧ Fails quote kind rest reason)) ∧
    ∀ first, isOctal first = true → ∃ ds behind n c,
      (octalReading first rest).Takes 8 2 ds behind ∧
      (∀ m, WritesIn 8 (first :: ds.map (·.item)) m ↔ m = n) ∧ n ≤ 0o777 ∧ c.toNat = n ∧
      charOf? ((octalReading first rest).run 8 2).code = some c ∧
      read quote.pos first rest = .ok (octalByDigits first rest) ∧
      octalByDigits first rest = ⟨[c], ds.length⟩ ∧ GoesOn quote first rest c behind := by
  refine ⟨fun kind width hk => ?_, fun first hfirst => ?_⟩
  · obtain ⟨ds, behind, n, htakes, hn⟩ := exists_takes_hex (le_of_hexEscape hk) rest
    have hleading : Leading 16 width rest ds behind := htakes.leading
    rw [read_of_hexEscape hk, hexByDigits_of_takes htakes hn]
    refine ⟨ds, behind, n, htakes, fun m => hn.eq_iff (by decide) (by decide), rfl, ?_,
      fun hrefused => ?_⟩
    · rintro ⟨hlength, hscalar⟩
      obtain ⟨c, hc, hok⟩ := hex_eq_ok hleading hn hlength hscalar quote.pos kind
      refine ⟨c, hc, hok, goesOn_of_read hq hleading ?_⟩
      rw [read_of_hexEscape hk, hok, hlength]
    · have herror := hex_eq_error hleading hn hrefused quote.pos kind
      exact ⟨herror, fails_of_read hq ((read_of_hexEscape hk _ _).trans herror)⟩
  · obtain ⟨ds, behind, n, htakes, hn⟩ := exists_takes_octal hfirst rest
    have hleading : Leading 8 2 rest ds behind := htakes.leading
    have hle : n ≤ 0o777 := le_of_octal hleading hn
    obtain ⟨hchar, hdigits⟩ := octalByDigits_of_takes htakes hn
    have hoctal := octal_of_leading hleading hn
    have hread := read_of_isOctal hfirst quote.pos rest
    refine ⟨ds, behind, n, Char.ofNat n, htakes, fun m => hn.eq_iff (by decide) (by decide), hle,
      toNat_ofNat (isValidChar_of_octal hle), hchar, by rw [hread, hdigits],
      by rw [hdigits, hoctal], goesOn_of_read hq hleading ?_⟩
    rw [hread, hoctal]

/-- Eight digits that fill the word, the greatest code with a ninth digit behind it, and three octal
digits with a fourth behind them. -/
theorem numeric_escapes_exact_fullWord :
    let quote : Located Char := ⟨⟨1, 5⟩, '\''⟩
    let full := ['F', 'F', 'F', 'F', 'F', 'F', 'F', 'F', '\'']
    let greatest := ['0', '0', '1', '0', 'F', 'f', 'F', 'f', 'F', '\'']
    isQuote quote.item = true ∧ ('U', 8) ∈ hexEscapes ∧ isOctal '7' = true ∧
      string false quote (Source.locate ⟨1, 6⟩ ('\\' :: 'U' :: full)) =
        .error ⟨⟨1, 5⟩, .invalidEscape 'U' 8 0xFFFFFFFF⟩ ∧
      Reaches quote (Source.locate ⟨1, 6⟩ ('\\' :: 'U' :: greatest)) false [Char.ofNat 0x10FFFF]
        (Source.locate ⟨1, 16⟩ ['F', '\'']) ∧
      Reaches quote (Source.locate ⟨1, 6⟩ ['\\', '7', '7', '7', '7', '\'']) false ['ǿ']
        (Source.locate ⟨1, 10⟩ ['7', '\'']) := by
  intro quote full greatest
  have hq : isQuote quote.item = true := rfl
  have hlong : ('U', 8) ∈ hexEscapes := by decide
  have hseven : isOctal '7' = true := by decide
  refine ⟨hq, hlong, hseven, ?_, ?_, ?_⟩
  · have hread : read quote.pos 'U' (Source.locate ⟨1, 8⟩ full) =
        .error ⟨quote.pos, .invalidEscape 'U' 8 0xFFFFFFFF⟩ := rfl
    obtain ⟨ds, behind, n, -, -, -, haccepted, hrefused⟩ :=
      (numeric_escapes_exact hq (Source.locate ⟨1, 8⟩ full)).1 'U' 8 hlong
    have hnone : ¬(ds.length = 8 ∧ IsScalar n) := by
      intro h
      obtain ⟨c, -, hok, -⟩ := haccepted h
      rw [hread] at hok
      cases hok
    obtain ⟨herror, hfails⟩ := hrefused hnone
    rw [hread] at herror
    injection herror with herror
    injection herror with _ hreason
    rw [← hreason] at hfails
    exact hfails _ false [] ⟨1, 6⟩ ⟨1, 7⟩ (.one rfl)
  · have hread : read quote.pos 'U' (Source.locate ⟨1, 8⟩ greatest) =
        .ok ⟨[Char.ofNat 0x10FFFF], 8⟩ := rfl
    obtain ⟨ds, behind, n, htakes, -, -, haccepted, hrefused⟩ :=
      (numeric_escapes_exact hq (Source.locate ⟨1, 8⟩ greatest)).1 'U' 8 hlong
    have hall : ds.length = 8 ∧ IsScalar n := by
      by_contra h
      obtain ⟨herror, -⟩ := hrefused h
      rw [hread] at herror
      cases herror
    obtain ⟨c, -, hok, hgoes⟩ := haccepted hall
    rw [hread] at hok
    obtain ⟨hc, -⟩ := Escape.mk.inj (Except.ok.inj hok)
    rw [← List.singleton_inj.mp hc, htakes.leading.behind_eq, hall.1] at hgoes
    exact (hgoes _ false [] ⟨1, 6⟩ ⟨1, 7⟩ (.one rfl)).1
  · have hescape : octalByDigits '7' (Source.locate ⟨1, 8⟩ ['7', '7', '7', '\'']) =
        ⟨['ǿ'], 2⟩ := rfl
    obtain ⟨ds, behind, n, c, htakes, -, -, -, -, -, hdigits, hgoes⟩ :=
      (numeric_escapes_exact hq (Source.locate ⟨1, 8⟩ ['7', '7', '7', '\''])).2 '7' hseven
    rw [hescape] at hdigits
    obtain ⟨hc, hlength⟩ := Escape.mk.inj hdigits
    rw [← List.singleton_inj.mp hc, htakes.leading.behind_eq, ← hlength] at hgoes
    exact (hgoes _ false [] ⟨1, 6⟩ ⟨1, 7⟩ (.one rfl)).1

end Escape

end PinnedDeps
