import PinnedDeps.Manifest.Json
import PinnedDeps.Token.Escape
import Mathlib.Data.List.Basic

/-! What JSON texts say. A derivation reads a value from the front of some characters and leaves the
rest: a word, a number, a text in quotes, or values between brackets or braces, with blanks around
each of them. What a text says depends on nothing but the text, however its characters are escaped
and wherever its blanks are. -/

namespace PinnedDeps.Json

/-- What a JSON text can say. A number is told by its digits, an object by its members in their
order. -/
inductive Value where
  | null
  | bool (b : Bool)
  | number (written : List Char)
  | text (text : String)
  | array (items : List Value)
  | object (members : List (String × Value))

/-! ### Characters inside quotes -/

/-- The letters of the escapes that stand for one character each. -/
def letterEscapes : List (Char × Char) :=
  [('"', '"'), ('\\', '\\'), ('/', '/'), ('b', '\x08'), ('f', '\x0c'), ('n', '\n'), ('r', '\r'),
    ('t', '\t')]

/-- Four hexadecimal digits and the number that they write. -/
def Codes (written : List Char) (n : Nat) : Prop :=
  written.length = 4 ∧ ∃ values, written.map Escape.hexDigit? = values.map some ∧
    n = Escape.ofDigits 16 values

/-- What is written between quotes for a character: itself unless it is a quote, a backslash or a
control character, the letter of an escape, its code, or a pair of surrogates. -/
inductive Spells : List Char → Char → Prop where
  | plain {c : Char} : 0x20 ≤ c.toNat → c ≠ '"' → c ≠ '\\' → Spells [c] c
  | letter {letter c : Char} : (letter, c) ∈ letterEscapes → Spells ['\\', letter] c
  | code {written : List Char} {c : Char} :
      Codes written c.toNat → Spells ('\\' :: 'u' :: written) c
  | surrogates {high low : List Char} {m n : Nat} {c : Char} :
      Codes high m → Codes low n → 0xd800 ≤ m → m < 0xdc00 → 0xdc00 ≤ n → n < 0xe000 →
      c.toNat = 0x10000 + (m - 0xd800) * 0x400 + (n - 0xdc00) →
      Spells ('\\' :: 'u' :: (high ++ '\\' :: 'u' :: low)) c

/-- The characters up to the closing quote, and what is behind it. -/
inductive ReadsText : List Char → List Char → List Char → Prop where
  | close (rest : List Char) : ReadsText ('"' :: rest) [] rest
  | char {word cs text rest : List Char} {c : Char} :
      Spells word c → ReadsText cs text rest → ReadsText (word ++ cs) (c :: text) rest

/-! ### Values -/

def isBlank (c : Char) : Bool := c = ' ' || c = '\t' || c = '\n' || c = '\r'

def skip (cs : List Char) : List Char := cs.dropWhile isBlank

/-- The characters of which numbers consist. -/
def isNumeric (c : Char) : Bool := c.isDigit || c ∈ ['-', '+', '.', 'e', 'E']

def IsDigits (cs : List Char) : Prop := cs ≠ [] ∧ ∀ c ∈ cs, c.isDigit = true

/-- A whole number without leading zeros, its sign before it, a fraction and an exponent behind it
as wanted. -/
def IsNumber (cs : List Char) : Prop :=
  ∃ sign whole fraction exponent, cs = sign ++ whole ++ fraction ++ exponent ∧
    (sign = [] ∨ sign = ['-']) ∧
    (IsDigits whole ∧ (whole.head? = some '0' → whole = ['0'])) ∧
    (fraction = [] ∨ ∃ digits, fraction = '.' :: digits ∧ IsDigits digits) ∧
    (exponent = [] ∨ ∃ e sign digits, exponent = e :: (sign ++ digits) ∧ (e = 'e' ∨ e = 'E') ∧
      (sign = [] ∨ sign = ['+'] ∨ sign = ['-']) ∧ IsDigits digits)

mutual

/-- The value that some characters begin with, and what is left behind it. -/
inductive Reads : List Char → Value → List Char → Prop where
  | null (rest : List Char) : Reads ('n' :: 'u' :: 'l' :: 'l' :: rest) .null rest
  | true (rest : List Char) : Reads ('t' :: 'r' :: 'u' :: 'e' :: rest) (.bool Bool.true) rest
  | false (rest : List Char) :
      Reads ('f' :: 'a' :: 'l' :: 's' :: 'e' :: rest) (.bool Bool.false) rest
  | number {cs : List Char} : IsNumber (cs.takeWhile isNumeric) →
      Reads cs (.number (cs.takeWhile isNumeric)) (cs.dropWhile isNumeric)
  | text {cs text rest : List Char} :
      ReadsText cs text rest → Reads ('"' :: cs) (.text (String.ofList text)) rest
  | emptyArray {cs rest : List Char} :
      skip cs = ']' :: rest → Reads ('[' :: cs) (.array []) rest
  | array {cs rest : List Char} {items : List Value} :
      ReadsItems cs items rest → Reads ('[' :: cs) (.array items) rest
  | emptyObject {cs rest : List Char} :
      skip cs = '\x7d' :: rest → Reads ('\x7b' :: cs) (.object []) rest
  | object {cs rest : List Char} {members : List (String × Value)} :
      ReadsMembers cs members rest → Reads ('\x7b' :: cs) (.object members) rest

/-- One item or several up to the closing bracket, and what is behind it. -/
inductive ReadsItems : List Char → List Value → List Char → Prop where
  | last {cs behind rest : List Char} {item : Value} :
      Reads (skip cs) item behind → skip behind = ']' :: rest → ReadsItems cs [item] rest
  | more {cs behind next rest : List Char} {item : Value} {items : List Value} :
      Reads (skip cs) item behind → skip behind = ',' :: next → ReadsItems next items rest →
      ReadsItems cs (item :: items) rest

/-- A name in quotes, a colon and a value. -/
inductive ReadsMember : List Char → String × Value → List Char → Prop where
  | mk {cs inside name behind next rest : List Char} {value : Value} :
      skip cs = '"' :: inside → ReadsText inside name behind → skip behind = ':' :: next →
      Reads (skip next) value rest → ReadsMember cs (String.ofList name, value) rest

/-- One member or several up to the closing brace, and what is behind it. -/
inductive ReadsMembers : List Char → List (String × Value) → List Char → Prop where
  | last {cs behind rest : List Char} {member : String × Value} :
      ReadsMember cs member behind → skip behind = '\x7d' :: rest → ReadsMembers cs [member] rest
  | more {cs behind next rest : List Char} {member : String × Value}
      {members : List (String × Value)} :
      ReadsMember cs member behind → skip behind = ',' :: next → ReadsMembers next members rest →
      ReadsMembers cs (member :: members) rest

end

/-- The text consists of the value and blanks around it. -/
def Says (text : String) (value : Value) : Prop :=
  ∃ behind, Reads (skip text.toList) value behind ∧ skip behind = []

/-! ### Blanks -/

theorem skip_append {blanks : List Char} (h : ∀ c ∈ blanks, isBlank c = true) (cs : List Char) :
    skip (blanks ++ cs) = skip cs := List.dropWhile_append_of_pos h

theorem skip_blank {c : Char} (h : isBlank c = true) (cs : List Char) : skip (c :: cs) = skip cs :=
  List.dropWhile_cons_of_pos h

theorem skip_cons {c : Char} (h : isBlank c = false) (cs : List Char) : skip (c :: cs) = c :: cs :=
  List.dropWhile_cons_of_neg (by simp [h])

/-! ### There is only one reading -/

section

variable {cs rest rest' text text' word word' written written' : List Char} {c c' : Char}
  {m n : Nat} {items : List Value} {members : List (String × Value)}

theorem Codes.unique (h : Codes written m) (h' : Codes written' n)
    (heq : written ++ rest = written' ++ rest') : m = n ∧ rest = rest' := by
  obtain ⟨hlength, values, hvalues, rfl⟩ := h
  obtain ⟨hlength', values', hvalues', rfl⟩ := h'
  obtain ⟨rfl, hrest⟩ := List.append_inj heq (hlength.trans hlength'.symm)
  rw [hvalues] at hvalues'
  rw [List.map_injective_iff.mpr (fun _ _ => Option.some.inj) hvalues']
  exact ⟨rfl, hrest⟩

theorem letterEscapes_unique {letter : Char} (h : (letter, c) ∈ letterEscapes)
    (h' : (letter, c') ∈ letterEscapes) : c = c' := by
  have hall : ∀ p ∈ letterEscapes, ∀ q ∈ letterEscapes, p.1 = q.1 → p.2 = q.2 := by decide
  exact hall _ h _ h' rfl

theorem u_not_mem_letterEscapes (c : Char) : ('u', c) ∉ letterEscapes := by
  have hall : ∀ p ∈ letterEscapes, p.1 ≠ 'u' := by decide
  exact fun h => hall _ h rfl

/-- No character has the code of a surrogate. -/
theorem toNat_of_surrogate (c : Char) (h : 0xd800 ≤ c.toNat) : 0xdc00 ≤ c.toNat := by
  have hvalid : c.toNat < 0xd800 ∨ 0xdfff < c.toNat ∧ c.toNat < 0x110000 := c.valid
  omega

theorem not_isNumber_nil : ¬IsNumber [] := by
  rintro ⟨sign, whole, fraction, exponent, hcs, -, ⟨⟨hwhole, -⟩, -⟩, -⟩
  simp at hcs
  exact hwhole hcs.2.1

/-- A number begins with one of its characters. -/
theorem not_isNumber_of_head (hc : isNumeric c = false) :
    ¬IsNumber ((c :: cs).takeWhile isNumeric) := by
  rw [List.takeWhile_cons_of_neg (by simp [hc])]
  exact not_isNumber_nil

theorem Spells.exists_head (h : Spells word c) :
    ∃ first more, word = first :: more ∧ first ≠ '"' := by
  cases h with
  | plain _ hquote _ => exact ⟨_, _, rfl, hquote⟩
  | letter _ => exact ⟨_, _, rfl, by decide⟩
  | code _ => exact ⟨_, _, rfl, by decide⟩
  | surrogates _ _ _ _ _ _ _ => exact ⟨_, _, rfl, by decide⟩

theorem Spells.unique (h : Spells word c) (h' : Spells word' c')
    (heq : word ++ rest = word' ++ rest') : c = c' ∧ rest = rest' := by
  cases h with
  | plain _ _ hslash =>
    cases h' with
    | plain => exact List.cons.inj heq
    | _ => exact absurd (List.cons.inj heq).1 hslash
  | letter hletter =>
    cases h' with
    | plain _ _ hslash => exact absurd (List.cons.inj heq).1.symm hslash
    | letter hletter' =>
      obtain ⟨rfl, hrest⟩ := List.cons.inj (List.cons.inj heq).2
      exact ⟨letterEscapes_unique hletter hletter', hrest⟩
    | _ =>
      obtain ⟨rfl, -⟩ := List.cons.inj (List.cons.inj heq).2
      exact absurd hletter (u_not_mem_letterEscapes _)
  | code hcode =>
    cases h' with
    | plain _ _ hslash => exact absurd (List.cons.inj heq).1.symm hslash
    | letter hletter' =>
      obtain ⟨rfl, -⟩ := List.cons.inj (List.cons.inj heq).2
      exact absurd hletter' (u_not_mem_letterEscapes _)
    | code hcode' =>
      obtain ⟨hc, hrest⟩ := hcode.unique hcode' (List.cons.inj (List.cons.inj heq).2).2
      exact ⟨Char.toNat_inj.mp hc, hrest⟩
    | surrogates hhigh _ hfrom hbelow _ _ _ =>
      simp only [List.cons_append, List.append_assoc, List.cons.injEq, true_and] at heq
      obtain ⟨rfl, -⟩ := hcode.unique hhigh heq
      exact absurd (toNat_of_surrogate c hfrom) (Nat.not_le.mpr hbelow)
  | surrogates hhigh hlow hfrom hbelow _ _ hc =>
    cases h' with
    | plain _ _ hslash => exact absurd (List.cons.inj heq).1.symm hslash
    | letter hletter' =>
      obtain ⟨rfl, -⟩ := List.cons.inj (List.cons.inj heq).2
      exact absurd hletter' (u_not_mem_letterEscapes _)
    | code hcode' =>
      simp only [List.cons_append, List.append_assoc, List.cons.injEq, true_and] at heq
      obtain ⟨rfl, -⟩ := hhigh.unique hcode' heq
      exact absurd (toNat_of_surrogate c' hfrom) (Nat.not_le.mpr hbelow)
    | surrogates hhigh' hlow' _ _ _ _ hc' =>
      simp only [List.cons_append, List.append_assoc, List.cons.injEq, true_and] at heq
      obtain ⟨rfl, hbehind⟩ := hhigh.unique hhigh' heq
      simp only [List.cons.injEq, true_and] at hbehind
      obtain ⟨rfl, hrest⟩ := hlow.unique hlow' hbehind
      exact ⟨Char.toNat_inj.mp (hc.trans hc'.symm), hrest⟩

theorem ReadsText.unique (h : ReadsText cs text rest) (h' : ReadsText cs text' rest') :
    text = text' ∧ rest = rest' := by
  induction h generalizing text' with
  | close rest =>
    generalize hcs : '"' :: rest = cs at h'
    cases h' with
    | close _ => exact ⟨rfl, (List.cons.inj hcs).2⟩
    | char hspells _ =>
      obtain ⟨first, more, rfl, hfirst⟩ := hspells.exists_head
      exact absurd (List.cons.inj hcs).1.symm hfirst
  | @char word cs text rest c hspells _ ih =>
    generalize hcs : word ++ cs = all at h'
    cases h' with
    | close _ =>
      obtain ⟨first, more, rfl, hfirst⟩ := hspells.exists_head
      exact absurd (List.cons.inj hcs).1 hfirst
    | char hspells' hrest' =>
      obtain ⟨rfl, rfl⟩ := hspells.unique hspells' hcs
      obtain ⟨rfl, hrest⟩ := ih hrest'
      exact ⟨rfl, hrest⟩

theorem ReadsItems.ne_closeBracket (h : ReadsItems cs items rest) (more : List Char) :
    skip cs ≠ ']' :: more := by
  intro hclose
  cases h with
  | last hitem _ =>
    rw [hclose] at hitem
    cases hitem with
    | number hnumber => exact not_isNumber_of_head (by decide) hnumber
  | more hitem _ _ =>
    rw [hclose] at hitem
    cases hitem with
    | number hnumber => exact not_isNumber_of_head (by decide) hnumber

theorem ReadsMembers.ne_closeBrace (h : ReadsMembers cs members rest) (more : List Char) :
    skip cs ≠ '\x7d' :: more := by
  intro hclose
  cases h with
  | last hmember _ =>
    cases hmember with
    | mk hquote _ _ _ =>
      rw [hclose] at hquote
      cases hquote
  | more hmember _ _ =>
    cases hmember with
    | mk hquote _ _ _ =>
      rw [hclose] at hquote
      cases hquote

end

mutual

theorem Reads.unique {cs rest : List Char} {value : Value} : Reads cs value rest →
    ∀ {value' rest'}, Reads cs value' rest' → value = value' ∧ rest = rest'
  | .null _, _, _, h' => by
    cases h' with
    | null => exact ⟨rfl, rfl⟩
    | number hnumber => exact absurd hnumber (not_isNumber_of_head (by decide))
  | .true _, _, _, h' => by
    cases h' with
    | true => exact ⟨rfl, rfl⟩
    | number hnumber => exact absurd hnumber (not_isNumber_of_head (by decide))
  | .false _, _, _, h' => by
    cases h' with
    | false => exact ⟨rfl, rfl⟩
    | number hnumber => exact absurd hnumber (not_isNumber_of_head (by decide))
  | .number hnumber, _, _, h' => by
    cases h' with
    | number => exact ⟨rfl, rfl⟩
    | _ => exact absurd hnumber (not_isNumber_of_head (by decide))
  | .text htext, _, _, h' => by
    cases h' with
    | number hnumber => exact absurd hnumber (not_isNumber_of_head (by decide))
    | text htext' =>
      obtain ⟨rfl, hrest⟩ := htext.unique htext'
      exact ⟨rfl, hrest⟩
  | .emptyArray hclose, _, _, h' => by
    cases h' with
    | number hnumber => exact absurd hnumber (not_isNumber_of_head (by decide))
    | emptyArray hclose' => exact ⟨rfl, (List.cons.inj (hclose.symm.trans hclose')).2⟩
    | array hitems' => exact absurd hclose (hitems'.ne_closeBracket _)
  | .array hitems, _, _, h' => by
    cases h' with
    | number hnumber => exact absurd hnumber (not_isNumber_of_head (by decide))
    | emptyArray hclose' => exact absurd hclose' (hitems.ne_closeBracket _)
    | array hitems' =>
      obtain ⟨rfl, hrest⟩ := hitems.unique hitems'
      exact ⟨rfl, hrest⟩
  | .emptyObject hclose, _, _, h' => by
    cases h' with
    | number hnumber => exact absurd hnumber (not_isNumber_of_head (by decide))
    | emptyObject hclose' => exact ⟨rfl, (List.cons.inj (hclose.symm.trans hclose')).2⟩
    | object hmembers' => exact absurd hclose (hmembers'.ne_closeBrace _)
  | .object hmembers, _, _, h' => by
    cases h' with
    | number hnumber => exact absurd hnumber (not_isNumber_of_head (by decide))
    | emptyObject hclose' => exact absurd hclose' (hmembers.ne_closeBrace _)
    | object hmembers' =>
      obtain ⟨rfl, hrest⟩ := hmembers.unique hmembers'
      exact ⟨rfl, hrest⟩

theorem ReadsItems.unique {cs rest : List Char} {items : List Value} : ReadsItems cs items rest →
    ∀ {items' rest'}, ReadsItems cs items' rest' → items = items' ∧ rest = rest'
  | .last hitem hclose, _, _, h' => by
    cases h' with
    | last hitem' hclose' =>
      obtain ⟨rfl, rfl⟩ := hitem.unique hitem'
      exact ⟨rfl, (List.cons.inj (hclose.symm.trans hclose')).2⟩
    | more hitem' hcomma' _ =>
      obtain ⟨rfl, rfl⟩ := hitem.unique hitem'
      cases hclose.symm.trans hcomma'
  | .more hitem hcomma hitems, _, _, h' => by
    cases h' with
    | last hitem' hclose' =>
      obtain ⟨rfl, rfl⟩ := hitem.unique hitem'
      cases hcomma.symm.trans hclose'
    | more hitem' hcomma' hitems' =>
      obtain ⟨rfl, rfl⟩ := hitem.unique hitem'
      obtain ⟨-, rfl⟩ := List.cons.inj (hcomma.symm.trans hcomma')
      obtain ⟨rfl, hrest⟩ := hitems.unique hitems'
      exact ⟨rfl, hrest⟩

theorem ReadsMember.unique {cs rest : List Char} {member : String × Value} :
    ReadsMember cs member rest →
    ∀ {member' rest'}, ReadsMember cs member' rest' → member = member' ∧ rest = rest'
  | .mk hquote hname hcolon hvalue, _, _, h' => by
    cases h' with
    | mk hquote' hname' hcolon' hvalue' =>
      obtain ⟨-, rfl⟩ := List.cons.inj (hquote.symm.trans hquote')
      obtain ⟨rfl, rfl⟩ := hname.unique hname'
      obtain ⟨-, rfl⟩ := List.cons.inj (hcolon.symm.trans hcolon')
      obtain ⟨rfl, hrest⟩ := hvalue.unique hvalue'
      exact ⟨rfl, hrest⟩

theorem ReadsMembers.unique {cs rest : List Char} {members : List (String × Value)} :
    ReadsMembers cs members rest →
    ∀ {members' rest'}, ReadsMembers cs members' rest' → members = members' ∧ rest = rest'
  | .last hmember hclose, _, _, h' => by
    cases h' with
    | last hmember' hclose' =>
      obtain ⟨rfl, rfl⟩ := hmember.unique hmember'
      exact ⟨rfl, (List.cons.inj (hclose.symm.trans hclose')).2⟩
    | more hmember' hcomma' _ =>
      obtain ⟨rfl, rfl⟩ := hmember.unique hmember'
      cases hclose.symm.trans hcomma'
  | .more hmember hcomma hmembers, _, _, h' => by
    cases h' with
    | last hmember' hclose' =>
      obtain ⟨rfl, rfl⟩ := hmember.unique hmember'
      cases hcomma.symm.trans hclose'
    | more hmember' hcomma' hmembers' =>
      obtain ⟨rfl, rfl⟩ := hmember.unique hmember'
      obtain ⟨-, rfl⟩ := List.cons.inj (hcomma.symm.trans hcomma')
      obtain ⟨rfl, hrest⟩ := hmembers.unique hmembers'
      exact ⟨rfl, hrest⟩

end

/-- A text says at most one value. -/
theorem Says.unique {text : String} {value value' : Value} (h : Says text value)
    (h' : Says text value') : value = value' := by
  obtain ⟨_, hreads, -⟩ := h
  obtain ⟨_, hreads', -⟩ := h'
  exact (hreads.unique hreads').1

end PinnedDeps.Json
