import PinnedDeps.Syntax.Reason

/-! What a backslash means inside an ordinary string literal. An escape stands for some characters
and takes some of the characters after the one that names it: none for the letters, at most two
more digits for octal, and exactly the width for hexadecimal. -/

namespace PinnedDeps

/-- What an escape stands for, and how many characters it takes after the one that names it. -/
structure Escape where
  text : List Char
  taken : Nat

namespace Escape

def isOctal (c : Char) : Bool := '0' ≤ c && c ≤ '7'

/-- The value of a hexadecimal digit of either case. -/
def hexDigit? (c : Char) : Option Nat :=
  if '0' ≤ c ∧ c ≤ '9' then some (c.toNat - '0'.toNat)
  else if 'a' ≤ c ∧ c ≤ 'f' then some (c.toNat - 'a'.toNat + 10)
  else if 'A' ≤ c ∧ c ≤ 'F' then some (c.toNat - 'A'.toNat + 10)
  else none

/-- The number that digits, given by their values, write in base `base`. -/
def ofDigits (base : Nat) (digits : List Nat) : Nat :=
  digits.foldl (fun n d => n * base + d) 0

/-- An octal escape: its first digit and the at most two octal digits that follow. Three octal
digits stay below 512, so the code is always that of a character. -/
def octal (first : Char) (rest : List (Located Char)) : Escape :=
  let more := ((rest.take 2).map (·.item)).takeWhile isOctal
  let code := ofDigits 8 ((first :: more).map fun c => c.toNat - '0'.toNat)
  ⟨[Char.ofNat code], more.length⟩

/-- A hexadecimal escape of exactly `width` digits that gives the code of a character. Complaints
point at `start`, the opening quote of the literal. -/
def hex (start : Position) (kind : Char) (width : Nat) (rest : List (Located Char)) :
    Except SyntaxError Escape :=
  let digits := (rest.take width).map fun c => hexDigit? c.item
  if digits.length < width ∨ none ∈ digits then .error ⟨start, .truncatedEscape kind width⟩
  else
    let code := ofDigits 16 digits.reduceOption
    if code.isValidChar then .ok ⟨[Char.ofNat code], width⟩
    else .error ⟨start, .invalidEscape kind width code⟩

/-- The escape named by the character `c` after a backslash. A character that names none is kept
together with its backslash, and a backslash before a line feed joins the two lines. -/
def read (start : Position) (c : Char) (rest : List (Located Char)) : Except SyntaxError Escape :=
  match c with
  | '\n' => .ok ⟨[], 0⟩
  | '\\' => .ok ⟨['\\'], 0⟩
  | '\'' => .ok ⟨['\''], 0⟩
  | '"' => .ok ⟨['"'], 0⟩
  | 'a' => .ok ⟨['\x07'], 0⟩
  | 'b' => .ok ⟨['\x08'], 0⟩
  | 'f' => .ok ⟨['\x0c'], 0⟩
  | 'n' => .ok ⟨['\n'], 0⟩
  | 'r' => .ok ⟨['\r'], 0⟩
  | 't' => .ok ⟨['\t'], 0⟩
  | 'v' => .ok ⟨['\x0b'], 0⟩
  | 'x' => hex start 'x' 2 rest
  | 'u' => hex start 'u' 4 rest
  | 'U' => hex start 'U' 8 rest
  | 'N' => .error ⟨start, .namedEscape⟩
  | c => if isOctal c then .ok (octal c rest) else .ok ⟨['\\', c], 0⟩

end Escape

end PinnedDeps
