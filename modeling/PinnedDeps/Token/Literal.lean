import PinnedDeps.Token.Escape
import PinnedDeps.Text.Alphanumeric

/-! Integer and string literals. A string literal is closed by the quote that opened it, or by
three of them when three opened it; in either case a character after a backslash never closes it.
A raw literal keeps its backslashes, an ordinary one reads its escapes. -/

namespace PinnedDeps.Literal

/-- The greatest integer the dialect has. -/
def maxInteger : Nat := 9223372036854775807

def isDigitOrUnderscore (c : Located Char) : Bool := c.item.isDigit || c.item = '_'

/-- An integer that starts with the digit `first`: the longest run of digits and underscores,
which no letter and no point may follow. -/
def integer (first : Located Char) (rest : List (Located Char)) :
    Except SyntaxError (Nat × List (Located Char)) :=
  let digits := ((first :: rest.takeWhile isDigitOrUnderscore).map (·.item)).filter Char.isDigit
  let after := rest.dropWhile isDigitOrUnderscore
  if after.head?.any fun c => Text.isAlphabetic c.item || c.item = '.' then
    .error ⟨first.pos, .notDecimal⟩
  else
    let value := Escape.ofDigits 10 (digits.map fun c => c.toNat - '0'.toNat)
    if value ≤ maxInteger then .ok (value, after)
    else .error ⟨first.pos, .integerTooLarge (String.ofList digits)⟩

/-- Whether the next two characters are both `quote`. -/
def twoMore (quote : Char) : List (Located Char) → Bool
  | a :: b :: _ => a.item = quote && b.item = quote
  | _ => false

/-- The rest of a string literal after its opening delimiter, with the text read so far in reverse.
Complaints point at `start`, the opening quote. -/
def stringBody (raw triple : Bool) (quote : Char) (start : Position) (done : List Char) :
    List (Located Char) → Except SyntaxError (List Char × List (Located Char))
  | [] => .error ⟨start, .unterminatedString⟩
  | c :: rest =>
    if c.item = quote then
      if !triple then .ok (done.reverse, rest)
      else if twoMore quote rest then .ok (done.reverse, rest.drop 2)
      else stringBody raw triple quote start (c.item :: done) rest
    else if c.item = '\n' && !triple then .error ⟨start, .unterminatedString⟩
    else if c.item = '\\' then
      match rest with
      | [] => .error ⟨start, .unterminatedString⟩
      | e :: rest =>
        if raw then stringBody raw triple quote start (e.item :: '\\' :: done) rest
        else
          match Escape.read start e.item rest with
          | .error err => .error err
          | .ok escape =>
            stringBody raw triple quote start (escape.text.reverse ++ done)
              (rest.drop escape.taken)
    else stringBody raw triple quote start (c.item :: done) rest
termination_by cs => cs.length
decreasing_by all_goals simp only [List.length_cons, List.length_drop]; omega

/-- A string literal whose opening quote is `quote`, with what follows it. -/
def string (raw : Bool) (quote : Located Char) (rest : List (Located Char)) :
    Except SyntaxError (List Char × List (Located Char)) :=
  if twoMore quote.item rest then stringBody raw true quote.item quote.pos [] (rest.drop 2)
  else stringBody raw false quote.item quote.pos [] rest

theorem length_of_integer {first : Located Char} {rest after : List (Located Char)} {n : Nat}
    (h : integer first rest = .ok (n, after)) : after.length ≤ rest.length := by
  simp only [integer] at h
  split at h
  · cases h
  · split at h
    · cases h; exact (List.dropWhile_sublist _).length_le
    · cases h

theorem length_of_stringBody {raw triple : Bool} {quote : Char} {start : Position}
    {done text : List Char} {cs after : List (Located Char)}
    (h : stringBody raw triple quote start done cs = .ok (text, after)) :
    after.length ≤ cs.length := by
  fun_induction stringBody raw triple quote start done cs <;> grind

theorem length_of_string {raw : Bool} {quote : Located Char} {rest after : List (Located Char)}
    {text : List Char} (h : string raw quote rest = .ok (text, after)) :
    after.length ≤ rest.length := by
  simp only [string] at h
  split at h
  · have := length_of_stringBody h; simp only [List.length_drop] at this; omega
  · exact length_of_stringBody h

end PinnedDeps.Literal
