import PinnedDeps.Token
import PinnedDeps.Value

/-! Why a text of the DEPS dialect is refused. The cause is kept as data; the wording is given once,
by `Reason.message`. -/

namespace PinnedDeps

inductive Reason where
  -- about characters
  | strayBackslash
  | unexpectedCharacter (c : Char)
  | comparison
  | unsupportedQuotePrefix (word : String)
  | notDecimal
  | integerTooLarge (digits : String)
  | unterminatedString
  | truncatedEscape (kind : Char) (width : Nat)
  | invalidEscape (kind : Char) (width : Nat) (code : Nat)
  | namedEscape
  | tooDeep
  -- about tokens
  | expectedAssignment (found : Lexeme)
  | notAnAssignment (target : String) (found : Lexeme)
  | unexpectedAfterValue (target : String) (found : Lexeme)
  | expectedValue (found : Lexeme)
  | unsupportedCall (name : String)
  | nameReference (name : String)
  | tuple
  | unclosedParen (found : Lexeme)
  | unclosedVar (found : Lexeme)
  | listSeparator (found : Lexeme)
  | missingColon (found : Lexeme)
  | entrySeparator (found : Lexeme)
  -- about values
  | keyNotString (found : Value.Kind)
  | varNotString (found : Value.Kind)
  | unsupportedSum (left right : Value.Kind)
  | notAMapping (target : String) (found : Value.Kind)
  deriving DecidableEq, Repr

/-- A refusal with the place it points at. -/
abbrev SyntaxError := Located Reason

namespace Reason

/-- The hexadecimal digits of `code`, with zeros in front up to `width` digits. -/
def paddedHex (width code : Nat) : String :=
  let digits := Nat.toDigits 16 code
  String.ofList (List.replicate (width - digits.length) '0' ++ digits)

def message : Reason → String
  | .strayBackslash => "unexpected character after line continuation"
  | .unexpectedCharacter c => s!"unexpected character '{c}'"
  | .comparison => "comparison operators are not supported"
  | .unsupportedQuotePrefix word => s!"string prefix '{word}' is not supported"
  | .notDecimal => "only decimal integer literals are supported"
  | .integerTooLarge digits => s!"integer literal {digits} is out of range"
  | .unterminatedString => "unterminated string literal"
  | .truncatedEscape kind width => s!"truncated \\{kind} escape: expected {width} hex digits"
  | .invalidEscape kind width code => s!"\\{kind}{paddedHex width code} is not a valid character"
  | .namedEscape => "named unicode escapes (\\N\x7b...\x7d) are not supported"
  | .tooDeep => s!"too many nested brackets (limit {maxNesting})"
  | .expectedAssignment found => s!"expected an assignment, found {found.describe}"
  | .notAnAssignment target found =>
    s!"only 'name = value' statements are supported, found {found.describe} after '{target}'"
  | .unexpectedAfterValue target found =>
    s!"unexpected {found.describe} after the value of '{target}'"
  | .expectedValue found => s!"expected a value, found {found.describe}"
  | .unsupportedCall name => s!"call to '{name}' is not supported, only Var(...) is allowed"
  | .nameReference name => s!"name reference '{name}' is not supported"
  | .tuple => "tuples are not supported"
  | .unclosedParen found => s!"expected ')' to close '(', found {found.describe}"
  | .unclosedVar found => s!"expected ')' to close Var(, found {found.describe}"
  | .listSeparator found => s!"expected ',' or ']' in list, found {found.describe}"
  | .missingColon found => s!"expected ':' after mapping key, found {found.describe}"
  | .entrySeparator found => s!"expected ',' or '\x7d' in mapping, found {found.describe}"
  | .keyNotString found => s!"mapping keys must be strings, found {found.name}"
  | .varNotString found => s!"Var() expects a string, found {found.name}"
  | .unsupportedSum left right =>
    s!"unsupported operand types for +: '{left.name}' and '{right.name}'"
  | .notAMapping target found => s!"'{target}' must be a mapping, found {found.name}"

end Reason

end PinnedDeps
