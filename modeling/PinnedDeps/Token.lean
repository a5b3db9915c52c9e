import PinnedDeps.Source

/-! The tokens of the DEPS dialect and the words by which a complaint names them. -/

namespace PinnedDeps

/-- What a token says, without its place. -/
inductive Lexeme where
  | name (name : String)
  | string (text : String)
  | integer (value : Int)
  | openBrace
  | closeBrace
  | openBracket
  | closeBracket
  | openParen
  | closeParen
  | colon
  | comma
  | plus
  | assign
  | semicolon
  | newline
  | eof
  deriving DecidableEq, Repr

abbrev Token := Located Lexeme

namespace Lexeme

/-- How a complaint names the token. -/
def describe : Lexeme → String
  | .name n => s!"name '{n}'"
  | .string _ => "string literal"
  | .integer value => s!"integer {value}"
  | .openBrace => "'\x7b'"
  | .closeBrace => "'\x7d'"
  | .openBracket => "'['"
  | .closeBracket => "']'"
  | .openParen => "'('"
  | .closeParen => "')'"
  | .colon => "':'"
  | .comma => "','"
  | .plus => "'+'"
  | .assign => "'='"
  | .semicolon => "';'"
  | .newline => "end of line"
  | .eof => "end of file"

/-- How many brackets are open after the token, when `depth` are before it. A closing bracket
without an opening one changes nothing, and kinds are not matched up. -/
def depthAfter (depth : Nat) : Lexeme → Nat
  | .openBrace | .openBracket | .openParen => depth + 1
  | .closeBrace | .closeBracket | .closeParen => depth - 1
  | _ => depth

end Lexeme

/-- How many brackets may be open at once. -/
def maxNesting : Nat := 100

end PinnedDeps
