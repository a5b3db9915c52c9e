import PinnedDeps.Token.Literal

/-! The text of the DEPS dialect as tokens. Blanks, comments and backslash-newline pairs separate
tokens; a line feed is a token only outside brackets, and never the first token nor the second of
two in a row. Every token has the place of its first character. -/

namespace PinnedDeps.Lexer

open Text (isAlphabetic isAlphanumeric)

def isBlank (c : Char) : Bool := c = ' ' || c = '\t' || c = '\r' || c = '\x0c'

/-- What is left after blanks, comments and joined lines. A comment ends before its line feed. -/
def skipBlanks : List (Located Char) → Except SyntaxError (List (Located Char))
  | [] => .ok []
  | c :: rest =>
    if isBlank c.item then skipBlanks rest
    else if c.item = '#' then .ok (rest.dropWhile fun d => d.item ≠ '\n')
    else if c.item = '\\' then
      match rest with
      | d :: rest =>
        if d.item = '\n' then skipBlanks rest
        else
          match rest with
          | e :: rest =>
            if d.item = '\r' ∧ e.item = '\n' then skipBlanks rest
            else .error ⟨c.pos, .strayBackslash⟩
          | [] => .error ⟨c.pos, .strayBackslash⟩
      | [] => .error ⟨c.pos, .strayBackslash⟩
    else .ok (c :: rest)

def isNameStart (c : Char) : Bool := isAlphabetic c || c = '_'

def isNameRest (c : Char) : Bool := isAlphanumeric c || c = '_'

def isQuote (c : Char) : Bool := c = '\'' || c = '"'

/-- The letters that, right before a quote, would make a literal of a kind the dialect lacks. -/
def unsupportedPrefixes : List (List Char) :=
  [['b'], ['f'], ['r', 'b'], ['b', 'r'], ['f', 'r'], ['r', 'f']]

/-- A string literal as a lexeme. -/
def stringLexeme (raw : Bool) (quote : Located Char) (rest : List (Located Char)) :
    Except SyntaxError (Lexeme × List (Located Char)) :=
  match Literal.string raw quote rest with
  | .ok (text, after) => .ok (.string (String.ofList text), after)
  | .error e => .error e

/-- A name that starts at `first`, or the literal it is the prefix of: `r` and `u` of either case
directly before a quote. -/
def nameOrLiteral (first : Located Char) (rest : List (Located Char)) :
    Except SyntaxError (Lexeme × List (Located Char)) :=
  let word := first.item :: (rest.takeWhile fun c => isNameRest c.item).map (·.item)
  let after := rest.dropWhile fun c => isNameRest c.item
  let name := Lexeme.name (String.ofList word)
  match after with
  | [] => .ok (name, [])
  | quote :: more =>
    if isQuote quote.item then
      let letters := word.map Char.toLower
      if letters = ['r'] then stringLexeme true quote more
      else if letters = ['u'] then stringLexeme false quote more
      else if letters ∈ unsupportedPrefixes then
        .error ⟨first.pos, .unsupportedQuotePrefix (String.ofList word)⟩
      else .ok (name, after)
    else .ok (name, after)

/-- The lexeme that starts with `c`, which is neither blank nor a line feed. -/
def lexeme (c : Located Char) (rest : List (Located Char)) :
    Except SyntaxError (Lexeme × List (Located Char)) :=
  match c.item with
  | '{' => .ok (.openBrace, rest)
  | '}' => .ok (.closeBrace, rest)
  | '[' => .ok (.openBracket, rest)
  | ']' => .ok (.closeBracket, rest)
  | '(' => .ok (.openParen, rest)
  | ')' => .ok (.closeParen, rest)
  | ':' => .ok (.colon, rest)
  | ',' => .ok (.comma, rest)
  | '+' => .ok (.plus, rest)
  | ';' => .ok (.semicolon, rest)
  | '=' =>
    if rest.head?.any fun d => d.item = '=' then .error ⟨c.pos, .comparison⟩
    else .ok (.assign, rest)
  | '\'' => stringLexeme false c rest
  | '"' => stringLexeme false c rest
  | ch =>
    if ch.isDigit then
      match Literal.integer c rest with
      | .ok (n, after) => .ok (.integer n, after)
      | .error e => .error e
    else if isNameStart ch then nameOrLiteral c rest
    else .error ⟨c.pos, .unexpectedCharacter ch⟩

theorem length_of_skipBlanks {cs after : List (Located Char)} (h : skipBlanks cs = .ok after) :
    after.length ≤ cs.length := by
  fun_induction skipBlanks cs with
  | case3 c rest _ _ =>
    cases h
    have := (List.dropWhile_sublist (fun d : Located Char => decide (d.item ≠ '\n'))
      (l := rest)).length_le
    simp only [List.length_cons]; omega
  | _ => grind

theorem length_of_stringLexeme {raw : Bool} {quote : Located Char}
    {rest after : List (Located Char)} {l : Lexeme}
    (h : stringLexeme raw quote rest = .ok (l, after)) : after.length ≤ rest.length := by
  simp only [stringLexeme] at h
  split at h
  · next hs => cases h; exact Literal.length_of_string hs
  · cases h

theorem length_of_nameOrLiteral {first : Located Char} {rest after : List (Located Char)}
    {l : Lexeme} (h : nameOrLiteral first rest = .ok (l, after)) : after.length ≤ rest.length := by
  have hd := (List.dropWhile_sublist (fun c : Located Char => isNameRest c.item)
    (l := rest)).length_le
  simp only [nameOrLiteral] at h
  split at h
  · cases h; simp
  · next quote more hm =>
    rw [hm] at hd
    simp only [List.length_cons] at hd
    split at h
    · split at h
      · have := length_of_stringLexeme h; omega
      · split at h
        · have := length_of_stringLexeme h; omega
        · split at h <;> cases h
          simp only [hm, List.length_cons]; omega
    · cases h; simp only [hm, List.length_cons]; omega

theorem length_of_lexeme {c : Located Char} {rest after : List (Located Char)} {l : Lexeme}
    (h : lexeme c rest = .ok (l, after)) : after.length ≤ rest.length := by
  unfold lexeme at h
  split at h
  case h_12 => exact length_of_stringLexeme h
  case h_13 => exact length_of_stringLexeme h
  case h_14 =>
    split at h
    · split at h
      · next hn => cases h; exact Literal.length_of_integer hn
      · cases h
    · split at h
      · exact length_of_nameOrLiteral h
      · cases h
  case h_11 => split at h <;> cases h; exact Nat.le_refl _
  all_goals cases h; exact Nat.le_refl _

/-- A line feed is no token inside brackets, at the start, or after another one. -/
def suppressesNewline (depth : Nat) (done : List Token) : Bool :=
  depth > 0 || done.head?.all fun t => t.item = .newline

/-- The tokens of the characters left, when `depth` brackets are open and `done` holds the tokens
before them in reverse. `stop` is the place after the last character. -/
def tokensFrom (stop : Position) (depth : Nat) (done : List Token) (cs : List (Located Char)) :
    Except SyntaxError (List Token) :=
  match _hs : skipBlanks cs with
  | .error e => .error e
  | .ok [] => .ok (⟨stop, .eof⟩ :: done).reverse
  | .ok (c :: rest) =>
    if c.item = '\n' then
      if suppressesNewline depth done then tokensFrom stop depth done rest
      else tokensFrom stop depth (⟨c.pos, .newline⟩ :: done) rest
    else
      match _hl : lexeme c rest with
      | .error e => .error e
      | .ok (l, after) =>
        let depth := l.depthAfter depth
        if depth > maxNesting then .error ⟨c.pos, .tooDeep⟩
        else tokensFrom stop depth (⟨c.pos, l⟩ :: done) after
termination_by cs.length
decreasing_by
  all_goals
    have hlen := length_of_skipBlanks _hs
    simp only [List.length_cons] at hlen
  · omega
  · omega
  · have := length_of_lexeme _hl; omega

end Lexer

/-- The tokens of a text, closed by an end marker. -/
def tokenize (text : String) : Except SyntaxError (List Token) :=
  let cs := text.toList
  Lexer.tokensFrom (Position.start.afterAll cs) 0 [] (Source.locate Position.start cs)

end PinnedDeps
