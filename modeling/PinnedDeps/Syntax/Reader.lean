import PinnedDeps.Syntax.Expr
import PinnedDeps.Syntax.Reason

/-! Tokens as statements. The reader takes one token at a time. It remembers the statements that
are complete, and of the one under way the brackets that are open, innermost first, each with the
operands of the sum it stands in. A program is

    program    = { end of line | ';' | statement }
    statement  = name '=' expression, and then an end of line, a ';' or the end of the file
    expression = primary { '+' primary }
    primary    = string { string } | integer | True | False | None | '(' expression ')'
               | 'Var' '(' expression ')' | '[' expressions ']' | '{' entries '}'

where the items of lists and mappings are separated by commas, of which the last may end the list.
A token that cannot continue what has been read is refused at once; only a name that stands where
a value is expected waits for the token after it, which decides what is wrong with it. -/

namespace PinnedDeps

namespace Reader

/-- An open bracket with what has been read inside it, items and entries in reverse. -/
inductive Bracket where
  | list (pos : Position) (items : List Expr)
  /-- A mapping in which a key comes next. -/
  | key (pos : Position) (entries : List (Expr × Expr))
  /-- A mapping in which the value of a key comes next. -/
  | entry (pos : Position) (entries : List (Expr × Expr)) (key : Expr)
  | paren
  | var (pos : Position)
  deriving Repr

/-- The operands of a sum before a `+` at `plus`, the later ones in reverse. `pos` is the place of
the first `+`. -/
structure Operands where
  pos : Position
  first : Expr
  rest : List (Position × Expr)
  plus : Position
  deriving Repr

/-- The sum that ends with the operand `e`, or `e` itself when no `+` came before it. -/
def sumWith (e : Expr) : Option Operands → Expr
  | none => e
  | some before => .sum before.pos before.first ((before.plus, e) :: before.rest).reverse

/-- The operands `before` with the further operand `e`, after which a `+` stands at `plus`. -/
def addOperand (before : Option Operands) (e : Expr) (plus : Position) : Operands :=
  match before with
  | none => ⟨plus, e, [], plus⟩
  | some before => { before with rest := (before.plus, e) :: before.rest, plus }

/-- An open bracket and the operands that stand before it in its own sum. -/
structure Level where
  bracket : Bracket
  before : Option Operands
  deriving Repr

/-- The statement under way: its target, the open brackets, and the operands already read of the
innermost sum. -/
structure Context where
  target : String
  pos : Position
  levels : List Level
  before : Option Operands
  deriving Repr

/-- What the last token was, as far as it decides what may come next. -/
inductive Point where
  /-- Between two statements. -/
  | outside
  /-- After the target of an assignment. -/
  | target (pos : Position) (name : String)
  /-- Where a value must start. -/
  | value (ctx : Context)
  /-- After a string literal, which further literals extend. -/
  | text (ctx : Context) (pos : Position) (text : String)
  /-- After a name in the place of a value. -/
  | name (ctx : Context) (pos : Position) (name : String)
  /-- After a complete operand. -/
  | operand (ctx : Context) (e : Expr)
  deriving Repr

end Reader

/-- The complete statements, in reverse, and the point reached. -/
structure Reader where
  statements : List Statement
  point : Reader.Point
  deriving Repr

namespace Reader

def start : Reader := ⟨[], .outside⟩

/-- A bracket opens at `pos`. -/
def enter (ctx : Context) (pos : Position) (bracket : Bracket) : Except SyntaxError Point :=
  if ctx.levels.length < maxNesting then
    .ok (.value { ctx with levels := ⟨bracket, ctx.before⟩ :: ctx.levels, before := none })
  else .error ⟨pos, .tooDeep⟩

/-- The innermost bracket is replaced, and a value comes next inside it. -/
def goOn (ctx : Context) (outer : List Level) (level : Level) (bracket : Bracket) : Point :=
  .value { ctx with levels := { level with bracket } :: outer, before := none }

/-- The innermost bracket closes and is the operand `e` of the sum around it. -/
def leave (ctx : Context) (outer : List Level) (level : Level) (e : Expr) : Point :=
  .operand { ctx with levels := outer, before := level.before } e

/-- A token where a value must start. -/
def readValue (ctx : Context) (t : Token) : Except SyntaxError Point :=
  match t.item with
  | .string text => .ok (.text ctx t.pos text)
  | .integer n => .ok (.operand ctx (.int t.pos n))
  | .openBrace => enter ctx t.pos (.key t.pos [])
  | .openBracket => enter ctx t.pos (.list t.pos [])
  | .openParen => enter ctx t.pos .paren
  | .name name =>
    if name = "True" then .ok (.operand ctx (.bool t.pos true))
    else if name = "False" then .ok (.operand ctx (.bool t.pos false))
    else if name = "None" then .ok (.operand ctx (.none t.pos))
    else .ok (.name ctx t.pos name)
  | found =>
    match ctx.before, ctx.levels, found with
    | none, level@⟨.list pos items, _⟩ :: outer, .closeBracket =>
      .ok (leave ctx outer level (.list pos items.reverse))
    | none, level@⟨.key pos entries, _⟩ :: outer, .closeBrace =>
      .ok (leave ctx outer level (.map pos entries.reverse))
    | _, _, _ => .error ⟨t.pos, .expectedValue found⟩

/-- A token after the complete expression `e` inside the innermost bracket. -/
def readInside (ctx : Context) (level : Level) (outer : List Level) (e : Expr) (t : Token) :
    Except SyntaxError Point :=
  match level.bracket, t.item with
  | .list pos items, .comma => .ok (goOn ctx outer level (.list pos (e :: items)))
  | .list pos items, .closeBracket => .ok (leave ctx outer level (.list pos (e :: items).reverse))
  | .list _ _, found => .error ⟨t.pos, .listSeparator found⟩
  | .key pos entries, .colon => .ok (goOn ctx outer level (.entry pos entries e))
  | .key _ _, found => .error ⟨t.pos, .missingColon found⟩
  | .entry pos entries key, .comma => .ok (goOn ctx outer level (.key pos ((key, e) :: entries)))
  | .entry pos entries key, .closeBrace =>
    .ok (leave ctx outer level (.map pos ((key, e) :: entries).reverse))
  | .entry _ _ _, found => .error ⟨t.pos, .entrySeparator found⟩
  | .paren, .closeParen => .ok (leave ctx outer level e)
  | .paren, .comma => .error ⟨t.pos, .tuple⟩
  | .paren, found => .error ⟨t.pos, .unclosedParen found⟩
  | .var pos, .closeParen => .ok (leave ctx outer level (.var pos e))
  | .var _, found => .error ⟨t.pos, .unclosedVar found⟩

/-- A token after the complete operand `e`. -/
def readAfter (done : List Statement) (ctx : Context) (e : Expr) (t : Token) :
    Except SyntaxError Reader :=
  match t.item with
  | .plus => .ok ⟨done, .value { ctx with before := some (addOperand ctx.before e t.pos) }⟩
  | found =>
    let e := sumWith e ctx.before
    match ctx.levels with
    | level :: outer => (readInside ctx level outer e t).map (⟨done, ·⟩)
    | [] =>
      match found with
      | .newline | .semicolon | .eof => .ok ⟨⟨ctx.target, ctx.pos, e⟩ :: done, .outside⟩
      | found => .error ⟨t.pos, .unexpectedAfterValue ctx.target found⟩

/-- The reader after one more token. -/
def read (r : Reader) (t : Token) : Except SyntaxError Reader :=
  match r.point with
  | .outside =>
    match t.item with
    | .newline | .semicolon | .eof => .ok r
    | .name name => .ok { r with point := .target t.pos name }
    | found => .error ⟨t.pos, .expectedAssignment found⟩
  | .target pos name =>
    match t.item with
    | .assign => .ok { r with point := .value ⟨name, pos, [], none⟩ }
    | found => .error ⟨t.pos, .notAnAssignment name found⟩
  | .value ctx => (readValue ctx t).map fun point => { r with point }
  | .text ctx pos text =>
    match t.item with
    | .string more => .ok { r with point := .text ctx pos (text ++ more) }
    | _ => readAfter r.statements ctx (.str pos text) t
  | .name ctx pos name =>
    match t.item with
    | .openParen =>
      if name = "Var" then (enter ctx t.pos (.var pos)).map fun point => { r with point }
      else .error ⟨pos, .unsupportedCall name⟩
    | _ => .error ⟨pos, .nameReference name⟩
  | .operand ctx e => readAfter r.statements ctx e t

/-- The reader after the tokens up to and including the first end marker; those behind it are not
looked at. -/
def readAll (r : Reader) : List Token → Except SyntaxError Reader
  | [] => .ok r
  | t :: rest =>
    match r.read t with
    | .error e => .error e
    | .ok r => if t.item = .eof then .ok r else readAll r rest

end Reader

/-- The statements that the tokens up to the first end marker form. -/
def parse (tokens : List Token) : Except SyntaxError (List Statement) :=
  (Reader.start.readAll tokens).map fun r => r.statements.reverse

end PinnedDeps
