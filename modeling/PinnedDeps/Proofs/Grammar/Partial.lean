import PinnedDeps.Proofs.Grammar.Completeness

/-! What the reader has read is the beginning of a derivation. A partial derivation holds the
complete parts of a derivation that lie to the left of a point in it: for every open bracket what
is inside it already, for every sum under way the operands in front of the last `+`. It gives back
both the reader, when the tokens' trees are taken, and the tokens read. One more token leads to
another partial derivation, and the end marker completes it. -/

namespace PinnedDeps.Grammar

open Reader

/-- The operands of a sum that have a `+` behind them. -/
inductive Summed where
  | start
  | plus (before : Summed) (operand : Primary) (pos : Position)

/-- The items of a list that have a comma behind them. -/
inductive Listed where
  | start
  | comma (before : Listed) (item : Expression) (pos : Position)

/-- The entries of a mapping that have a comma behind them. -/
inductive Mapped where
  | start
  | entry (before : Mapped) (key : Expression) (colon : Position) (value : Expression)
      (comma : Position)

/-- An open bracket with what is complete inside it. -/
inductive Opened where
  | list (opening : Position) (items : Listed)
  /-- A mapping in which a key comes next. -/
  | keys (opening : Position) (entries : Mapped)
  | entry (opening : Position) (entries : Mapped) (key : Expression) (colon : Position)
  | paren (opening : Position)
  | var (name opening : Position)

structure Layer where
  opened : Opened
  before : Summed

/-- A statement under way, up to the operand that comes next. -/
structure Unfinished where
  pos : Position
  target : String
  sign : Position
  layers : List Layer
  before : Summed

/-- What stands between the last complete statement and the point reached. -/
inductive Pending where
  | outside
  | target (pos : Position) (word : String)
  | value (u : Unfinished)
  | literals (u : Unfinished) (pos : Position) (text : String) (more : List (Located String))
  | name (u : Unfinished) (pos : Position) (word : String)
  | operand (u : Unfinished) (p : Primary)

/-- The part of a program in front of a point between two statements. -/
inductive Finished where
  | start
  | blank (before : Finished) (separator : Separator)
  | statement (before : Finished) (assignment : Assignment) (separator : Separator)

structure Partial where
  finished : Finished
  pending : Pending

/-! ### Sums -/

namespace Summed

def tokens : Summed → List Token
  | .start => []
  | .plus before operand pos => before.tokens ++ operand.tokens ++ [⟨pos, .plus⟩]

def operands : Summed → Option Operands
  | .start => none
  | .plus before operand pos => some (addOperand before.operands operand.tree pos)

/-- The sum that goes on with an operand and those behind it. -/
def close : Summed → Primary → Summands → Expression
  | .start, p, rest => .sum p rest
  | .plus before operand pos, p, rest => before.close operand (.plus pos p rest)

theorem tokens_close (s : Summed) (p : Primary) (rest : Summands) :
    (s.close p rest).tokens = s.tokens ++ p.tokens ++ rest.tokens := by
  induction s generalizing p rest with
  | start => rfl
  | plus before operand pos ih => rw [close, ih]; simp [tokens, Summands.tokens]

theorem tree_close (s : Summed) (p : Primary) (rest : Summands) :
    (s.close p rest).tree = sumOnto s.operands p.tree rest.trees := by
  induction s generalizing p rest with
  | start => rfl
  | plus before operand pos ih =>
    rw [close, ih, operands, sumOnto_addOperand]
    rfl

theorem tree_close_done (s : Summed) (p : Primary) :
    (s.close p .done).tree = sumWith p.tree s.operands := by
  rw [tree_close, Summands.trees, sumOnto_nil]

end Summed

/-! ### Lists and mappings -/

namespace Listed

def tokens : Listed → List Token
  | .start => []
  | .comma before item pos => before.tokens ++ item.tokens ++ [⟨pos, .comma⟩]

/-- The trees of the items, the last one first. -/
def trees : Listed → List Expr
  | .start => []
  | .comma before item _ => item.tree :: before.trees

/-- The items that go on with a further one and those behind it. -/
def closeWith : Listed → Expression → MoreItems → Items
  | .start, e, rest => .first e rest
  | .comma before item pos, e, rest => before.closeWith item (.next pos e rest)

/-- The items that end with a comma, if there are any. -/
def close : Listed → Items
  | .start => .empty
  | .comma before item pos => before.closeWith item (.comma pos)

theorem tokens_closeWith (l : Listed) (e : Expression) (rest : MoreItems) :
    (l.closeWith e rest).tokens = l.tokens ++ e.tokens ++ rest.tokens := by
  induction l generalizing e rest with
  | start => rfl
  | comma before item pos ih => rw [closeWith, ih]; simp [tokens, MoreItems.tokens]

theorem trees_closeWith (l : Listed) (e : Expression) (rest : MoreItems) :
    (l.closeWith e rest).trees = (e.tree :: l.trees).reverse ++ rest.trees := by
  induction l generalizing e rest with
  | start => rfl
  | comma before item pos ih => rw [closeWith, ih]; simp [trees, MoreItems.trees]

theorem tokens_close (l : Listed) : l.close.tokens = l.tokens := by
  cases l with
  | start => rfl
  | comma before item pos => rw [close, tokens_closeWith]; rfl

theorem trees_close (l : Listed) : l.close.trees = l.trees.reverse := by
  cases l with
  | start => rfl
  | comma before item pos => rw [close, trees_closeWith]; simp [trees, MoreItems.trees]

end Listed

namespace Mapped

def tokens : Mapped → List Token
  | .start => []
  | .entry before key colon value comma =>
    before.tokens ++ key.tokens ++ ⟨colon, .colon⟩ :: (value.tokens ++ [⟨comma, .comma⟩])

/-- The trees of the entries, the last one first. -/
def trees : Mapped → List (Expr × Expr)
  | .start => []
  | .entry before key _ value _ => (key.tree, value.tree) :: before.trees

/-- The entries that go on with a further one and those behind it. -/
def closeWith : Mapped → Expression → Position → Expression → MoreEntries → Entries
  | .start, key, colon, value, rest => .first key colon value rest
  | .entry before key' colon' value' comma, key, colon, value, rest =>
    before.closeWith key' colon' value' (.next comma key colon value rest)

/-- The entries that end with a comma, if there are any. -/
def close : Mapped → Entries
  | .start => .empty
  | .entry before key colon value comma => before.closeWith key colon value (.comma comma)

theorem tokens_closeWith (m : Mapped) (key : Expression) (colon : Position) (value : Expression)
    (rest : MoreEntries) :
    (m.closeWith key colon value rest).tokens =
      m.tokens ++ key.tokens ++ ⟨colon, .colon⟩ :: (value.tokens ++ rest.tokens) := by
  induction m generalizing key colon value rest with
  | start => rfl
  | entry before key' colon' value' comma ih =>
    rw [closeWith, ih]; simp [tokens, MoreEntries.tokens]

theorem trees_closeWith (m : Mapped) (key : Expression) (colon : Position) (value : Expression)
    (rest : MoreEntries) :
    (m.closeWith key colon value rest).trees =
      ((key.tree, value.tree) :: m.trees).reverse ++ rest.trees := by
  induction m generalizing key colon value rest with
  | start => rfl
  | entry before key' colon' value' comma ih =>
    rw [closeWith, ih]; simp [trees, MoreEntries.trees]

theorem tokens_close (m : Mapped) : m.close.tokens = m.tokens := by
  cases m with
  | start => rfl
  | entry before key colon value comma => rw [close, tokens_closeWith]; rfl

theorem trees_close (m : Mapped) : m.close.trees = m.trees.reverse := by
  cases m with
  | start => rfl
  | entry before key colon value comma =>
    rw [close, trees_closeWith]; simp [trees, MoreEntries.trees]

end Mapped

/-! ### The reader and the tokens of a partial derivation -/

namespace Opened

def tokens : Opened → List Token
  | .list opening items => ⟨opening, .openBracket⟩ :: items.tokens
  | .keys opening entries => ⟨opening, .openBrace⟩ :: entries.tokens
  | .entry opening entries key colon =>
    ⟨opening, .openBrace⟩ :: (entries.tokens ++ key.tokens ++ [⟨colon, .colon⟩])
  | .paren opening => [⟨opening, .openParen⟩]
  | .var name opening => [⟨name, .name "Var"⟩, ⟨opening, .openParen⟩]

def bracket : Opened → Bracket
  | .list opening items => .list opening items.trees
  | .keys opening entries => .key opening entries.trees
  | .entry opening entries key _ => .entry opening entries.trees key.tree
  | .paren _ => .paren
  | .var name _ => .var name

end Opened

namespace Layer

def level (l : Layer) : Level := ⟨l.opened.bracket, l.before.operands⟩

/-- The tokens of the layers, of which the innermost comes first. -/
def tokens : List Layer → List Token
  | [] => []
  | l :: outer => tokens outer ++ l.before.tokens ++ l.opened.tokens

end Layer

namespace Unfinished

def context (u : Unfinished) : Context :=
  ⟨u.target, u.pos, u.layers.map Layer.level, u.before.operands⟩

def tokens (u : Unfinished) : List Token :=
  ⟨u.pos, .name u.target⟩ :: ⟨u.sign, .assign⟩ :: (Layer.tokens u.layers ++ u.before.tokens)

end Unfinished

namespace Pending

def point : Pending → Point
  | .outside => .outside
  | .target pos word => .target pos word
  | .value u => .value u.context
  | .literals u pos text more => .text u.context pos (joined text more)
  | .name u pos word => .name u.context pos word
  | .operand u p => .operand u.context p.tree

def tokens : Pending → List Token
  | .outside => []
  | .target pos word => [⟨pos, .name word⟩]
  | .value u => u.tokens
  | .literals u pos text more => u.tokens ++ (Primary.strings pos text more).tokens
  | .name u pos word => u.tokens ++ [⟨pos, .name word⟩]
  | .operand u p => u.tokens ++ p.tokens

end Pending

namespace Finished

def tokens : Finished → List Token
  | .start => []
  | .blank before separator => before.tokens ++ [separator.token]
  | .statement before assignment separator =>
    before.tokens ++ assignment.tokens ++ [separator.token]

/-- The statements, the last one first. -/
def statements : Finished → List Statement
  | .start => []
  | .blank before _ => before.statements
  | .statement before assignment _ => assignment.tree :: before.statements

/-- The program that goes on with `rest`. -/
def close : Finished → Program → Program
  | .start, rest => rest
  | .blank before separator, rest => before.close (.blank separator rest)
  | .statement before assignment separator, rest =>
    before.close (.statement assignment separator rest)

theorem tokens_close (f : Finished) (rest : Program) :
    (f.close rest).tokens = f.tokens ++ rest.tokens := by
  induction f generalizing rest with
  | start => rfl
  | blank before separator ih => rw [close, ih]; simp [tokens, Program.tokens]
  | statement before assignment separator ih => rw [close, ih]; simp [tokens, Program.tokens]

theorem statements_close (f : Finished) (rest : Program) :
    (f.close rest).statements = f.statements.reverse ++ rest.statements := by
  induction f generalizing rest with
  | start => rfl
  | blank before separator ih => rw [close, ih]; simp [statements, Program.statements]
  | statement before assignment separator ih => rw [close, ih]; simp [statements, Program.statements]

end Finished

namespace Partial

def reader (x : Partial) : Reader := ⟨x.finished.statements, x.pending.point⟩

def tokens (x : Partial) : List Token := x.finished.tokens ++ x.pending.tokens

end Partial

end PinnedDeps.Grammar
