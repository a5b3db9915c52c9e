import PinnedDeps.Syntax.Reader

/-! Derivations of the statement grammar as data: one type per rule, one constructor per
alternative, and a place for every token. A repetition is written as the list of what follows its
first member. What a derivation derives are its tokens, what it denotes is its tree. The reader is
not mentioned here, so that reading can be compared with deriving. -/

namespace PinnedDeps.Grammar

/-- The names that are values. -/
inductive Constant where
  | true | false | none

namespace Constant

def word : Constant → String
  | .true => "True"
  | .false => "False"
  | .none => "None"

def tree (pos : Position) : Constant → Expr
  | .true => .bool pos Bool.true
  | .false => .bool pos Bool.false
  | .none => .none pos

end Constant

mutual

/-- One operand of a sum. -/
inductive Primary where
  | strings (pos : Position) (text : String) (more : List (Located String))
  | integer (pos : Position) (value : Int)
  | constant (pos : Position) (constant : Constant)
  | map (opening : Position) (entries : Entries) (closing : Position)
  | list (opening : Position) (items : Items) (closing : Position)
  | paren (opening : Position) (inner : Expression) (closing : Position)
  | var (name opening : Position) (argument : Expression) (closing : Position)

/-- `primary ('+' primary)*` -/
inductive Expression where
  | sum (first : Primary) (rest : Summands)

/-- `('+' primary)*` -/
inductive Summands where
  | done
  | plus (pos : Position) (operand : Primary) (rest : Summands)

/-- `(expression (',' expression)* ','?)?` -/
inductive Items where
  | empty
  | first (item : Expression) (rest : MoreItems)

/-- `(',' expression)* ','?` -/
inductive MoreItems where
  | done
  | comma (pos : Position)
  | next (comma : Position) (item : Expression) (rest : MoreItems)

/-- `(expression ':' expression (',' expression ':' expression)* ','?)?` -/
inductive Entries where
  | empty
  | first (key : Expression) (colon : Position) (value : Expression) (rest : MoreEntries)

/-- `(',' expression ':' expression)* ','?` -/
inductive MoreEntries where
  | done
  | comma (pos : Position)
  | next (comma : Position) (key : Expression) (colon : Position) (value : Expression)
      (rest : MoreEntries)

end

/-- A statement up to the end of its value. -/
structure Assignment where
  pos : Position
  target : String
  sign : Position
  value : Expression

/-- A token that ends a statement or stands for nothing between two. -/
inductive Separator where
  | newline (pos : Position)
  | semicolon (pos : Position)

/-- `(NEWLINE | ';' | statement)* EOF`. The end marker also ends a statement, without being
consumed by it. -/
inductive Program where
  | stop (pos : Position)
  | blank (separator : Separator) (rest : Program)
  | statement (assignment : Assignment) (separator : Separator) (rest : Program)
  | last (assignment : Assignment) (pos : Position)

/-! ### What is derived -/

mutual

def Primary.tokens : Primary → List Token
  | .strings pos text more =>
    ⟨pos, .string text⟩ :: more.map fun literal => ⟨literal.pos, .string literal.item⟩
  | .integer pos value => [⟨pos, .integer value⟩]
  | .constant pos constant => [⟨pos, .name constant.word⟩]
  | .map opening entries closing =>
    ⟨opening, .openBrace⟩ :: (entries.tokens ++ [⟨closing, .closeBrace⟩])
  | .list opening items closing =>
    ⟨opening, .openBracket⟩ :: (items.tokens ++ [⟨closing, .closeBracket⟩])
  | .paren opening inner closing =>
    ⟨opening, .openParen⟩ :: (inner.tokens ++ [⟨closing, .closeParen⟩])
  | .var name opening argument closing =>
    ⟨name, .name "Var"⟩ :: ⟨opening, .openParen⟩ :: (argument.tokens ++ [⟨closing, .closeParen⟩])

def Expression.tokens : Expression → List Token
  | .sum first rest => first.tokens ++ rest.tokens

def Summands.tokens : Summands → List Token
  | .done => []
  | .plus pos operand rest => ⟨pos, .plus⟩ :: (operand.tokens ++ rest.tokens)

def Items.tokens : Items → List Token
  | .empty => []
  | .first item rest => item.tokens ++ rest.tokens

def MoreItems.tokens : MoreItems → List Token
  | .done => []
  | .comma pos => [⟨pos, .comma⟩]
  | .next comma item rest => ⟨comma, .comma⟩ :: (item.tokens ++ rest.tokens)

def Entries.tokens : Entries → List Token
  | .empty => []
  | .first key colon value rest =>
    key.tokens ++ ⟨colon, .colon⟩ :: (value.tokens ++ rest.tokens)

def MoreEntries.tokens : MoreEntries → List Token
  | .done => []
  | .comma pos => [⟨pos, .comma⟩]
  | .next comma key colon value rest =>
    ⟨comma, .comma⟩ :: (key.tokens ++ ⟨colon, .colon⟩ :: (value.tokens ++ rest.tokens))

end

def Assignment.tokens (a : Assignment) : List Token :=
  ⟨a.pos, .name a.target⟩ :: ⟨a.sign, .assign⟩ :: a.value.tokens

def Separator.token : Separator → Token
  | .newline pos => ⟨pos, .newline⟩
  | .semicolon pos => ⟨pos, .semicolon⟩

def Program.tokens : Program → List Token
  | .stop pos => [⟨pos, .eof⟩]
  | .blank separator rest => separator.token :: rest.tokens
  | .statement assignment separator rest =>
    assignment.tokens ++ separator.token :: rest.tokens
  | .last assignment pos => assignment.tokens ++ [⟨pos, .eof⟩]

/-! ### What is denoted -/

/-- Adjacent literals as one text. -/
def joined (text : String) (more : List (Located String)) : String :=
  more.foldl (fun text literal => text ++ literal.item) text

/-- A sum, or its first operand when there is no other. It stands at its first `+`. -/
def sumTree (first : Expr) : List (Position × Expr) → Expr
  | [] => first
  | (plus, operand) :: rest => .sum plus first ((plus, operand) :: rest)

mutual

/-- An operand stands at its first token, and parentheses leave no trace. -/
def Primary.tree : Primary → Expr
  | .strings pos text more => .str pos (joined text more)
  | .integer pos value => .int pos value
  | .constant pos constant => constant.tree pos
  | .map opening entries _ => .map opening entries.trees
  | .list opening items _ => .list opening items.trees
  | .paren _ inner _ => inner.tree
  | .var name _ argument _ => .var name argument.tree

def Expression.tree : Expression → Expr
  | .sum first rest => sumTree first.tree rest.trees

def Summands.trees : Summands → List (Position × Expr)
  | .done => []
  | .plus pos operand rest => (pos, operand.tree) :: rest.trees

def Items.trees : Items → List Expr
  | .empty => []
  | .first item rest => item.tree :: rest.trees

def MoreItems.trees : MoreItems → List Expr
  | .done | .comma _ => []
  | .next _ item rest => item.tree :: rest.trees

def Entries.trees : Entries → List (Expr × Expr)
  | .empty => []
  | .first key _ value rest => (key.tree, value.tree) :: rest.trees

def MoreEntries.trees : MoreEntries → List (Expr × Expr)
  | .done | .comma _ => []
  | .next _ key _ value rest => (key.tree, value.tree) :: rest.trees

end

def Assignment.tree (a : Assignment) : Statement := ⟨a.target, a.pos, a.value.tree⟩

def Program.statements : Program → List Statement
  | .stop _ => []
  | .blank _ rest => rest.statements
  | .statement assignment _ rest => assignment.tree :: rest.statements
  | .last assignment _ => [assignment.tree]

/-! ### Open brackets -/

/-- How many brackets are open behind the tokens, when `depth` are before them. -/
def depthBehind (depth : Nat) (tokens : List Token) : Nat :=
  tokens.foldl (fun depth t => t.item.depthAfter depth) depth

/-- Behind no token are more brackets open than may be. -/
def NestedWithin (depth : Nat) : List Token → Prop
  | [] => True
  | t :: rest =>
    t.item.depthAfter depth ≤ maxNesting ∧ NestedWithin (t.item.depthAfter depth) rest

@[simp]
theorem depthBehind_nil (depth : Nat) : depthBehind depth [] = depth := rfl

@[simp]
theorem depthBehind_cons (depth : Nat) (t : Token) (rest : List Token) :
    depthBehind depth (t :: rest) = depthBehind (t.item.depthAfter depth) rest := rfl

@[simp]
theorem depthBehind_append (depth : Nat) (a b : List Token) :
    depthBehind depth (a ++ b) = depthBehind (depthBehind depth a) b := List.foldl_append

@[simp]
theorem nestedWithin_nil (depth : Nat) : NestedWithin depth [] := trivial

@[simp]
theorem nestedWithin_cons (depth : Nat) (t : Token) (rest : List Token) :
    NestedWithin depth (t :: rest) ↔
      t.item.depthAfter depth ≤ maxNesting ∧ NestedWithin (t.item.depthAfter depth) rest := Iff.rfl

@[simp]
theorem nestedWithin_append (depth : Nat) (a b : List Token) :
    NestedWithin depth (a ++ b) ↔ NestedWithin depth a ∧ NestedWithin (depthBehind depth a) b := by
  induction a generalizing depth with
  | nil => simp
  | cons t a ih => simp [ih, and_assoc]

theorem depthBehind_literals (depth : Nat) (literals : List (Located String)) :
    depthBehind depth (literals.map fun s => ⟨s.pos, .string s.item⟩) = depth := by
  induction literals with
  | nil => rfl
  | cons s rest ih => exact ih

mutual

/-- Every bracket that a derivation opens it also closes. -/
theorem Primary.depthBehind_tokens (p : Primary) (depth : Nat) :
    depthBehind depth p.tokens = depth := by
  cases p with
  | strings pos text more => exact depthBehind_literals depth more
  | integer pos value => rfl
  | constant pos constant => rfl
  | map opening entries closing =>
    have h := entries.depthBehind_tokens (depth + 1)
    simp [Primary.tokens, Lexeme.depthAfter, h]
  | list opening items closing =>
    have h := items.depthBehind_tokens (depth + 1)
    simp [Primary.tokens, Lexeme.depthAfter, h]
  | paren opening inner closing =>
    have h := inner.depthBehind_tokens (depth + 1)
    simp [Primary.tokens, Lexeme.depthAfter, h]
  | var name opening argument closing =>
    have h := argument.depthBehind_tokens (depth + 1)
    simp [Primary.tokens, Lexeme.depthAfter, h]

theorem Expression.depthBehind_tokens (x : Expression) (depth : Nat) :
    depthBehind depth x.tokens = depth := by
  obtain ⟨first, rest⟩ := x
  rw [Expression.tokens, depthBehind_append, first.depthBehind_tokens, rest.depthBehind_tokens]

theorem Summands.depthBehind_tokens (s : Summands) (depth : Nat) :
    depthBehind depth s.tokens = depth := by
  cases s with
  | done => rfl
  | plus pos operand rest =>
    rw [Summands.tokens, depthBehind_cons, depthBehind_append, operand.depthBehind_tokens,
      rest.depthBehind_tokens]
    rfl

theorem Items.depthBehind_tokens (items : Items) (depth : Nat) :
    depthBehind depth items.tokens = depth := by
  cases items with
  | empty => rfl
  | first item rest =>
    rw [Items.tokens, depthBehind_append, item.depthBehind_tokens, rest.depthBehind_tokens]

theorem MoreItems.depthBehind_tokens (items : MoreItems) (depth : Nat) :
    depthBehind depth items.tokens = depth := by
  cases items with
  | done => rfl
  | comma pos => rfl
  | next comma item rest =>
    rw [MoreItems.tokens, depthBehind_cons, depthBehind_append, item.depthBehind_tokens,
      rest.depthBehind_tokens]
    rfl

theorem Entries.depthBehind_tokens (entries : Entries) (depth : Nat) :
    depthBehind depth entries.tokens = depth := by
  cases entries with
  | empty => rfl
  | first key colon value rest =>
    rw [Entries.tokens, depthBehind_append, depthBehind_cons, depthBehind_append,
      key.depthBehind_tokens, value.depthBehind_tokens, rest.depthBehind_tokens]
    rfl

theorem MoreEntries.depthBehind_tokens (entries : MoreEntries) (depth : Nat) :
    depthBehind depth entries.tokens = depth := by
  cases entries with
  | done => rfl
  | comma pos => rfl
  | next comma key colon value rest =>
    rw [MoreEntries.tokens, depthBehind_cons, depthBehind_append, depthBehind_cons,
      depthBehind_append, key.depthBehind_tokens, value.depthBehind_tokens,
      rest.depthBehind_tokens]
    rfl

end

/-! ### Last tokens -/

/-- No operand ends with a line end. -/
theorem Primary.exists_last (p : Primary) :
    ∃ before t, p.tokens = before ++ [t] ∧ t.item ≠ .newline := by
  cases p with
  | strings pos text more =>
    rcases List.eq_nil_or_concat more with rfl | ⟨before, last, rfl⟩
    · exact ⟨[], ⟨pos, .string text⟩, rfl, by simp⟩
    · refine ⟨⟨pos, .string text⟩ :: before.map fun s => ⟨s.pos, .string s.item⟩,
        ⟨last.pos, .string last.item⟩, ?_, by simp⟩
      simp [Primary.tokens]
  | integer pos value => exact ⟨[], _, rfl, by simp⟩
  | constant pos constant => exact ⟨[], _, rfl, by simp⟩
  | map opening entries closing =>
    exact ⟨⟨opening, .openBrace⟩ :: entries.tokens, ⟨closing, .closeBrace⟩, rfl, by simp⟩
  | list opening items closing =>
    exact ⟨⟨opening, .openBracket⟩ :: items.tokens, ⟨closing, .closeBracket⟩, rfl, by simp⟩
  | paren opening inner closing =>
    exact ⟨⟨opening, .openParen⟩ :: inner.tokens, ⟨closing, .closeParen⟩, rfl, by simp⟩
  | var name opening argument closing =>
    exact ⟨⟨name, .name "Var"⟩ :: ⟨opening, .openParen⟩ :: argument.tokens,
      ⟨closing, .closeParen⟩, rfl, by simp⟩

theorem Summands.exists_last (first : Primary) (rest : Summands) :
    ∃ before t, first.tokens ++ rest.tokens = before ++ [t] ∧ t.item ≠ .newline := by
  cases rest with
  | done =>
    obtain ⟨before, t, hb, ht⟩ := first.exists_last
    exact ⟨before, t, by rw [Summands.tokens, List.append_nil, hb], ht⟩
  | plus pos operand rest =>
    obtain ⟨before, t, hb, ht⟩ := rest.exists_last operand
    exact ⟨first.tokens ++ ⟨pos, .plus⟩ :: before, t, by rw [Summands.tokens, hb]; simp, ht⟩
termination_by structural rest

theorem Expression.exists_last (x : Expression) :
    ∃ before t, x.tokens = before ++ [t] ∧ t.item ≠ .newline := by
  obtain ⟨first, rest⟩ := x
  exact rest.exists_last first

theorem Assignment.exists_last (a : Assignment) :
    ∃ before t, a.tokens = before ++ [t] ∧ t.item ≠ .newline := by
  obtain ⟨before, t, ht, hn⟩ := a.value.exists_last
  refine ⟨⟨a.pos, .name a.target⟩ :: ⟨a.sign, .assign⟩ :: before, t, ?_, hn⟩
  rw [Assignment.tokens, ht]
  rfl

end PinnedDeps.Grammar
