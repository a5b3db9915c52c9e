import PinnedDeps.Proofs.Token.Moved
import PinnedDeps.Proofs.Grammar.Completeness

/-! Tokens at other places. Every place in a tree is that of one of its tokens and the reader never
looks at one, so it reads tokens at other places as the same statements at other places. -/

namespace PinnedDeps

variable (f : Position → Position)

/-! ### Trees -/

mutual

/-- The same expression with all its tokens at other places. -/
def Expr.moved : Expr → Expr
  | .str pos text => .str (f pos) text
  | .int pos value => .int (f pos) value
  | .bool pos value => .bool (f pos) value
  | .none pos => .none (f pos)
  | .list pos items => .list (f pos) (movedItems items)
  | .map pos entries => .map (f pos) (movedEntries entries)
  | .sum pos first rest => .sum (f pos) first.moved (movedOperands rest)
  | .var pos argument => .var (f pos) argument.moved

def Expr.movedItems : List Expr → List Expr
  | [] => []
  | item :: rest => item.moved :: movedItems rest

def Expr.movedEntries : List (Expr × Expr) → List (Expr × Expr)
  | [] => []
  | (key, value) :: rest => (key.moved, value.moved) :: movedEntries rest

def Expr.movedOperands : List (Position × Expr) → List (Position × Expr)
  | [] => []
  | (plus, operand) :: rest => (f plus, operand.moved) :: movedOperands rest

end

def Expr.movedEntry (entry : Expr × Expr) : Expr × Expr := (entry.1.moved f, entry.2.moved f)

def Expr.movedOperand (operand : Position × Expr) : Position × Expr :=
  (f operand.1, operand.2.moved f)

theorem Expr.movedItems_eq_map (items : List Expr) :
    movedItems f items = items.map (·.moved f) := by
  induction items with
  | nil => rfl
  | cons item rest ih => rw [movedItems, ih, List.map_cons]

theorem Expr.movedEntries_eq_map (entries : List (Expr × Expr)) :
    movedEntries f entries = entries.map (movedEntry f) := by
  induction entries with
  | nil => rfl
  | cons entry rest ih => rw [movedEntries, ih, List.map_cons]; rfl

theorem Expr.movedOperands_eq_map (operands : List (Position × Expr)) :
    movedOperands f operands = operands.map (movedOperand f) := by
  induction operands with
  | nil => rfl
  | cons operand rest ih => rw [movedOperands, ih, List.map_cons]; rfl

@[simp]
theorem Expr.pos_moved (e : Expr) : (e.moved f).pos = f e.pos := by
  cases e <;> rfl

def Statement.moved (s : Statement) : Statement := ⟨s.target, f s.pos, s.value.moved f⟩

/-! ### Readers -/

namespace Reader

def Bracket.moved : Bracket → Bracket
  | .list pos items => .list (f pos) (items.map (·.moved f))
  | .key pos entries => .key (f pos) (entries.map (Expr.movedEntry f))
  | .entry pos entries first => .entry (f pos) (entries.map (Expr.movedEntry f)) (first.moved f)
  | .paren => .paren
  | .var pos => .var (f pos)

def Operands.moved (o : Operands) : Operands :=
  ⟨f o.pos, o.first.moved f, o.rest.map (Expr.movedOperand f), f o.plus⟩

def Level.moved (l : Level) : Level := ⟨l.bracket.moved f, l.before.map (·.moved f)⟩

def Context.moved (ctx : Context) : Context :=
  ⟨ctx.target, f ctx.pos, ctx.levels.map (·.moved f), ctx.before.map (·.moved f)⟩

def Point.moved : Point → Point
  | .outside => .outside
  | .target pos word => .target (f pos) word
  | .value ctx => .value (ctx.moved f)
  | .text ctx pos word => .text (ctx.moved f) (f pos) word
  | .name ctx pos word => .name (ctx.moved f) (f pos) word
  | .operand ctx e => .operand (ctx.moved f) (e.moved f)

end Reader

def Reader.moved (r : Reader) : Reader := ⟨r.statements.map (·.moved f), r.point.moved f⟩

namespace Reader

open Grammar

theorem sumWith_moved (e : Expr) (before : Option Operands) :
    sumWith (e.moved f) (before.map (·.moved f)) = (sumWith e before).moved f := by
  cases before with
  | none => rfl
  | some before =>
    simp [sumWith, Expr.moved, Expr.movedOperands_eq_map, Operands.moved, Expr.movedOperand]

theorem addOperand_moved (before : Option Operands) (e : Expr) (plus : Position) :
    addOperand (before.map (·.moved f)) (e.moved f) (f plus) =
      (addOperand before e plus).moved f := by
  cases before <;> rfl

theorem enter_moved (ctx : Context) (pos : Position) (bracket : Bracket) :
    enter (ctx.moved f) (f pos) (bracket.moved f) =
      Moved.outcome f (·.moved f) (enter ctx pos bracket) := by
  unfold enter
  rw [Context.moved, List.length_map]
  split <;> rfl

theorem readValue_moved (ctx : Context) (t : Token) :
    readValue (ctx.moved f) (t.moved f) = Moved.outcome f (·.moved f) (readValue ctx t) := by
  obtain ⟨pos, item⟩ := t
  obtain ⟨target, place, levels, before⟩ := ctx
  cases item with
  | openBrace => exact enter_moved f _ pos (.key pos [])
  | openBracket => exact enter_moved f _ pos (.list pos [])
  | openParen => exact enter_moved f _ pos .paren
  | name word =>
    unfold readValue
    dsimp only [Located.item_moved]
    split
    · rfl
    split
    · rfl
    split <;> rfl
  | _ =>
    rcases levels with _ | ⟨⟨bracket, outside⟩, outer⟩
    · cases before <;> rfl
    · cases before <;> cases bracket <;>
        simp [readValue, Context.moved, Level.moved, Bracket.moved, leave, Point.moved, Expr.moved,
          Expr.movedItems_eq_map, Expr.movedEntries_eq_map, Located.moved]

theorem readInside_moved (ctx : Context) (level : Level) (outer : List Level) (e : Expr)
    (t : Token) :
    readInside (ctx.moved f) (level.moved f) (outer.map (·.moved f)) (e.moved f) (t.moved f) =
      Moved.outcome f (·.moved f) (readInside ctx level outer e t) := by
  obtain ⟨bracket, before⟩ := level
  obtain ⟨pos, item⟩ := t
  cases bracket <;> cases item <;>
    simp [readInside, Level.moved, Bracket.moved, Point.moved, Context.moved, goOn, leave,
      Expr.moved, Expr.movedItems_eq_map, Expr.movedEntries_eq_map, Expr.movedEntry, Located.moved]

theorem map_point_moved (done : List Statement) (x : Except SyntaxError Point) :
    (Moved.outcome f (·.moved f) x).map (⟨done.map (·.moved f), ·⟩ : Point → Reader) =
      Moved.outcome f (·.moved f) (x.map (⟨done, ·⟩ : Point → Reader)) := by
  cases x <;> rfl

theorem readAfter_moved (done : List Statement) (ctx : Context) (e : Expr) (t : Token) :
    readAfter (done.map (·.moved f)) (ctx.moved f) (e.moved f) (t.moved f) =
      Moved.outcome f (·.moved f) (readAfter done ctx e t) := by
  obtain ⟨pos, item⟩ := t
  obtain ⟨target, place, levels, before⟩ := ctx
  have hsum := sumWith_moved f e before
  by_cases hplus : item = .plus
  · subst hplus
    simp [readAfter, Context.moved, Reader.moved, Point.moved, addOperand_moved]
  cases levels with
  | nil =>
    cases item <;>
      simp_all [readAfter, Context.moved, Reader.moved, Point.moved, Statement.moved, Located.moved]
  | cons level outer =>
    have hinside := readInside_moved f ⟨target, place, level :: outer, before⟩ level outer
      (sumWith e before) ⟨pos, item⟩
    show readAfter _ ⟨target, f place, level.moved f :: outer.map (·.moved f),
      before.map (·.moved f)⟩ _ _ = _
    rw [readAfter_inside hplus, readAfter_inside hplus, hsum]
    exact (congrArg (Except.map _) hinside).trans (map_point_moved f done _)

theorem read_moved (r : Reader) (t : Token) :
    (r.moved f).read (t.moved f) = Moved.outcome f (·.moved f) (r.read t) := by
  obtain ⟨done, point⟩ := r
  cases point with
  | outside =>
    obtain ⟨pos, item⟩ := t
    cases item <;> rfl
  | target place word =>
    obtain ⟨pos, item⟩ := t
    cases item <;> rfl
  | value ctx =>
    rw [Reader.moved, Point.moved, read_value, read_value, readValue_moved, map_point_moved]
  | text ctx place text =>
    by_cases ht : ∃ more, t.item = .string more
    · obtain ⟨pos, item⟩ := t
      obtain ⟨more, rfl⟩ := ht
      rfl
    · have hn : ∀ more, t.item ≠ .string more := fun more hmore => ht ⟨more, hmore⟩
      rw [Reader.moved, Point.moved, read_text (t := t.moved f) hn, read_text hn]
      exact readAfter_moved f done ctx (.str place text) t
  | name ctx place word =>
    obtain ⟨pos, item⟩ := t
    cases item with
    | openParen =>
      show (if word = "Var" then _ else _) = Moved.outcome f _ (if word = "Var" then _ else _)
      split
      · exact (congrArg (Except.map _) (enter_moved f ctx pos (.var place))).trans
          (map_point_moved f done _)
      · rfl
    | _ => rfl
  | operand ctx e => exact readAfter_moved f done ctx e t

theorem readAll_moved (r : Reader) (tokens : List Token) :
    (r.moved f).readAll (tokens.map (·.moved f)) =
      Moved.outcome f (·.moved f) (r.readAll tokens) := by
  induction tokens generalizing r with
  | nil => rfl
  | cons t tokens ih =>
    rw [List.map_cons, readAll, readAll, read_moved]
    cases r.read t with
    | error e => rfl
    | ok r =>
      by_cases ht : t.item = .eof
      · simp [ht]
      · simp [ht, ih]

end Reader

theorem parse_moved (tokens : List Token) :
    parse (tokens.map (·.moved f)) =
      Moved.outcome f (List.map (·.moved f)) (parse tokens) := by
  have hstart : Reader.start.moved f = Reader.start := rfl
  have hread := Reader.readAll_moved f Reader.start tokens
  rw [hstart] at hread
  unfold parse
  rw [hread]
  cases Reader.start.readAll tokens with
  | error e => rfl
  | ok r => exact congrArg Except.ok List.map_reverse.symm

end PinnedDeps
