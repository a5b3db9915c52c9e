import PinnedDeps.Proofs.Grammar.Soundness

/-! How high syntax trees are. A tree grows by one node with each bracket that leaves one, and by
one with each sum, and the sum around a bracket can be the only thing in another. So inside some
brackets an operand may be two nodes higher than inside one more, and as no more brackets are open
than may be, no value of a statement is higher than a number that does not depend on the tokens. -/

namespace PinnedDeps

mutual

/-- How many nodes stand on the longest way from the root of the expression to a leaf. -/
def Expr.height : Expr → Nat
  | .list _ items => heightItems items + 1
  | .map _ entries => heightEntries entries + 1
  | .sum _ first rest => max first.height (heightOperands rest) + 1
  | .var _ argument => argument.height + 1
  | _ => 1

def Expr.heightItems : List Expr → Nat
  | [] => 0
  | item :: rest => max item.height (heightItems rest)

def Expr.heightEntries : List (Expr × Expr) → Nat
  | [] => 0
  | (key, value) :: rest => max (max key.height value.height) (heightEntries rest)

def Expr.heightOperands : List (Position × Expr) → Nat
  | [] => 0
  | (_, operand) :: rest => max operand.height (heightOperands rest)

end

namespace Expr

variable {n : Nat}

theorem height_pos (e : Expr) : 0 < e.height := by
  cases e <;> exact Nat.succ_pos _

theorem heightItems_le_iff {items : List Expr} :
    heightItems items ≤ n ↔ ∀ e ∈ items, e.height ≤ n := by
  induction items with
  | nil => simp [heightItems]
  | cons item rest ih => rw [heightItems, Nat.max_le, ih, List.forall_mem_cons]

theorem heightEntries_le_iff {entries : List (Expr × Expr)} :
    heightEntries entries ≤ n ↔ ∀ e ∈ entries, e.1.height ≤ n ∧ e.2.height ≤ n := by
  induction entries with
  | nil => simp [heightEntries]
  | cons entry rest ih =>
    obtain ⟨key, value⟩ := entry
    rw [heightEntries, Nat.max_le, Nat.max_le, ih, List.forall_mem_cons]

theorem heightOperands_le_iff {operands : List (Position × Expr)} :
    heightOperands operands ≤ n ↔ ∀ o ∈ operands, o.2.height ≤ n := by
  induction operands with
  | nil => simp [heightOperands]
  | cons operand rest ih =>
    obtain ⟨plus, operand⟩ := operand
    rw [heightOperands, Nat.max_le, ih, List.forall_mem_cons]

end Expr

namespace Reader

open Grammar (exists_of_map_eq_ok exists_readInside)

/-! ### Bounds while reading -/

/-- How high an operand may be inside so many brackets. A sum of operands is one node higher. -/
def operandBound (depth : Nat) : Nat := 2 * (maxNesting - depth) + 1

theorem operandBound_succ {depth : Nat} (h : depth < maxNesting) :
    operandBound depth = operandBound (depth + 1) + 2 := by
  unfold operandBound
  omega

/-- What stands in the bracket is not higher. -/
def Bracket.Bounded (n : Nat) : Bracket → Prop
  | .list _ items => ∀ e ∈ items, e.height ≤ n
  | .key _ entries => ∀ e ∈ entries, e.1.height ≤ n ∧ e.2.height ≤ n
  | .entry _ entries last => (∀ e ∈ entries, e.1.height ≤ n ∧ e.2.height ≤ n) ∧ last.height ≤ n
  | .paren | .var _ => True

def Operands.Bounded (n : Nat) (o : Operands) : Prop :=
  o.first.height ≤ n ∧ ∀ operand ∈ o.rest, operand.2.height ≤ n

/-- Each bracket is open inside fewer than may be, and what stands in it and before it is as high as
may be there. -/
def LevelsBounded : List Level → Prop
  | [] => True
  | level :: outer =>
    outer.length < maxNesting ∧ level.bracket.Bounded (operandBound (outer.length + 1) + 1) ∧
      (∀ o ∈ level.before, o.Bounded (operandBound outer.length)) ∧ LevelsBounded outer

structure Context.Bounded (ctx : Context) : Prop where
  levels : LevelsBounded ctx.levels
  before : ∀ o ∈ ctx.before, o.Bounded (operandBound ctx.levels.length)

def Point.Bounded : Point → Prop
  | .outside | .target _ _ => True
  | .value ctx | .text ctx _ _ | .name ctx _ _ => ctx.Bounded
  | .operand ctx e => ctx.Bounded ∧ e.height ≤ operandBound ctx.levels.length

structure Bounded (r : Reader) : Prop where
  statements : ∀ s ∈ r.statements, s.value.height ≤ operandBound 0 + 1
  point : r.point.Bounded

/-! ### Sums -/

variable {n : Nat} {ctx : Context} {level : Level} {outer : List Level} {e : Expr} {t : Token}
  {point : Point} {r r' : Reader} {done : List Statement}

theorem forall_mem_reverse {α : Type} {p : α → Prop} {xs : List α} (h : ∀ x ∈ xs, p x) :
    ∀ x ∈ xs.reverse, p x := fun x hx => h x (List.mem_reverse.mp hx)

theorem height_sumWith {before : Option Operands} (hb : ∀ o ∈ before, o.Bounded n)
    (he : e.height ≤ n) : (sumWith e before).height ≤ n + 1 := by
  cases before with
  | none => exact Nat.le_succ_of_le he
  | some o =>
    obtain ⟨hfirst, hrest⟩ := hb o rfl
    have hall : ∀ operand ∈ (o.plus, e) :: o.rest, operand.2.height ≤ n :=
      List.forall_mem_cons.mpr ⟨he, hrest⟩
    have hoperands : Expr.heightOperands ((o.plus, e) :: o.rest).reverse ≤ n :=
      Expr.heightOperands_le_iff.mpr (forall_mem_reverse hall)
    rw [sumWith, Expr.height]
    omega

theorem bounded_addOperand {before : Option Operands} (hb : ∀ o ∈ before, o.Bounded n)
    (he : e.height ≤ n) (plus : Position) : (addOperand before e plus).Bounded n := by
  cases before with
  | none => exact ⟨he, by simp [addOperand]⟩
  | some o =>
    obtain ⟨hfirst, hrest⟩ := hb o rfl
    exact ⟨hfirst, List.forall_mem_cons.mpr ⟨he, hrest⟩⟩

/-! ### Brackets -/

theorem bounded_of_enter {pos : Position} {bracket : Bracket} (h : enter ctx pos bracket = .ok point)
    (hb : ∀ n, bracket.Bounded n) (hc : ctx.Bounded) : point.Bounded := by
  unfold enter at h
  split at h <;> cases h
  next hlt => exact ⟨⟨hlt, hb _, hc.before, hc.levels⟩, nofun⟩

theorem bounded_goOn {bracket : Bracket} (h : LevelsBounded (level :: outer))
    (hb : bracket.Bounded (operandBound (outer.length + 1) + 1)) :
    (goOn ctx outer level bracket).Bounded :=
  ⟨⟨h.1, hb, h.2.2⟩, nofun⟩

/-- With the bracket closed, its node is one higher than what stands in it. -/
theorem bounded_leave (h : LevelsBounded (level :: outer))
    (he : e.height ≤ operandBound (outer.length + 1) + 2) :
    (leave ctx outer level e).Bounded := by
  obtain ⟨hlt, -, hbefore, houter⟩ := h
  refine ⟨⟨houter, hbefore⟩, ?_⟩
  show e.height ≤ operandBound outer.length
  rwa [operandBound_succ hlt]

theorem height_list_le {pos : Position} {items : List Expr} (h : ∀ e ∈ items, e.height ≤ n) :
    (Expr.list pos items).height ≤ n + 1 :=
  Nat.succ_le_succ (Expr.heightItems_le_iff.mpr h)

theorem height_map_le {pos : Position} {entries : List (Expr × Expr)}
    (h : ∀ e ∈ entries, e.1.height ≤ n ∧ e.2.height ≤ n) :
    (Expr.map pos entries).height ≤ n + 1 :=
  Nat.succ_le_succ (Expr.heightEntries_le_iff.mpr h)

/-! ### One token -/

theorem bounded_readValue (h : readValue ctx t = .ok point) (hc : ctx.Bounded) :
    point.Bounded := by
  have hleaf : 1 ≤ operandBound ctx.levels.length := Nat.succ_pos _
  obtain ⟨pos, item⟩ := t
  cases item with
  | openBrace | openBracket => exact bounded_of_enter h (fun _ _ => nofun) hc
  | openParen => exact bounded_of_enter h (fun _ => trivial) hc
  | string text => cases h; exact hc
  | integer n => cases h; exact ⟨hc, hleaf⟩
  | name word =>
    unfold readValue at h
    dsimp only at h
    repeat' split at h
    all_goals
      cases h
      first | exact hc | exact ⟨hc, hleaf⟩
  -- a bracket closes here if nothing stands in it, or a comma stands last
  | closeBracket =>
    obtain ⟨target, place, levels, before⟩ := ctx
    rcases before with _ | before <;> rcases levels with _ | ⟨⟨bracket, outside⟩, outer⟩
    all_goals first | cases h | (cases bracket <;> cases h)
    exact bounded_leave hc.levels (height_list_le (forall_mem_reverse hc.levels.2.1))
  | closeBrace =>
    obtain ⟨target, place, levels, before⟩ := ctx
    rcases before with _ | before <;> rcases levels with _ | ⟨⟨bracket, outside⟩, outer⟩
    all_goals first | cases h | (cases bracket <;> cases h)
    exact bounded_leave hc.levels (height_map_le (forall_mem_reverse hc.levels.2.1))
  | _ =>
    obtain ⟨target, place, levels, before⟩ := ctx
    rcases before with _ | before <;> rcases levels with _ | ⟨⟨bracket, outside⟩, outer⟩
    all_goals first | cases h | (cases bracket <;> cases h)

theorem bounded_readInside (h : readInside ctx level outer e t = .ok point)
    (hl : LevelsBounded (level :: outer)) (he : e.height ≤ operandBound (outer.length + 1) + 1) :
    point.Bounded := by
  obtain ⟨bracket, outside⟩ := level
  obtain ⟨pos, item⟩ := t
  have hb := hl.2.1
  cases bracket with
  | list pos items =>
    have hitems : ∀ item ∈ e :: items, item.height ≤ operandBound (outer.length + 1) + 1 :=
      List.forall_mem_cons.mpr ⟨he, hb⟩
    cases item <;> cases h
    · exact bounded_leave hl (height_list_le (forall_mem_reverse hitems))
    · exact bounded_goOn hl hitems
  | key pos entries =>
    cases item <;> cases h
    exact bounded_goOn hl ⟨hb, he⟩
  | entry pos entries last =>
    have hentries : ∀ entry ∈ (last, e) :: entries,
        entry.1.height ≤ operandBound (outer.length + 1) + 1 ∧
          entry.2.height ≤ operandBound (outer.length + 1) + 1 :=
      List.forall_mem_cons.mpr ⟨⟨hb.2, he⟩, hb.1⟩
    cases item <;> cases h
    · exact bounded_leave hl (height_map_le (forall_mem_reverse hentries))
    · exact bounded_goOn hl hentries
  | paren =>
    cases item <;> cases h
    exact bounded_leave hl (Nat.le_succ_of_le he)
  | var pos =>
    cases item <;> cases h
    exact bounded_leave hl (Nat.succ_le_succ he)

theorem bounded_readAfter (h : readAfter done ctx e t = .ok r)
    (hdone : ∀ s ∈ done, s.value.height ≤ operandBound 0 + 1) (hc : ctx.Bounded)
    (he : e.height ≤ operandBound ctx.levels.length) : r.Bounded := by
  obtain ⟨target, place, levels, before⟩ := ctx
  obtain ⟨pos, item⟩ := t
  have hsum := height_sumWith hc.before he
  by_cases hplus : item = .plus
  · subst hplus
    cases h
    refine ⟨hdone, hc.levels, fun o ho => ?_⟩
    obtain rfl := Option.mem_some_iff.mp ho
    exact bounded_addOperand hc.before he pos
  cases levels with
  | nil =>
    cases item <;> first | exact absurd rfl hplus | cases h
    all_goals exact ⟨List.forall_mem_cons.mpr ⟨hsum, hdone⟩, trivial⟩
  | cons level outer =>
    obtain ⟨point, hi, rfl⟩ := exists_readInside hplus h
    exact ⟨hdone, bounded_readInside hi hc.levels hsum⟩

/-- What is read stays within the bounds with each token. -/
theorem bounded_read (h : r.read t = .ok r') (hr : r.Bounded) : r'.Bounded := by
  obtain ⟨done, point⟩ := r
  obtain ⟨hdone, hpoint⟩ := hr
  cases point with
  | outside =>
    obtain ⟨pos, item⟩ := t
    cases item <;> cases h
    all_goals exact ⟨hdone, trivial⟩
  | target place word =>
    obtain ⟨pos, item⟩ := t
    cases item <;> cases h
    exact ⟨hdone, trivial, nofun⟩
  | value ctx =>
    obtain ⟨point, hv, rfl⟩ := exists_of_map_eq_ok h
    exact ⟨hdone, bounded_readValue hv hpoint⟩
  | text ctx place text =>
    by_cases ht : ∃ more, t.item = .string more
    · obtain ⟨pos, item⟩ := t
      obtain ⟨more, rfl⟩ := ht
      cases h
      exact ⟨hdone, hpoint⟩
    · rw [read_text fun more hmore => ht ⟨more, hmore⟩] at h
      exact bounded_readAfter h hdone hpoint (Nat.succ_pos _)
  | name ctx place word =>
    obtain ⟨pos, item⟩ := t
    cases item with
    | openParen =>
      simp only [Reader.read] at h
      split at h
      · obtain ⟨point, he, rfl⟩ := exists_of_map_eq_ok h
        exact ⟨hdone, bounded_of_enter he (fun _ => trivial) hpoint⟩
      · cases h
    | _ => cases h
  | operand ctx e => exact bounded_readAfter h hdone hpoint.1 hpoint.2

theorem bounded_readAll {tokens : List Token} (h : r.readAll tokens = .ok r') (hr : r.Bounded) :
    r'.Bounded := by
  induction tokens generalizing r with
  | nil =>
    cases h
    exact hr
  | cons t rest ih =>
    rw [readAll] at h
    cases hread : r.read t with
    | error e =>
      rw [hread] at h
      cases h
    | ok next =>
      have hnext := bounded_read hread hr
      simp only [hread] at h
      split at h
      · cases h
        exact hnext
      · exact ih h hnext

end Reader

/-- No value of a statement that is parsed is higher than two nodes for each bracket that may be
open, and two for a sum outside of them, whatever the tokens. -/
theorem height_of_parse {tokens : List Token} {program : List Statement}
    (h : parse tokens = .ok program) : ∀ s ∈ program, s.value.height ≤ 2 * maxNesting + 2 := by
  obtain ⟨r, hr, rfl⟩ := Grammar.exists_of_map_eq_ok h
  have hbounded : r.Bounded := Reader.bounded_readAll hr ⟨nofun, trivial⟩
  exact fun s hs => hbounded.statements s (List.mem_reverse.mp hs)

end PinnedDeps
