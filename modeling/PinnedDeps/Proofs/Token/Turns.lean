import PinnedDeps.Proofs.Token.Shape
import Mathlib.Logic.Relation

/-! The lexer turn by turn. A turn skips blanks and then leaves out a line end or adds one token, so
it is told by what it needs and what it leaves. A text is lexed exactly if turns lead to a point
with nothing but blanks left, and whatever all turns keep is known of every point on the way. -/

namespace PinnedDeps

/-- In a list with one more at its end, an element is this one or stands in the list. -/
theorem cut_of_concat {α : Type} {before after xs : List α} {t x : α}
    (h : before ++ t :: after = xs ++ [x]) :
    (before = xs ∧ t = x) ∨ ∃ more, xs = before ++ t :: more := by
  rcases List.eq_nil_or_concat after with rfl | ⟨more, u, rfl⟩
  · obtain ⟨hfront, ht⟩ := List.append_inj' h rfl
    exact .inl ⟨hfront, List.singleton_inj.mp ht⟩
  · rw [List.concat_eq_append, ← List.cons_append, ← List.append_assoc] at h
    exact .inr ⟨more, (List.append_inj' h rfl).1.symm⟩

/-- The lexer between two turns: the brackets it counts as open, the tokens it has, the last one
first, and the characters it has left. -/
structure Lexing where
  depth : Nat
  done : List Token
  rest : List (Located Char)

namespace Lexing

open Lexer

inductive Turn : Lexing → Lexing → Prop where
  | leaveOut {depth : Nat} {done : List Token} {cs rest : List (Located Char)} {p : Position} :
      skipBlanks cs = .ok (⟨p, '\n'⟩ :: rest) → suppressesNewline depth done = true →
      Turn ⟨depth, done, cs⟩ ⟨depth, done, rest⟩
  | lineEnd {depth : Nat} {done : List Token} {cs rest : List (Located Char)} {p : Position} :
      skipBlanks cs = .ok (⟨p, '\n'⟩ :: rest) → suppressesNewline depth done = false →
      Turn ⟨depth, done, cs⟩ ⟨depth, ⟨p, .newline⟩ :: done, rest⟩
  | token {depth : Nat} {done : List Token} {cs rest after : List (Located Char)}
      {c : Located Char} {l : Lexeme} :
      skipBlanks cs = .ok (c :: rest) → lexeme c rest = .ok (l, after) →
      l.depthAfter depth ≤ maxNesting →
      Turn ⟨depth, done, cs⟩ ⟨l.depthAfter depth, ⟨c.pos, l⟩ :: done, after⟩

/-- The lexer in front of a text. -/
def start (text : String) : Lexing := ⟨0, [], Source.locate .start text.toList⟩

/-- Lexing the text comes to the point. -/
def Comes (text : String) (s : Lexing) : Prop := Relation.ReflTransGen Turn (start text) s

variable {text : String} {s s' : Lexing} {tokens : List Token}

/-! ### Turns and the loop -/

theorem Turn.tokensFrom_eq (h : Turn s s') (stop : Position) :
    tokensFrom stop s.depth s.done s.rest = tokensFrom stop s'.depth s'.done s'.rest := by
  cases h with
  | leaveOut hskip hs =>
    rw [Lexer.tokensFrom_eq, hskip]
    simp [hs]
  | lineEnd hskip hs =>
    rw [Lexer.tokensFrom_eq, hskip]
    simp [hs]
  | token hskip hl hd =>
    obtain ⟨-, -, -, hn⟩ := not_skipped_of_lexeme hl
    rw [Lexer.tokensFrom_eq, hskip]
    simp only [if_neg hn, hl]
    rw [if_neg (Nat.not_lt.mpr hd)]

/-- By the recursion of the loop: where it ends well, turns have led there. -/
theorem exists_of_tokensFrom {stop : Position} {depth : Nat} {done : List Token}
    {cs : List (Located Char)} (h : tokensFrom stop depth done cs = .ok tokens) :
    ∃ s, Relation.ReflTransGen Turn ⟨depth, done, cs⟩ s ∧ skipBlanks s.rest = .ok [] ∧
      tokens = s.done.reverse ++ [⟨stop, .eof⟩] := by
  fun_induction tokensFrom stop depth done cs with
  | case1 => cases h
  | case2 depth done cs hskip =>
    obtain rfl := Except.ok.inj h
    exact ⟨_, .refl, hskip, List.reverse_cons⟩
  | case3 depth done cs c rest hskip hline hs ih =>
    obtain ⟨p, ch⟩ := c
    obtain rfl : ch = '\n' := hline
    obtain ⟨s, hcomes, hend⟩ := ih h
    exact ⟨s, .head (.leaveOut hskip hs) hcomes, hend⟩
  | case4 depth done cs c rest hskip hline hs ih =>
    obtain ⟨p, ch⟩ := c
    obtain rfl : ch = '\n' := hline
    obtain ⟨s, hcomes, hend⟩ := ih h
    exact ⟨s, .head (.lineEnd hskip (Bool.eq_false_iff.mpr hs)) hcomes, hend⟩
  | case5 => cases h
  | case6 => cases h
  | case7 depth done cs c rest hskip hline l after hl depth' hmax ih =>
    obtain ⟨s, hcomes, hend⟩ := ih h
    exact ⟨s, .head (.token hskip hl (Nat.not_lt.mp hmax)) hcomes, hend⟩

theorem Comes.tokenize_eq (h : Comes text s) :
    tokenize text =
      tokensFrom (Position.start.afterAll text.toList) s.depth s.done s.rest := by
  induction h with
  | refl => rfl
  | tail _ hturn ih => exact ih.trans (hturn.tokensFrom_eq _)

/-- A text is lexed as some tokens exactly if turns lead to a point with these tokens where only
blanks are left. -/
theorem tokenize_eq_ok_iff : tokenize text = .ok tokens ↔
    ∃ s, Comes text s ∧ skipBlanks s.rest = .ok [] ∧
      tokens = s.done.reverse ++ [⟨Position.start.afterAll text.toList, .eof⟩] := by
  refine ⟨exists_of_tokensFrom, ?_⟩
  rintro ⟨s, hcomes, hskip, rfl⟩
  rw [hcomes.tokenize_eq, Lexer.tokensFrom_eq, hskip]
  exact congrArg Except.ok List.reverse_cons

/-! ### What all turns keep -/

theorem Turn.lexed (h : Turn s s') (hs : Spelling.Lexed s.depth s.done) :
    Spelling.Lexed s'.depth s'.done := by
  cases h with
  | leaveOut => exact hs
  | lineEnd _ hline => exact hs.push (t := ⟨_, .newline⟩) trivial hs.depth_le fun _ => hline
  | token _ hl hd =>
    obtain ⟨hwritable, hnewline⟩ := Spelling.isWritable_of_lexeme hl
    exact hs.push (t := ⟨_, _⟩) hwritable hd fun hn => absurd hn hnewline

theorem Comes.lexed (h : Comes text s) : Spelling.Lexed s.depth s.done := by
  induction h with
  | refl => exact Spelling.lexed_nil
  | tail _ hturn ih => exact hturn.lexed ih

/-- Each token that the lexer has was added by a turn, to the tokens in front of it. -/
theorem Comes.exists_turn (h : Comes text s) {later earlier : List Token} {t : Token}
    (hdone : s.done = later ++ t :: earlier) :
    ∃ u u', Comes text u ∧ u.Turn u' ∧ u.done = earlier ∧ u'.done = t :: earlier := by
  induction h generalizing later with
  | refl => exact absurd hdone (by simp [start])
  | @tail v w hv hturn ih =>
    cases hturn with
    | leaveOut => exact ih hdone
    | lineEnd hskip hs =>
      cases later with
      | nil =>
        obtain ⟨rfl, rfl⟩ := List.cons.inj hdone
        exact ⟨_, _, hv, .lineEnd hskip hs, rfl, rfl⟩
      | cons u later => exact ih (List.cons.inj hdone).2
    | token hskip hl hd =>
      cases later with
      | nil =>
        obtain ⟨rfl, rfl⟩ := List.cons.inj hdone
        exact ⟨_, _, hv, .token hskip hl hd, rfl, rfl⟩
      | cons u later => exact ih (List.cons.inj hdone).2

end Lexing

end PinnedDeps
