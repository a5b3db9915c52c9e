import PinnedDeps.Proofs.Evaluation.Moved
import PinnedDeps.Proofs.Evaluation.Ordered
import PinnedDeps.Proofs.Syntax.Lines
import PinnedDeps.Proofs.Token.Seam

/-! Texts below each other. A text that parses leaves nothing open at its end, so a further text on
the lines below it means what it means alone: its statements come behind those of the first, each
place in it is so many lines further down, and its values see what the first text has bound. -/

namespace PinnedDeps

/-- The place so many lines further down. -/
def Position.below (lines : Nat) (p : Position) : Position := ⟨p.line + lines, p.column⟩

/-- The statements of a text. -/
def statementsOf (text : String) : Except SyntaxError (List Statement) := tokenize text >>= parse

namespace Lines

open Lexer Evaluation
open Source (locate)

/-! ### Places -/

theorem after_below (lines : Nat) (p : Position) (c : Char) :
    (p.below lines).after c = (p.after c).below lines := by
  unfold Position.after Position.below
  split
  · rw [Nat.add_right_comm]
  · rfl

theorem afterAll_below (lines : Nat) (p : Position) (cs : List Char) :
    (p.below lines).afterAll cs = (p.afterAll cs).below lines := by
  induction cs generalizing p with
  | nil => rfl
  | cons c cs ih =>
    show ((p.below lines).after c).afterAll cs = _
    rw [after_below, ih]
    rfl

theorem locate_below (lines : Nat) (p : Position) (cs : List Char) :
    locate (p.below lines) cs = (locate p cs).map (·.moved (.below lines)) := by
  induction cs generalizing p with
  | nil => rfl
  | cons c cs ih =>
    rw [Source.locate_cons, Source.locate_cons, after_below, ih]
    rfl

theorem line_afterAll (p : Position) (cs : List Char) :
    (p.afterAll cs).line = p.line + cs.count '\n' := by
  induction cs generalizing p with
  | nil => rfl
  | cons c cs ih =>
    show ((p.after c).afterAll cs).line = _
    rw [ih, List.count_cons, Position.after]
    split
    · next h =>
      subst h
      simp
      omega
    · next h => simp [h]

/-- How many lines a text takes, with the one that a line end behind it opens. -/
def height (text : String) : Nat := text.toList.count '\n' + 1

/-- The line behind a text starts below it. -/
theorem start_below (text : String) :
    (Position.start.afterAll text.toList).after '\n' = Position.start.below (height text) := by
  show (⟨(Position.start.afterAll text.toList).line + 1, 1⟩ : Position) = _
  rw [line_afterAll]
  rfl

/-! ### Tokens -/

/-- At the start of a line outside all brackets, a text is lexed as it is lexed alone, behind the
tokens that are there and so many lines further down. -/
theorem tokensFrom_below {base : List Token} (hb : suppressesNewline 0 base = true)
    (lines : Nat) (text : String) :
    tokensFrom ((Position.start.below lines).afterAll text.toList) 0 base
        (locate (Position.start.below lines) text.toList) =
      (Moved.outcome (.below lines) (List.map (·.moved (.below lines)))
        (tokenize text)).map (base.reverse ++ ·) := by
  have hmoved := tokensFrom_moved (.below lines) (Position.start.afterAll text.toList) 0 []
    (locate Position.start text.toList)
  rw [afterAll_below, locate_below, ← List.nil_append base, tokensFrom_behind hb]
  exact congrArg (Except.map _) hmoved

/-- Behind the tokens of a text that parses, and a line end where none is left out, come those of
the text below it. -/
theorem exists_tokenize_below {above : String} {tokens : List Token} {program : List Statement}
    (h : tokenize above = .ok tokens) (hp : parse tokens = .ok program) (below : String) :
    ∃ (body seam : List Token) (stop : Position),
      tokens = body ++ [⟨stop, .eof⟩] ∧ (∀ t ∈ body, t.item ≠ .eof) ∧
      (∀ t ∈ seam, t.item = .newline) ∧ (∀ t ∈ (body ++ seam).getLast?, t.item = .newline) ∧
      tokenize (above ++ "\n" ++ below) =
        (Moved.outcome (.below (height above)) (List.map (·.moved (.below (height above))))
          (tokenize below)).map (body ++ seam ++ ·) := by
  obtain ⟨done, rfl, he, hread⟩ := exists_tokensFrom_append h rfl (by simp)
  have hbody : ∀ t ∈ done.reverse, t.item ≠ .eof := fun t ht => he t (List.mem_reverse.mp ht)
  have hdepth := depthBehind_of_parse hbody hp
  have htext : (above ++ "\n" ++ below).toList = above.toList ++ '\n' :: below.toList := by simp
  have hstop : Position.start.afterAll (above.toList ++ '\n' :: below.toList) =
      (Position.start.below (height above)).afterAll below.toList := by
    rw [← start_below]
    exact List.foldl_append
  have hsplit : tokenize (above ++ "\n" ++ below) =
      tokensFrom ((Position.start.below (height above)).afterAll below.toList) 0 done
        (⟨Position.start.afterAll above.toList, '\n'⟩ ::
          locate (Position.start.below (height above)) below.toList) := by
    unfold tokenize
    dsimp only
    rw [htext, hstop, Source.locate_append, Source.locate_cons, hread, hdepth, start_below]
  rw [tokensFrom_lineFeed] at hsplit
  split at hsplit
  · next hs =>
    refine ⟨done.reverse, [], _, rfl, hbody, by simp, ?_, ?_⟩
    · rw [List.append_nil, List.getLast?_reverse]
      intro t ht
      have hall : (done.head?.all fun t => t.item = .newline) = true := hs
      rw [Option.mem_def.mp ht] at hall
      exact of_decide_eq_true hall
    · rw [hsplit, tokensFrom_below hs, List.append_nil]
  · next hs =>
    refine ⟨done.reverse, [⟨Position.start.afterAll above.toList, .newline⟩], _, rfl, hbody,
      by simp, ?_, ?_⟩
    · rw [List.getLast?_concat]
      simp
    · rw [hsplit, tokensFrom_below rfl, List.reverse_cons]

/-! ### Statements -/

/-- A text below one that parses is read as it is read alone, but for its places. -/
theorem statementsOf_below {above : String} {program : List Statement}
    (h : statementsOf above = .ok program) (below : String) :
    statementsOf (above ++ "\n" ++ below) =
      Moved.outcome (.below (height above))
        (fun more => program ++ more.map (·.moved (.below (height above))))
        (statementsOf below) := by
  obtain ⟨tokens, htokens, hp⟩ := exists_of_bind_eq_ok h
  obtain ⟨body, seam, stop, rfl, hbody, hseam, hlast, hsplit⟩ :=
    exists_tokenize_below htokens hp below
  unfold statementsOf
  rw [hsplit]
  cases hmore : tokenize below with
  | error e => rfl
  | ok tokens =>
    show parse (body ++ seam ++ tokens.map (·.moved (.below (height above)))) = _
    rw [parse_append hbody hp hseam hlast, parse_moved, ok_bind]
    cases parse tokens <;> rfl

/-! ### Values -/

theorem outcome_evaluate_eq (platform : Platform) (source text : String) :
    (evaluate platform source text).outcome =
      (statementsOf text).mapError EvalError.malformed >>= fun program =>
        (run platform program).outcome := by
  rw [outcome_evaluate, statementsOf]
  cases tokenize text <;> rfl

theorem evaluate_below {above : String} {program : List Statement}
    (h : statementsOf above = .ok program) (below : String) :
    (∀ more, statementsOf below = .ok more →
      statementsOf (above ++ "\n" ++ below) =
          .ok (program ++ more.map (·.moved (.below (height above)))) ∧
        ∀ platform source, (evaluate platform source (above ++ "\n" ++ below)).outcome =
          (runFrom platform (pure []) program).outcome >>= fun scope =>
            ((runFrom platform (pure scope) more).outcome.map DepsFile.ofScope).mapError
              (·.moved (.below (height above)))) ∧
    ∀ e, statementsOf below = .error e →
      statementsOf (above ++ "\n" ++ below) = .error (e.moved (.below (height above))) ∧
        ∀ platform source, (evaluate platform source (above ++ "\n" ++ below)).outcome =
          .error (.malformed (e.moved (.below (height above)))) := by
  have hread := statementsOf_below h below
  constructor
  · intro more hmore
    rw [hmore] at hread
    refine ⟨hread, fun platform source => ?_⟩
    rw [outcome_evaluate_eq, hread]
    show (run platform (program ++ more.map (·.moved (.below (height above))))).outcome = _
    rw [outcome_run, runFrom_append, outcome_runFrom_bind, bind_assoc]
    refine congrArg _ (funext fun scope => ?_)
    rw [outcome_runFrom_moved]
    cases (runFrom platform (pure scope) more).outcome <;> rfl
  · intro e he
    rw [he] at hread
    refine ⟨hread, fun platform source => ?_⟩
    rw [outcome_evaluate_eq, hread]
    rfl

/-! ### A variable and its use -/

def varsLine : String := "vars = \x7b'a': 'b'\x7d # one\n"

def varsStatements : List Statement :=
  [⟨"vars", ⟨1, 1⟩, .map ⟨1, 8⟩ [(.str ⟨1, 9⟩ "a", .str ⟨1, 14⟩ "b")]⟩]

theorem statementsOf_varsLine : statementsOf varsLine = .ok varsStatements := by
  have htokens : tokenize varsLine = .ok [⟨⟨1, 1⟩, .name "vars"⟩, ⟨⟨1, 6⟩, .assign⟩,
      ⟨⟨1, 8⟩, .openBrace⟩, ⟨⟨1, 9⟩, .string "a"⟩, ⟨⟨1, 12⟩, .colon⟩, ⟨⟨1, 14⟩, .string "b"⟩,
      ⟨⟨1, 17⟩, .closeBrace⟩, ⟨⟨1, 24⟩, .newline⟩, ⟨⟨2, 1⟩, .eof⟩] := by
    decide +kernel
  rw [statementsOf, htokens]
  rfl

theorem statementsOf_use :
    statementsOf "x = Var('a')" = .ok [⟨"x", ⟨1, 1⟩, .var ⟨1, 5⟩ (.str ⟨1, 9⟩ "a")⟩] := by
  have htokens : tokenize "x = Var('a')" = .ok [⟨⟨1, 1⟩, .name "x"⟩, ⟨⟨1, 3⟩, .assign⟩,
      ⟨⟨1, 5⟩, .name "Var"⟩, ⟨⟨1, 8⟩, .openParen⟩, ⟨⟨1, 9⟩, .string "a"⟩,
      ⟨⟨1, 12⟩, .closeParen⟩, ⟨⟨1, 13⟩, .eof⟩] := by
    decide +kernel
  rw [statementsOf, htokens]
  rfl

theorem evaluate_below_of_vars :
    statementsOf (varsLine ++ "\n" ++ "x = Var('a')") =
        .ok (varsStatements ++ [⟨"x", ⟨3, 1⟩, .var ⟨3, 5⟩ (.str ⟨3, 9⟩ "a")⟩]) ∧
      (evaluate .builtIn "DEPS" (varsLine ++ "\n" ++ "x = Var('a')")).outcome =
        .ok ⟨[("a", .str "b")], [], [], [("x", .str "b")]⟩ := by
  obtain ⟨hread, hvalue⟩ := (evaluate_below statementsOf_varsLine _).1 _ statementsOf_use
  have hheight : height varsLine = 2 := by decide +kernel
  constructor
  · rw [hread, hheight]
    rfl
  · rw [hvalue]
    rfl

end Lines

end PinnedDeps
