import PinnedDeps.Proofs.Evaluation.Layout
import PinnedDeps.Proofs.Evaluation.Platform
import PinnedDeps.Proofs.Source
import PinnedDeps.Failure

/-! Where a text is refused. The lexer, the reader and the evaluation take the places at which they
refuse from the characters of the text and never make up one: a map that leaves these places alone
leaves the outcome alone, so every refusal is at one of them. -/

namespace PinnedDeps

/-! ### Places of a text -/

namespace Source

variable {cs : List Char}

/-- A map of places that leaves those of the text alone. -/
def Fixes (cs : List Char) (f : Position → Position) : Prop :=
  ∀ k ≤ cs.length, f (placeAt cs k) = placeAt cs k

/-- Of other places there is a map that moves them. -/
theorem exists_offset_of_fixed {p : Position} (h : ∀ f, Fixes cs f → f p = p) :
    ∃ k ≤ cs.length, p = placeAt cs k := by
  classical
  by_contra hnone
  let f : Position → Position := fun q =>
    if ∃ k ≤ cs.length, q = placeAt cs k then q else ⟨q.line + 1, q.column⟩
  have hfixes : Fixes cs f := fun k hk => if_pos ⟨k, hk, rfl⟩
  have hp : f p = ⟨p.line + 1, p.column⟩ := if_neg hnone
  have hline := congrArg Position.line ((h f hfixes).symm.trans hp)
  exact Nat.succ_ne_self p.line hline.symm

theorem afterAll_take {k : Nat} (hk : k ≤ cs.length) :
    Position.start.afterAll (cs.take k) = placeAt cs k := by
  have h := placeAt_append (cs.take k) (cs.drop k)
  rw [List.take_append_drop, List.length_take_of_le hk] at h
  exact h.symm

theorem map_moved_locate {f : Position → Position} (h : Fixes cs f) :
    (locate .start cs).map (·.moved f) = locate .start cs := by
  refine (List.map_congr_left fun c hc => ?_).trans (List.map_id _)
  obtain ⟨k, hk, hpos⟩ := exists_offset_of_mem_locate hc
  rw [afterAll_take (Nat.le_of_lt hk)] at hpos
  rw [Located.moved, hpos, h k (Nat.le_of_lt hk), ← hpos]
  rfl

end Source

/-! ### Lexing -/

open Source (Fixes placeAt)

variable {text source : String} {tokens : List Token} {platform : Platform}

theorem tokenize_fixed {f : Position → Position} (h : Fixes text.toList f) :
    Moved.outcome f (List.map (·.moved f)) (tokenize text) = tokenize text := by
  have hstop : f (Position.start.afterAll text.toList) = Position.start.afterAll text.toList := by
    rw [Source.afterAll_eq_placeAt]
    exact h _ (Nat.le_refl _)
  have hmoved := Lexer.tokensFrom_moved f (Position.start.afterAll text.toList) 0 []
    (Source.locate .start text.toList)
  rw [Source.map_moved_locate h, hstop] at hmoved
  exact hmoved.symm

theorem exists_offset_of_tokenize_error {e : SyntaxError} (h : tokenize text = .error e) :
    ∃ k ≤ text.toList.length, e.pos = placeAt text.toList k := by
  refine Source.exists_offset_of_fixed fun f hf => ?_
  have hmoved := tokenize_fixed hf
  rw [h] at hmoved
  exact congrArg Located.pos (Except.error.inj hmoved)

theorem exists_offset_of_mem_tokens (h : tokenize text = .ok tokens) {t : Token}
    (ht : t ∈ tokens) : ∃ k ≤ text.toList.length, t.pos = placeAt text.toList k := by
  refine Source.exists_offset_of_fixed fun f hf => ?_
  have hmoved := tokenize_fixed hf
  rw [h] at hmoved
  have hsame := List.map_eq_map_iff.mp ((Except.ok.inj hmoved).trans (List.map_id _).symm) t ht
  exact congrArg Located.pos hsame

/-! ### Evaluation -/

namespace Evaluation

theorem get?_of_undefined {name : String}
    (h : (evaluate platform source text).outcome = .error (.undefined name)) :
    platform.get? name = none := by
  have hfills : Fills (fun name => platform.get? name = none)
      (evaluate platform source text).outcome (evaluate platform source text).outcome :=
    fills_evaluate fun _ _ name _ _ => fills_lookup_of_within (fun _ _ hp => hp) name
  rw [h] at hfills
  exact hfills.gap

/-- A text that cannot be lexed is refused for that. -/
theorem outcome_evaluate_of_tokenize_error {e : SyntaxError} (h : tokenize text = .error e) :
    (evaluate platform source text).outcome = .error (.malformed e) := by
  rw [Lines.outcome_evaluate_eq, statementsOf, h]
  rfl

/-- A text has no meaning only for a name that the platform table does not define, or for what
stands at a place of the text, which is that of a token if there are tokens. -/
theorem evaluate_refused_within {failure : Failure}
    (h : (evaluate platform source text).outcome.mapError (EvalError.inFile source) =
      .error failure) :
    (∃ name, failure = .undefined name ∧ platform.get? name = none) ∨
      ∃ (reason : Reason) (k : Nat), k ≤ text.toList.length ∧
        failure = .malformed source (placeAt text.toList k) reason.message ∧
        ∀ tokens, tokenize text = .ok tokens → ∃ t ∈ tokens, t.pos = placeAt text.toList k := by
  cases houtcome : (evaluate platform source text).outcome with
  | ok file =>
    rw [houtcome] at h
    cases h
  | error e =>
    rw [houtcome] at h
    obtain rfl : e.inFile source = failure := Except.error.inj h
    cases e with
    | undefined name => exact .inl ⟨name, rfl, get?_of_undefined houtcome⟩
    | malformed e =>
      obtain ⟨pos, reason⟩ := e
      cases hlexed : tokenize text with
      | error refused =>
        rw [outcome_evaluate_of_tokenize_error hlexed] at houtcome
        obtain rfl := EvalError.malformed.inj (Except.error.inj houtcome)
        obtain ⟨k, hk, rfl⟩ := exists_offset_of_tokenize_error hlexed
        exact .inr ⟨reason, k, hk, rfl, nofun⟩
      | ok tokens =>
        rw [Layout.outcome_evaluate_of_tokenize hlexed] at houtcome
        obtain ⟨t, ht, rfl⟩ := List.mem_map.mp (Layout.pos_mem_of_malformed houtcome)
        obtain ⟨k, hk, hpos⟩ := exists_offset_of_mem_tokens hlexed ht
        refine .inr ⟨reason, k, hk, congrArg (Failure.malformed source · _) hpos, ?_⟩
        rintro _ ⟨⟩
        exact ⟨t, ht, hpos⟩

/-- An argument that is no string, on the second line. -/
theorem evaluate_refused_within_argument :
    let text := "# one\nx = Var(1)"
    let failure : Failure := .malformed "DEPS" ⟨2, 9⟩ (Reason.varNotString .int).message
    (evaluate .empty "DEPS" text).outcome.mapError (EvalError.inFile "DEPS") = .error failure ∧
      ((∃ name, failure = .undefined name ∧ Platform.empty.get? name = none) ∨
        ∃ (reason : Reason) (k : Nat), k ≤ text.toList.length ∧
          failure = .malformed "DEPS" (placeAt text.toList k) reason.message ∧
          ∀ tokens, tokenize text = .ok tokens →
            ∃ t ∈ tokens, t.pos = placeAt text.toList k) := by
  intro text failure
  have htokens : tokenize text = .ok [⟨⟨2, 1⟩, .name "x"⟩, ⟨⟨2, 3⟩, .assign⟩,
      ⟨⟨2, 5⟩, .name "Var"⟩, ⟨⟨2, 8⟩, .openParen⟩, ⟨⟨2, 9⟩, .integer 1⟩,
      ⟨⟨2, 10⟩, .closeParen⟩, ⟨⟨2, 11⟩, .eof⟩] := by
    decide +kernel
  have h : (evaluate .empty "DEPS" text).outcome.mapError (EvalError.inFile "DEPS") =
      .error failure := by
    rw [Layout.outcome_evaluate_of_tokenize htokens]
    rfl
  exact ⟨h, evaluate_refused_within h⟩

end Evaluation

end PinnedDeps
