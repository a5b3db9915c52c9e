import PinnedDeps.Proofs.Evaluation.Lines

/-! Reformatted texts. What a text assigns is told by what its tokens say, in their order. Where
they stand matters only to a refusal, and that stands at one of them: two texts whose tokens say the
same assign the same, or are refused for the same reason at the token of the same number. -/

namespace PinnedDeps

namespace Layout

open Evaluation

/-- What the tokens of a text assign. -/
def meaning (platform : Platform) (tokens : List Token) : Except EvalError DepsFile :=
  (parse tokens).mapError EvalError.malformed >>= fun program => (run platform program).outcome

/-- Outcomes of two texts with these tokens that differ, if at all, in the place at which they
refuse; it is that of the token of the same number in either. -/
inductive Alike (tokens tokens' : List Token) :
    Except EvalError DepsFile → Except EvalError DepsFile → Prop
  | assigns (d : DepsFile) : Alike tokens tokens' (.ok d) (.ok d)
  | undefined (name : String) :
    Alike tokens tokens' (.error (.undefined name)) (.error (.undefined name))
  | malformed {i : Nat} {t t' : Token} (ht : tokens[i]? = some t) (ht' : tokens'[i]? = some t')
    (reason : Reason) :
    Alike tokens tokens' (.error (.malformed ⟨t.pos, reason⟩))
      (.error (.malformed ⟨t'.pos, reason⟩))

variable {platform : Platform} {tokens tokens' : List Token}

theorem outcome_evaluate_of_tokenize {source text : String} (h : tokenize text = .ok tokens) :
    (evaluate platform source text).outcome = meaning platform tokens := by
  rw [Lines.outcome_evaluate_eq, statementsOf, h, ok_bind, meaning]

theorem meaning_moved (platform : Platform) (tokens : List Token) (f : Position → Position) :
    meaning platform (tokens.map (·.moved f)) =
      (meaning platform tokens).mapError (·.moved f) := by
  unfold meaning
  rw [parse_moved, mapError_bind]
  cases parse tokens with
  | error e => rfl
  | ok program =>
    show (run platform (program.map (·.moved f))).outcome =
      (run platform program).outcome.mapError (·.moved f)
    rw [outcome_run, outcome_run, outcome_runFrom_moved]
    cases (runFrom platform (pure []) program).outcome <;> rfl

/-! ### The place of a refusal -/

/-- A map of places that moves all but those of the tokens. -/
def besides (tokens : List Token) (p : Position) : Position :=
  if p ∈ tokens.map (·.pos) then p else ⟨p.line + 1, p.column⟩

theorem map_moved_besides : tokens.map (·.moved (besides tokens)) = tokens := by
  refine (List.map_congr_left fun t ht => ?_).trans (List.map_id tokens)
  have hmem : t.pos ∈ tokens.map (·.pos) := List.mem_map_of_mem ht
  rw [Located.moved, besides, if_pos hmem]
  rfl

/-- Moving a place at which no token stands moves none of the tokens, and so not the refusal. -/
theorem pos_mem_of_malformed {e : SyntaxError}
    (h : meaning platform tokens = .error (.malformed e)) : e.pos ∈ tokens.map (·.pos) := by
  have hmoved := meaning_moved platform tokens (besides tokens)
  rw [map_moved_besides, h] at hmoved
  obtain ⟨pos, reason⟩ := e
  have hpos : pos = besides tokens pos :=
    congrArg Located.pos (EvalError.malformed.inj (Except.error.inj hmoved))
  by_contra hmem
  rw [besides, if_neg hmem] at hpos
  exact Nat.succ_ne_self pos.line (congrArg Position.line hpos).symm

/-! ### Numbered tokens -/

/-- Tokens that say `items`, each standing on the line of its number. -/
def numbered (items : List Lexeme) : List Token := items.mapIdx fun i item => ⟨⟨i, 0⟩, item⟩

/-- Where the token of a number stands. -/
def placeIn (tokens : List Token) (p : Position) : Position :=
  (tokens[p.line]?.map (·.pos)).getD p

/-- Tokens are the numbered ones at places of their own. -/
theorem numbered_moved (tokens : List Token) :
    (numbered (tokens.map (·.item))).map (·.moved (placeIn tokens)) = tokens := by
  refine List.ext_getElem? fun i => ?_
  rw [numbered, List.getElem?_map, List.getElem?_mapIdx, List.getElem?_map]
  cases h : tokens[i]? with
  | none => rfl
  | some t => simp [Located.moved, placeIn, h]

theorem exists_place_of_mem_numbered {items : List Lexeme} {p : Position}
    (h : p ∈ (numbered items).map (·.pos)) (htokens : tokens.map (·.item) = items) :
    ∃ t, tokens[p.line]? = some t ∧ placeIn tokens p = t.pos := by
  obtain ⟨u, hu, rfl⟩ := List.mem_map.mp h
  obtain ⟨i, hi, rfl⟩ := List.mem_mapIdx.mp hu
  have hlength : i < tokens.length := by rw [← htokens, List.length_map] at hi; exact hi
  have ht : tokens[i]? = some tokens[i] := List.getElem?_eq_getElem hlength
  exact ⟨tokens[i], ht, by simp [placeIn, ht]⟩

/-- Both outcomes are that of the numbered tokens, each with its own places put in. -/
theorem alike_meaning (h : tokens.map (·.item) = tokens'.map (·.item)) :
    Alike tokens tokens' (meaning platform tokens) (meaning platform tokens') := by
  have hfirst := meaning_moved platform (numbered (tokens.map (·.item))) (placeIn tokens)
  have hsecond := meaning_moved platform (numbered (tokens.map (·.item))) (placeIn tokens')
  rw [numbered_moved] at hfirst
  rw [h, numbered_moved, ← h] at hsecond
  rw [hfirst, hsecond]
  cases hm : meaning platform (numbered (tokens.map (·.item))) with
  | ok d => exact .assigns d
  | error e =>
    cases e with
    | undefined name => exact .undefined name
    | malformed e =>
      obtain ⟨pos, reason⟩ := e
      obtain ⟨t, ht, hpos⟩ := exists_place_of_mem_numbered (pos_mem_of_malformed hm) rfl
      obtain ⟨t', ht', hpos'⟩ := exists_place_of_mem_numbered (pos_mem_of_malformed hm) h.symm
      show Alike tokens tokens' (.error (.malformed ⟨placeIn tokens pos, reason⟩))
        (.error (.malformed ⟨placeIn tokens' pos, reason⟩))
      rw [hpos, hpos']
      exact .malformed ht ht' reason

/-! ### Texts -/

theorem evaluate_reformatted {text text' : String} (h : tokenize text = .ok tokens)
    (h' : tokenize text' = .ok tokens') (hitems : tokens.map (·.item) = tokens'.map (·.item)) :
    ∀ (platform : Platform) (source source' : String),
      Alike tokens tokens' (evaluate platform source text).outcome
        (evaluate platform source' text').outcome := by
  intro platform source source'
  rw [outcome_evaluate_of_tokenize h, outcome_evaluate_of_tokenize h']
  exact alike_meaning hitems

/-- A sum of a string and a number, on one line and over two below a comment. -/
theorem evaluate_reformatted_sum :
    ∃ tokens tokens', tokenize "x = 'a' + 1" = .ok tokens ∧
      tokenize "# sum\nx = 'a'\\\n  + 1 # one" = .ok tokens' ∧
      tokens.map (·.item) = tokens'.map (·.item) ∧
      (evaluate .builtIn "DEPS" "x = 'a' + 1").outcome =
        .error (.malformed ⟨⟨1, 9⟩, .unsupportedSum .str .int⟩) ∧
      Alike tokens tokens' (evaluate .builtIn "DEPS" "x = 'a' + 1").outcome
        (evaluate .builtIn "DEPS" "# sum\nx = 'a'\\\n  + 1 # one").outcome := by
  have htokens : tokenize "x = 'a' + 1" = .ok [⟨⟨1, 1⟩, .name "x"⟩, ⟨⟨1, 3⟩, .assign⟩,
      ⟨⟨1, 5⟩, .string "a"⟩, ⟨⟨1, 9⟩, .plus⟩, ⟨⟨1, 11⟩, .integer 1⟩, ⟨⟨1, 12⟩, .eof⟩] := by
    decide +kernel
  have htokens' : tokenize "# sum\nx = 'a'\\\n  + 1 # one" = .ok [⟨⟨2, 1⟩, .name "x"⟩,
      ⟨⟨2, 3⟩, .assign⟩, ⟨⟨2, 5⟩, .string "a"⟩, ⟨⟨3, 3⟩, .plus⟩, ⟨⟨3, 5⟩, .integer 1⟩,
      ⟨⟨3, 12⟩, .eof⟩] := by
    decide +kernel
  refine ⟨_, _, htokens, htokens', rfl, ?_, ?_⟩
  · rw [outcome_evaluate_of_tokenize htokens]
    rfl
  · exact evaluate_reformatted htokens htokens' rfl .builtIn "DEPS" "DEPS"

end Layout

end PinnedDeps
