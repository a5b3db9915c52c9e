import PinnedDeps.Proofs.Evaluation.Displayed
import PinnedDeps.Proofs.Grammar.Completeness

/-! Evaluated data, printed line by line and evaluated again. Each line is lexed to the tokens of an
assignment, so the whole text is a program whose statements have the printed values; what such a
program assigns is the data that was printed. -/

namespace PinnedDeps

open Source (locate)

/-! ### Printed data -/

namespace Printed

open Lexer Evaluation Grammar Displayed

/-- A name and its value as an assignment. -/
def line (binding : String × Value) : String := binding.1 ++ (" = " ++ binding.2.display)

/-- The lines of a file. The last one is ended by nothing. -/
def text (bindings : List (String × Value)) : String := "\n".intercalate (bindings.map line)

/-- The name and the value can stand in a line: the dialect can spell them both, and no more
brackets are needed than may be open. -/
structure Printable (binding : String × Value) : Prop where
  name : IsName binding.1
  plain : binding.2.Everywhere Value.IsPlain
  nesting : binding.2.nesting ≤ maxNesting

variable {rest : List (Located Char)} {binding : String × Value} {bindings : List (String × Value)}

/-! ### Lines -/

theorem toList_line (binding : String × Value) :
    (line binding).toList =
      binding.1.toList ++ ([' ', '=', ' '] ++ binding.2.display.toList) := by
  simp [line]

theorem lexes_sign (p : Position) (rest : List (Located Char)) :
    Lexes 0 (locate p [' ', '=', ' ']) [⟨p.after ' ', .assign⟩] 0 rest := by
  have hblank : ∀ q rest, Lexes 0 [⟨q, ' '⟩] [] 0 rest := fun q rest => .of_blank rfl 0 rest
  have hsign : Lexes 0 [⟨p.after ' ', '='⟩] [⟨p.after ' ', .assign⟩] 0
      (⟨(p.after ' ').after '=', ' '⟩ :: rest) := .of_lexeme rfl (Nat.zero_le _)
  exact (hblank _ _).append (hsign.append (hblank _ _))

/-- A name, a sign and what is read as an expression are read as an assignment. -/
theorem lexes_line {name : String} (hname : IsName name) {p : Position} {value : List Char}
    {x : Expression}
    (hx : Lexes 0 (locate ((p.afterAll name.toList).afterAll [' ', '=', ' ']) value) x.tokens 0
      rest) :
    Lexes 0 (locate p (name.toList ++ ([' ', '=', ' '] ++ value)))
      (Assignment.tokens ⟨p, name, (p.afterAll name.toList).after ' ', x⟩) 0 rest := by
  have hfirst : Lexes 0 (locate p name.toList) [⟨p, .name name⟩] 0
      (locate (p.afterAll name.toList) ([' ', '=', ' '] ++ value) ++ rest) := by
    refine lexes_name hname ?_ (Nat.zero_le _) p
    rw [List.cons_append, Source.locate_cons]
    intro d hd
    obtain rfl : _ = d := by simpa using hd
    exact ⟨rfl, rfl⟩
  exact hfirst.locate_append ((lexes_sign _ _).locate_append hx)

/-- A line is read as an assignment of its value to its name. -/
theorem reads_line (ho : binding.2.Everywhere Value.IsOrdered) (h : Printable binding)
    (hr : Stops rest) (p : Position) :
    ∃ a : Assignment, Lexes 0 (locate p (line binding).toList) a.tokens 0 rest ∧
      a.target = binding.1 ∧ Denotes a.value.tree binding.2 := by
  obtain ⟨name, value⟩ := binding
  have hdepth : 0 + value.nesting ≤ maxNesting := by
    rw [Nat.zero_add]
    exact h.nesting
  obtain ⟨x, hx, hxv⟩ := reads_value value ho h.plain hdepth
    ((p.afterAll name.toList).afterAll [' ', '=', ' ']) rest hr
  refine ⟨⟨p, name, (p.afterAll name.toList).after ' ', x⟩, ?_, rfl, hxv⟩
  rw [toList_line]
  exact lexes_line h.name hx

/-! ### Programs -/

/-- The line feed behind a line is a token. -/
theorem tokensFrom_line_end (a : Assignment) (stop p : Position) (done : List Token) :
    tokensFrom stop 0 (a.tokens.reverse ++ done) (⟨p, '\n'⟩ :: rest) =
      tokensFrom stop 0 (⟨p, .newline⟩ :: (a.tokens.reverse ++ done)) rest := by
  obtain ⟨before, t, ht, hn⟩ := a.exists_last
  rw [ht, List.reverse_append]
  exact tokensFrom_newline hn stop p _

/-- The history of some lines: what they assign, and their values whatever was assigned before. -/
def Assigns (h : History) (bindings : List (String × Value)) : Prop :=
  (h.map fun entry => (entry.1.target, entry.2)) = bindings ∧
    ∀ entry ∈ h, Denotes entry.1.value entry.2

theorem Assigns.cons {a : Assignment} {h : History} (ht : a.target = binding.1)
    (hv : Denotes a.value.tree binding.2) (hs : Assigns h bindings) :
    Assigns ((a.tree, binding.2) :: h) (binding :: bindings) := by
  refine ⟨?_, List.forall_mem_cons.mpr ⟨hv, hs.2⟩⟩
  rw [List.map_cons, hs.1]
  show (a.target, binding.2) :: bindings = binding :: bindings
  rw [ht]

/-- The last line may end with a line feed or not. -/
theorem reads_last_line (ho : binding.2.Everywhere Value.IsOrdered) (h : Printable binding)
    {ending : String} (he : ending ∈ ["", "\n"])
    (stop p : Position) (done : List Token) :
    ∃ (d : Program) (history : History),
      tokensFrom stop 0 done (locate p (text [binding] ++ ending).toList) =
        .ok (done.reverse ++ d.tokens) ∧
      history.map Prod.fst = d.statements ∧ Assigns history [binding] := by
  have hline : text [binding] = line binding := String.intercalate_singleton
  simp only [List.mem_cons, List.not_mem_nil, or_false] at he
  rcases he with rfl | rfl
  · obtain ⟨a, ha, ht, hv⟩ := reads_line ho h (StartsIn.nil _) p
    refine ⟨.last a stop, [(a.tree, binding.2)], ?_, rfl, .cons ht hv ⟨rfl, by simp⟩⟩
    have hread := ha stop done
    rw [List.append_nil] at hread
    rw [hline, String.append_empty, hread, tokensFrom_end]
    simp [Program.tokens]
  · obtain ⟨a, ha, ht, hv⟩ := reads_line ho h
      (StartsIn.cons (c := '\n') (by decide) (p.afterAll (line binding).toList) []) p
    refine ⟨.statement a (.newline (p.afterAll (line binding).toList)) (.stop stop),
      [(a.tree, binding.2)], ?_, rfl, .cons ht hv ⟨rfl, by simp⟩⟩
    have hread := ha stop done
    rw [tokensFrom_line_end, tokensFrom_end] at hread
    rw [hline, String.toList_append, Source.locate_append]
    show tokensFrom stop 0 done (_ ++ [⟨_, '\n'⟩]) = _
    rw [hread]
    simp [Program.tokens, Separator.token]

/-- Lines are read as a program that assigns their values in turn. -/
theorem reads_lines (binding : String × Value) (bindings : List (String × Value))
    (h : ∀ b ∈ binding :: bindings, b.2.Everywhere Value.IsOrdered ∧ Printable b)
    {ending : String} (he : ending ∈ ["", "\n"]) (stop p : Position)
    (done : List Token) :
    ∃ (d : Program) (history : History),
      tokensFrom stop 0 done (locate p (text (binding :: bindings) ++ ending).toList) =
        .ok (done.reverse ++ d.tokens) ∧
      history.map Prod.fst = d.statements ∧ Assigns history (binding :: bindings) := by
  induction bindings generalizing binding p done with
  | nil =>
    obtain ⟨ho, hb⟩ := h binding List.mem_cons_self
    exact reads_last_line ho hb he stop p done
  | cons second bindings ih =>
    obtain ⟨hfirst, hmore⟩ := List.forall_mem_cons.mp h
    have hsplit : (text (binding :: second :: bindings) ++ ending).toList =
        (line binding).toList ++ '\n' :: (text (second :: bindings) ++ ending).toList := by
      rw [text, List.map_cons, List.map_cons, String.intercalate_cons_cons]
      simp [text]
    obtain ⟨a, ha, ht, hv⟩ := reads_line hfirst.1 hfirst.2
      (StartsIn.cons (c := '\n') (by decide) (p.afterAll (line binding).toList) (locate
        ((p.afterAll (line binding).toList).after '\n')
        (text (second :: bindings) ++ ending).toList)) p
    obtain ⟨d, history, hd, hs, hh⟩ := ih second hmore
      ((p.afterAll (line binding).toList).after '\n')
      (⟨p.afterAll (line binding).toList, .newline⟩ :: (a.tokens.reverse ++ done))
    refine ⟨.statement a (.newline (p.afterAll (line binding).toList)) d,
      (a.tree, binding.2) :: history, ?_, ?_, .cons ht hv hh⟩
    · rw [hsplit, Source.locate_append, Source.locate_cons, ha, tokensFrom_line_end, hd]
      simp [Program.tokens, Separator.token]
    · rw [List.map_cons, hs]
      rfl

/-! ### What is assigned -/

theorem valid_of_denotes (platform : Platform) {h : History}
    (hv : ∀ entry ∈ h, Denotes entry.1.value entry.2 ∧ Takes entry.1.target entry.2) :
    h.Valid platform := by
  induction h using List.reverseRecOn with
  | nil => exact valid_nil platform
  | append_singleton h last ih =>
    obtain ⟨s, value⟩ := last
    have hbefore : History.Valid platform h := ih fun entry he => hv entry (List.mem_append_left _ he)
    obtain ⟨hd, ht⟩ := hv (s, value) (List.mem_append_right h List.mem_cons_self)
    have hvars : ∃ vars, History.Binds h "vars" vars := hbefore.exists_binds (by decide)
    obtain ⟨vars, hb⟩ := hvars
    exact hbefore.append ⟨vars, hb, hd platform vars, ht⟩

theorem last?_eq_get? (h : History) (name : String) :
    h.last? name =
      Dict.get? (h.map fun entry => (entry.1.target, entry.2)).reverse name := by
  induction h using List.reverseRecOn with
  | nil => rfl
  | append_singleton h last ih =>
    obtain ⟨s, value⟩ := last
    rw [last?_append_singleton, ih, List.map_append, List.reverse_append]
    rfl

theorem get?_reverse_bindings {d : DepsFile} (hd : d.Ordered) (name : String) :
    Dict.get? d.bindings.reverse name =
      (d.scope.get? name).or
        (if name = "deps_os" then some (.map d.depsOs)
        else if name = "deps" then some (.map d.deps)
        else if name = "vars" then some (.map d.vars)
        else none) := by
  have hsplit : d.bindings.reverse = d.scope.reverse ++
      [("deps_os", .map d.depsOs), ("deps", .map d.deps), ("vars", .map d.vars)] := by
    simp [DepsFile.bindings]
  rw [hsplit, Dict.get?_append, ← Dict.get?_ofPairs, Dict.ofPairs_of_ascending hd.scope]
  rfl

theorem get?_scope_eq_none {d : DepsFile} (hd : d.Ordered) {name : String}
    (hn : name ∈ mappingNames) : d.scope.get? name = none := by
  cases hg : d.scope.get? name with
  | none => rfl
  | some value => exact absurd hn (hd.names _ (Dict.mem_of_get? hg))

/-- What is assigned by the bindings of a file is that file. -/
theorem describes_of_assigns {d : DepsFile} (hd : d.Ordered) {h : History}
    (hh : Assigns h d.bindings) : Describes h d := by
  have hlast : ∀ name, h.last? name = _ := fun name => by
    rw [last?_eq_get?, hh.1, get?_reverse_bindings hd]
  have hspecial : ∀ name ∈ mappingNames, d.scope.get? name = none := fun name hn =>
    get?_scope_eq_none hd hn
  refine ⟨?_, ?_, ?_, hd.scope, ?_⟩
  · left
    rw [hlast, hspecial _ (by decide)]
    rfl
  · left
    rw [hlast, hspecial _ (by decide)]
    rfl
  · left
    rw [hlast, hspecial _ (by decide)]
    rfl
  · intro name
    by_cases hn : name ∈ mappingNames
    · rw [if_pos hn, get?_scope_eq_none hd hn]
    · rw [if_neg hn, hlast]
      simp only [mappingNames, List.mem_cons, List.not_mem_nil, or_false, not_or] at hn
      rw [if_neg hn.2.2, if_neg hn.2.1, if_neg hn.1, Option.or_none]

theorem takes_of_assigns {d : DepsFile} (hd : d.Ordered) {h : History}
    (hh : Assigns h d.bindings) : ∀ entry ∈ h, Takes entry.1.target entry.2 := by
  intro entry he hn
  have hmem : (entry.1.target, entry.2) ∈ d.bindings := by
    rw [← hh.1]
    exact List.mem_map_of_mem he
  simp only [DepsFile.bindings, List.mem_cons, Prod.mk.injEq] at hmem
  rcases hmem with ⟨-, hv⟩ | ⟨-, hv⟩ | ⟨-, hv⟩ | hs
  · exact ⟨_, hv⟩
  · exact ⟨_, hv⟩
  · exact ⟨_, hv⟩
  · exact absurd hn (hd.names _ hs)

/-- Printed data evaluates to itself, whatever the platform. -/
theorem evaluate_printed (d : DepsFile) (hd : d.Ordered)
    (hp : ∀ binding ∈ d.bindings, Printable binding) (platform : Platform) (source : String)
    {ending : String} (he : ending ∈ ["", "\n"]) :
    (evaluate platform source (text d.bindings ++ ending)).outcome = .ok d := by
  obtain ⟨program, h, hread, hs, hh⟩ := reads_lines ("vars", .map d.vars) _
    (fun binding hb => ⟨hd.values binding hb, hp binding hb⟩) he
    (Position.start.afterAll (text d.bindings ++ ending).toList) Position.start []
  have htokens : tokenize (text d.bindings ++ ending) = .ok program.tokens := hread
  have hparse : parse program.tokens = .ok program.statements :=
    program.parse_tokens (nestedWithin_of_tokenize htokens)
  have hvalid : h.Valid platform := valid_of_denotes platform fun entry hentry =>
    ⟨hh.2 entry hentry, takes_of_assigns hd hh entry hentry⟩
  obtain ⟨file, hrun, hdesc⟩ := run_of_valid hvalid
  obtain rfl : file = d := describes_unique hdesc (describes_of_assigns hd hh)
  rw [outcome_evaluate, htokens]
  show (parse program.tokens).mapError EvalError.malformed >>= _ = _
  rw [hparse]
  show (run platform program.statements).outcome = _
  rw [← hs, hrun]

/-- A small file with a value of every kind. -/
def sample : DepsFile where
  vars := [("v", .str "")]
  deps := [("a", .map [("url", .str "x y")])]
  depsOs := []
  scope := [("hooks", .list [.int 90, .bool true, .none, .list []])]

theorem ordered_sample : sample.Ordered where
  scope := List.pairwise_singleton _ _
  names := by simp [sample, mappingNames]
  values := by
    simp [DepsFile.bindings, sample, Value.Everywhere, Value.EverywhereEntries,
      Value.EverywhereItems, Value.IsOrdered, Dict.Ascending]

theorem printable_sample : ∀ binding ∈ sample.bindings, Printable binding := by
  simp only [DepsFile.bindings, sample, List.forall_mem_cons]
  refine ⟨⟨⟨'v', _, rfl, by decide, by decide⟩, ?_, by decide⟩,
    ⟨⟨'d', _, rfl, by decide, by decide⟩, ?_, by decide⟩,
    ⟨⟨'d', _, rfl, by decide, by decide⟩, ?_, by decide⟩,
    ⟨⟨'h', _, rfl, by decide, by decide⟩, ?_, by decide⟩, by simp⟩
  all_goals
    simp [Value.Everywhere, Value.EverywhereEntries, Value.EverywhereItems, Value.IsPlain, IsPlain]
  decide

/-- The lines of the small file, and what they evaluate to. -/
theorem evaluate_printed_sample :
    sample.Ordered ∧ (∀ binding ∈ sample.bindings, Printable binding) ∧
      text sample.bindings =
        "vars = \x7b'v': ''\x7d\n" ++
        "deps = \x7b'a': \x7b'url': 'x y'\x7d\x7d\n" ++
        "deps_os = \x7b\x7d\n" ++
        "hooks = [90, True, None, []]" ∧
      (evaluate .builtIn "DEPS" (text sample.bindings ++ "\n")).outcome = .ok sample :=
  ⟨ordered_sample, printable_sample, by decide,
    evaluate_printed sample ordered_sample printable_sample .builtIn "DEPS" (by decide)⟩

end Printed

end PinnedDeps
