import PinnedDeps.Proofs.Grammar.Soundness

/-! Reading behind a line end. A line end between statements resets the reader: nothing is left of
the tokens in front of it but the statements they form. So tokens that parse can be followed by a
line end and further tokens, and these are read as if they stood alone. -/

namespace PinnedDeps

namespace Reader

open Grammar

theorem readAll_append {a : List Token} (ha : ∀ t ∈ a, t.item ≠ .eof) (r : Reader)
    (b : List Token) : r.readAll (a ++ b) = r.readAll a >>= fun r => r.readAll b := by
  induction a generalizing r with
  | nil => rfl
  | cons t a ih =>
    obtain ⟨ht, ha⟩ := List.forall_mem_cons.mp ha
    rw [List.cons_append, readAll, readAll]
    cases r.read t with
    | error e => rfl
    | ok r => simp only [if_neg ht, ih ha]

theorem exists_of_readAll_append {a b : List Token} (ha : ∀ t ∈ a, t.item ≠ .eof) {r r'' : Reader}
    (h : r.readAll (a ++ b) = .ok r'') : ∃ r', r.readAll a = .ok r' ∧ r'.readAll b = .ok r'' := by
  rw [readAll_append ha] at h
  cases hfront : r.readAll a with
  | error e =>
    rw [hfront] at h
    cases h
  | ok r' =>
    rw [hfront] at h
    exact ⟨r', rfl, h⟩

theorem read_of_readAll {r r' : Reader} {t : Token} (h : r.readAll [t] = .ok r') :
    r.read t = .ok r' := by
  rw [readAll] at h
  cases hread : r.read t with
  | error e =>
    rw [hread] at h
    cases h
  | ok next =>
    rw [hread] at h
    dsimp only [readAll] at h
    split at h <;> exact h

/-! ### The statements in front -/

theorem readAfter_behind (before done : List Statement) (ctx : Context) (e : Expr) (t : Token) :
    readAfter (done ++ before) ctx e t =
      (readAfter done ctx e t).map fun r => ⟨r.statements ++ before, r.point⟩ := by
  obtain ⟨target, place, levels, operands⟩ := ctx
  by_cases hplus : t.item = .plus
  · obtain ⟨pos, item⟩ := t
    obtain rfl : item = .plus := hplus
    rfl
  cases levels with
  | nil =>
    obtain ⟨pos, item⟩ := t
    cases item <;> rfl
  | cons level outer =>
    rw [readAfter_inside hplus, readAfter_inside hplus]
    cases readInside ⟨target, place, level :: outer, operands⟩ level outer
      (sumWith e operands) t <;> rfl

/-- Statements that are complete stay what they are, and nothing depends on them. -/
theorem read_behind (before done : List Statement) (point : Point) (t : Token) :
    (⟨done ++ before, point⟩ : Reader).read t =
      ((⟨done, point⟩ : Reader).read t).map fun r => ⟨r.statements ++ before, r.point⟩ := by
  cases point with
  | outside =>
    obtain ⟨pos, item⟩ := t
    cases item <;> rfl
  | target place word =>
    obtain ⟨pos, item⟩ := t
    cases item <;> rfl
  | value ctx =>
    rw [read_value, read_value]
    cases readValue ctx t <;> rfl
  | text ctx place text =>
    by_cases ht : ∃ more, t.item = .string more
    · obtain ⟨pos, item⟩ := t
      obtain ⟨more, rfl⟩ := ht
      rfl
    · have hn : ∀ more, t.item ≠ .string more := fun more hmore => ht ⟨more, hmore⟩
      rw [read_text hn, read_text hn]
      exact readAfter_behind before done ctx (.str place text) t
  | name ctx place word =>
    obtain ⟨pos, item⟩ := t
    cases item with
    | openParen =>
      show (if word = "Var" then _ else _) = Except.map _ (if word = "Var" then _ else _)
      split
      · cases enter ctx pos (.var place) <;> rfl
      · rfl
    | _ => rfl
  | operand ctx e => exact readAfter_behind before done ctx e t

theorem readAll_behind (before done : List Statement) (point : Point) (tokens : List Token) :
    (⟨done ++ before, point⟩ : Reader).readAll tokens =
      ((⟨done, point⟩ : Reader).readAll tokens).map fun r => ⟨r.statements ++ before, r.point⟩ := by
  induction tokens generalizing done point with
  | nil => rfl
  | cons t tokens ih =>
    rw [readAll, readAll, read_behind]
    cases (⟨done, point⟩ : Reader).read t with
    | error e => rfl
    | ok r =>
      dsimp only [Except.map]
      split
      · rfl
      · exact ih r.statements r.point

/-! ### Line ends -/

theorem readAfter_end {done : List Statement} {ctx : Context} {e : Expr} {t : Token} {r : Reader}
    (h : readAfter done ctx e t = .ok r) (ht : t.item = .newline ∨ t.item = .eof) :
    r.point = .outside ∧ ∀ pos, readAfter done ctx e ⟨pos, .newline⟩ = .ok r := by
  obtain ⟨target, place, levels, before⟩ := ctx
  obtain ⟨at', item⟩ := t
  have hend : item = .newline ∨ item = .eof := ht
  cases levels with
  | nil =>
    rcases hend with rfl | rfl
    · cases h
      exact ⟨rfl, fun _ => rfl⟩
    · cases h
      exact ⟨rfl, fun _ => rfl⟩
  | cons level outer =>
    obtain ⟨bracket, outside⟩ := level
    rcases hend with rfl | rfl
    · cases bracket <;> cases h
    · cases bracket <;> cases h

theorem readValue_end (ctx : Context) {t : Token} (ht : t.item = .newline ∨ t.item = .eof) :
    readValue ctx t = .error ⟨t.pos, .expectedValue t.item⟩ := by
  obtain ⟨target, place, levels, before⟩ := ctx
  obtain ⟨at', item⟩ := t
  have hend : item = .newline ∨ item = .eof := ht
  rcases levels with _ | ⟨⟨bracket, outside⟩, outer⟩
  · rcases hend with rfl | rfl <;> cases before <;> rfl
  · rcases hend with rfl | rfl <;> cases before <;> cases bracket <;> rfl

/-- What may end the tokens may end a line, and then nothing is under way any more. -/
theorem read_end {r r' : Reader} {t : Token} (h : r.read t = .ok r')
    (ht : t.item = .newline ∨ t.item = .eof) :
    r'.point = .outside ∧ ∀ pos, r.read ⟨pos, .newline⟩ = .ok r' := by
  obtain ⟨done, point⟩ := r
  cases point with
  | outside =>
    obtain ⟨at', item⟩ := t
    have hend : item = .newline ∨ item = .eof := ht
    rcases hend with rfl | rfl
    · cases h
      exact ⟨rfl, fun _ => rfl⟩
    · cases h
      exact ⟨rfl, fun _ => rfl⟩
  | value ctx =>
    rw [read_value, readValue_end ctx ht] at h
    cases h
  | text ctx place text =>
    have hn : ∀ more, t.item ≠ .string more := by
      rintro more hmore
      rw [hmore] at ht
      simp at ht
    rw [read_text hn] at h
    exact readAfter_end h ht
  | operand ctx e => exact readAfter_end h ht
  | _ =>
    obtain ⟨at', item⟩ := t
    have hend : item = .newline ∨ item = .eof := ht
    rcases hend with rfl | rfl <;> cases h

theorem readAll_newlines {r : Reader} (hr : r.point = .outside) {seam : List Token}
    (hs : ∀ t ∈ seam, t.item = .newline) : r.readAll seam = .ok r := by
  induction seam with
  | nil => rfl
  | cons t seam ih =>
    obtain ⟨ht, hs⟩ := List.forall_mem_cons.mp hs
    have hread : r.read t = .ok r := by
      unfold Reader.read
      rw [hr, ht]
    rw [readAll_cons r hread (by simp [ht])]
    exact ih hs

/-- Behind a line end nothing is under way. -/
theorem point_of_readAll {r : Reader} {tokens : List Token} (ht : ∀ t ∈ tokens, t.item ≠ .eof)
    (h : Reader.start.readAll tokens = .ok r) (hlast : ∀ t ∈ tokens.getLast?, t.item = .newline) :
    r.point = .outside := by
  rcases List.eq_nil_or_concat tokens with rfl | ⟨before, t, heq⟩
  · cases h
    rfl
  · rw [List.concat_eq_append] at heq
    subst heq
    have hline : t.item = .newline := hlast t List.getLast?_concat
    obtain ⟨r', -, hend⟩ :=
      exists_of_readAll_append (fun t' ht' => ht t' (List.mem_append_left [t] ht')) h
    exact (read_end (read_of_readAll hend) (.inl hline)).1

theorem depthAt_readAll {r r' : Reader} {tokens : List Token} (ht : ∀ t ∈ tokens, t.item ≠ .eof)
    (h : r.readAll tokens = .ok r') (hn : depthAt r.point ≤ maxNesting) :
    depthAt r'.point = depthBehind (depthAt r.point) tokens ∧ depthAt r'.point ≤ maxNesting := by
  induction tokens generalizing r with
  | nil =>
    cases h
    exact ⟨rfl, hn⟩
  | cons t tokens ih =>
    obtain ⟨ht, hts⟩ := List.forall_mem_cons.mp ht
    rw [readAll] at h
    cases hread : r.read t with
    | error e =>
      rw [hread] at h
      cases h
    | ok next =>
      rw [hread] at h
      simp only [if_neg ht] at h
      obtain ⟨hdepth, hmax⟩ := depthAt_read hread hn
      rw [depthBehind_cons, ← hdepth]
      exact ih hts h hmax

end Reader

open Reader Grammar

/-- The reader in front of the end marker of tokens that parse. -/
theorem exists_reader_of_parse {body : List Token} {stop : Position} {program : List Statement}
    (hb : ∀ t ∈ body, t.item ≠ .eof) (h : parse (body ++ [⟨stop, .eof⟩]) = .ok program) :
    ∃ r r' : Reader, Reader.start.readAll body = .ok r ∧ r.read ⟨stop, .eof⟩ = .ok r' ∧
      r'.statements.reverse = program := by
  obtain ⟨r', hall, hprogram⟩ := exists_of_map_eq_ok h
  obtain ⟨r, hbody, hstop⟩ := exists_of_readAll_append hb hall
  exact ⟨r, r', hbody, read_of_readAll hstop, hprogram⟩

/-- Tokens that parse leave no bracket open. -/
theorem depthBehind_of_parse {body : List Token} {stop : Position} {program : List Statement}
    (hb : ∀ t ∈ body, t.item ≠ .eof) (h : parse (body ++ [⟨stop, .eof⟩]) = .ok program) :
    depthBehind 0 body = 0 := by
  obtain ⟨r, r', hbody, hstop, -⟩ := exists_reader_of_parse hb h
  obtain ⟨hdepth, hmax⟩ := depthAt_readAll hb hbody (Nat.zero_le _)
  have hend := (depthAt_read hstop hmax).1
  rw [(read_end hstop (.inr rfl)).1] at hend
  exact hdepth.symm.trans hend.symm

theorem parse_append {body seam : List Token} {stop : Position} {program : List Statement}
    (hb : ∀ t ∈ body, t.item ≠ .eof) (h : parse (body ++ [⟨stop, .eof⟩]) = .ok program)
    (hs : ∀ t ∈ seam, t.item = .newline) (hlast : ∀ t ∈ (body ++ seam).getLast?, t.item = .newline)
    (more : List Token) :
    parse (body ++ seam ++ more) = (parse more).map (program ++ ·) := by
  obtain ⟨r, r', hbody, hstop, rfl⟩ := exists_reader_of_parse hb h
  obtain ⟨houtside, hline⟩ := read_end hstop (.inr rfl)
  have hseam : ∀ t ∈ seam, t.item ≠ .eof := by
    intro t ht
    rw [hs t ht]
    simp
  -- behind the last line end nothing is under way
  have hread : Reader.start.readAll (body ++ seam) = .ok r' := by
    rw [readAll_append hb, hbody]
    cases seam with
    | nil =>
      rw [List.append_nil] at hlast
      have hr : r = r' := by
        have hpoint := point_of_readAll hb hbody hlast
        obtain ⟨done, point⟩ := r
        obtain rfl : point = .outside := hpoint
        exact Except.ok.inj hstop
      show Except.ok r = Except.ok r'
      rw [hr]
    | cons t seam =>
      obtain ⟨ht, hs⟩ := List.forall_mem_cons.mp hs
      have hfirst : r.read t = .ok r' := by
        obtain ⟨pos, item⟩ := t
        obtain rfl : item = .newline := ht
        exact hline pos
      show r.readAll (t :: seam) = .ok r'
      rw [readAll_cons r' hfirst (by simp [ht])]
      exact readAll_newlines houtside hs
  obtain ⟨done, point⟩ := r'
  obtain rfl : point = .outside := houtside
  have hbehind := readAll_behind done [] .outside more
  have hfront : ∀ t ∈ body ++ seam, t.item ≠ .eof :=
    List.forall_mem_append.mpr ⟨hb, hseam⟩
  unfold parse
  rw [readAll_append hfront, hread]
  show Except.map _ ((⟨[] ++ done, .outside⟩ : Reader).readAll more) = _
  rw [hbehind]
  show _ = Except.map _ (Except.map _ ((⟨[], .outside⟩ : Reader).readAll more))
  cases (⟨[], .outside⟩ : Reader).readAll more with
  | error e => rfl
  | ok r => exact congrArg Except.ok List.reverse_append

end PinnedDeps
