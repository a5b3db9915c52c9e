import PinnedDeps.Proofs.Syntax.Lines

/-! Where tokens stop being the beginning of a program. Tokens that the reader has read can be
completed, whatever is open: a value where one must start, then what closes each bracket. The one
exception is a name in the place of a value, which the reader takes before it knows the next token;
it goes on only as a look-up. So a token is refused when no program begins with the tokens up to
it, and the complaint points at it, or at the name in front of it. -/

namespace PinnedDeps

namespace Reader

open Grammar

/-! ### One token -/

variable {r r' : Reader} {ctx : Context} {t : Token} {e : SyntaxError}

/-- What a token does behind `point`: the complaint points at it, or if a name waits for the next
token then the token is that name and a value had to start there. -/
def Settles (point : Point) (t : Token) : Except SyntaxError Point → Prop
  | .error e => e.pos = t.pos
  | .ok next =>
    ∀ ctx pos word, next = .name ctx pos word → point = .value ctx ∧ t = ⟨pos, .name word⟩

theorem settles_enter (point : Point) (ctx : Context) (t : Token) (bracket : Bracket) :
    Settles point t (enter ctx t.pos bracket) := by
  unfold enter
  split
  · exact fun _ _ _ => nofun
  · rfl

theorem settles_readValue (ctx : Context) (t : Token) :
    Settles (.value ctx) t (readValue ctx t) := by
  obtain ⟨pos, item⟩ := t
  cases item with
  | openBrace | openBracket | openParen => exact settles_enter _ ctx _ _
  | string text | integer n => exact fun _ _ _ => nofun
  | name word =>
    unfold readValue
    dsimp only
    repeat' split
    all_goals
      intro _ _ _ hname
      cases hname
    exact ⟨rfl, rfl⟩
  | _ =>
    obtain ⟨target, place, levels, before⟩ := ctx
    rcases before with _ | before <;> rcases levels with _ | ⟨⟨bracket, outside⟩, outer⟩
    all_goals first | rfl | (cases bracket <;> first | rfl | exact fun _ _ _ => nofun)

theorem settles_readInside (point : Point) (ctx : Context) (level : Level) (outer : List Level)
    (x : Expr) (t : Token) : Settles point t (readInside ctx level outer x t) := by
  obtain ⟨bracket, outside⟩ := level
  obtain ⟨pos, item⟩ := t
  cases bracket <;> cases item
  all_goals first | rfl | exact fun _ _ _ => nofun

theorem settles_readAfter (point : Point) (done : List Statement) (ctx : Context) (x : Expr)
    (t : Token) : Settles point t ((readAfter done ctx x t).map (·.point)) := by
  obtain ⟨target, place, levels, before⟩ := ctx
  by_cases hplus : t.item = .plus
  · obtain ⟨pos, item⟩ := t
    obtain rfl : item = .plus := hplus
    exact fun _ _ _ => nofun
  cases levels with
  | nil =>
    obtain ⟨pos, item⟩ := t
    cases item
    all_goals first | rfl | exact fun _ _ _ => nofun
  | cons level outer =>
    have hinside := settles_readInside point ⟨target, place, level :: outer, before⟩ level outer
      (sumWith x before) t
    rw [readAfter_inside hplus]
    cases hread : readInside ⟨target, place, level :: outer, before⟩ level outer
        (sumWith x before) t with
    | error e => rwa [hread] at hinside
    | ok next => rwa [hread] at hinside

theorem settles_read (done : List Statement) {point : Point}
    (hp : ∀ ctx pos word, point ≠ .name ctx pos word) (t : Token) :
    Settles point t (((⟨done, point⟩ : Reader).read t).map (·.point)) := by
  cases point with
  | outside | target =>
    obtain ⟨pos, item⟩ := t
    cases item
    all_goals first | rfl | exact fun _ _ _ => nofun
  | value ctx =>
    have hvalue := settles_readValue ctx t
    rw [read_value]
    cases hread : readValue ctx t with
    | error e => rwa [hread] at hvalue
    | ok next => rwa [hread] at hvalue
  | text ctx place text =>
    by_cases ht : ∃ more, t.item = .string more
    · obtain ⟨pos, item⟩ := t
      obtain ⟨more, rfl⟩ := ht
      exact fun _ _ _ => nofun
    · rw [read_text fun more hmore => ht ⟨more, hmore⟩]
      exact settles_readAfter _ done ctx _ t
  | name ctx place word => exact absurd rfl (hp ctx place word)
  | operand ctx x => exact settles_readAfter _ done ctx x t

/-- Behind a name the bracket of a look-up opens, or the complaint points at the name. -/
theorem read_name_cases (done : List Statement) (ctx : Context) (place : Position) (word : String)
    (t : Token) :
    word = "Var" ∧ t.item = .openParen ∧ (⟨done, .name ctx place word⟩ : Reader).read t =
        (enter ctx t.pos (.var place)).map (⟨done, ·⟩) ∨
      (word = "Var" → t.item ≠ .openParen) ∧
        ∃ reason, (⟨done, .name ctx place word⟩ : Reader).read t = .error ⟨place, reason⟩ := by
  obtain ⟨pos, item⟩ := t
  cases item with
  | openParen =>
    by_cases hword : word = "Var"
    · exact .inl ⟨hword, rfl, if_pos hword⟩
    · exact .inr ⟨fun hvar => absurd hvar hword, _, if_neg hword⟩
  | _ => exact .inr ⟨fun _ => nofun, _, rfl⟩

theorem eq_of_read_name {pos : Position} {word : String} (h : r.read t = .ok r')
    (hr : r'.point = .name ctx pos word) : r.point = .value ctx ∧ t = ⟨pos, .name word⟩ := by
  obtain ⟨done, point⟩ := r
  by_cases hp : ∃ ctx pos word, point = .name ctx pos word
  · obtain ⟨ctx', place, name, rfl⟩ := hp
    rcases read_name_cases done ctx' place name t with ⟨-, -, hread⟩ | ⟨-, reason, hread⟩
    · obtain ⟨next, hnext, rfl⟩ := exists_of_map_eq_ok (hread.symm.trans h)
      have hs := settles_enter (.name ctx' place name) ctx' t (.var place)
      rw [hnext] at hs
      exact hs ctx pos word hr
    · cases hread.symm.trans h
  · have hs := settles_read done (fun ctx pos word heq => hp ⟨ctx, pos, word, heq⟩) t
    rw [h] at hs
    exact hs ctx pos word hr

/-! ### Readers that can go on -/

/-- Some tokens up to an end marker are accepted. -/
def Completable (r : Reader) : Prop :=
  ∃ rest stop r', (∀ t ∈ rest, t.item ≠ .eof) ∧ r.readAll (rest ++ [⟨stop, .eof⟩]) = .ok r'

/-- A name in the place of a value goes on only if a look-up begins with it whose bracket may be
opened. -/
def Point.Live : Point → Prop
  | .name ctx _ word => word = "Var" ∧ ctx.levels.length < maxNesting
  | _ => True

theorem Completable.of_read {r r' : Reader} {t : Token} (hr : Completable r')
    (h : r.read t = .ok r') (ht : t.item ≠ .eof) : Completable r := by
  obtain ⟨rest, stop, r'', hrest, hall⟩ := hr
  refine ⟨t :: rest, stop, r'', List.forall_mem_cons.mpr ⟨ht, hrest⟩, ?_⟩
  rwa [List.cons_append, readAll_cons r' h ht]

/-- By the open brackets, of which the innermost is closed first. -/
theorem completable_operand (done : List Statement) (target : String) (place : Position)
    (levels : List Level) (before : Option Operands) (e : Expr) :
    Completable ⟨done, .operand ⟨target, place, levels, before⟩ e⟩ := by
  induction levels generalizing before e with
  | nil => exact ⟨[], .start, _, List.forall_mem_nil _, rfl⟩
  | cons level outer ih =>
    obtain ⟨bracket, outside⟩ := level
    have hentry (pos : Position) (entries : List (Expr × Expr)) (key : Expr)
        (before : Option Operands) (e : Expr) : Completable
        ⟨done, .operand ⟨target, place, ⟨.entry pos entries key, outside⟩ :: outer, before⟩ e⟩ :=
      (ih outside _).of_read (t := ⟨.start, .closeBrace⟩) rfl (by simp)
    cases bracket with
    | list pos items => exact (ih outside _).of_read (t := ⟨.start, .closeBracket⟩) rfl (by simp)
    | key pos entries =>
      -- a key needs its value before the mapping can be closed
      have hvalue := (hentry pos entries (sumWith e before) none _).of_read
        (r := ⟨done, .value ⟨target, place, _ :: outer, none⟩⟩) (t := ⟨.start, .integer 0⟩) rfl
        (by simp)
      exact hvalue.of_read (t := ⟨.start, .colon⟩) rfl (by simp)
    | entry pos entries key => exact hentry pos entries key before e
    | paren => exact (ih outside _).of_read (t := ⟨.start, .closeParen⟩) rfl (by simp)
    | var pos => exact (ih outside _).of_read (t := ⟨.start, .closeParen⟩) rfl (by simp)

theorem completable_value (done : List Statement) (ctx : Context) :
    Completable ⟨done, .value ctx⟩ :=
  (completable_operand done _ _ _ _ _).of_read (t := ⟨.start, .integer 0⟩) rfl (by simp)

theorem live_of_read {r r' : Reader} {t : Token} (h : r.read t = .ok r') : r.point.Live := by
  obtain ⟨done, point⟩ := r
  cases point with
  | name ctx pos word =>
    rcases read_name_cases done ctx pos word t with ⟨hword, -, hread⟩ | ⟨-, reason, hread⟩
    · obtain ⟨next, hnext, -⟩ := exists_of_map_eq_ok (hread.symm.trans h)
      obtain ⟨hdepth, hmax⟩ := depthAt_enter hnext
      rw [hdepth] at hmax
      exact ⟨hword, Nat.lt_of_succ_le hmax⟩
    · cases hread.symm.trans h
  | _ => trivial

theorem completable_iff (r : Reader) : Completable r ↔ r.point.Live := by
  constructor
  · rintro ⟨rest, stop, r', -, hall⟩
    obtain ⟨t, more, htokens⟩ : ∃ t more, rest ++ [⟨stop, .eof⟩] = t :: more :=
      List.exists_cons_of_ne_nil (by simp)
    rw [htokens, readAll] at hall
    cases hread : r.read t with
    | error e =>
      rw [hread] at hall
      cases hall
    | ok next => exact live_of_read hread
  · obtain ⟨done, point⟩ := r
    intro hlive
    cases point with
    | outside => exact ⟨[], .start, _, List.forall_mem_nil _, rfl⟩
    | target pos name =>
      exact (completable_value done _).of_read (t := ⟨.start, .assign⟩) rfl (by simp)
    | value ctx => exact completable_value done ctx
    | text ctx pos text =>
      exact (completable_value done _).of_read (t := ⟨.start, .plus⟩) rfl (by simp)
    | name ctx pos word =>
      obtain ⟨rfl, hdepth⟩ := hlive
      exact (completable_value done _).of_read (t := ⟨.start, .openParen⟩) (map_enter hdepth done)
        (by simp)
    | operand ctx e => exact completable_operand done _ _ _ _ _

/-! ### The first token that is refused -/

theorem exists_of_readAll_name {front : List Token} (hf : ∀ t ∈ front, t.item ≠ .eof)
    (h : Reader.start.readAll front = .ok r) {pos : Position} {word : String}
    (hr : r.point = .name ctx pos word) :
    ∃ before done, front = before ++ [⟨pos, .name word⟩] ∧
      Reader.start.readAll before = .ok ⟨done, .value ctx⟩ := by
  rcases List.eq_nil_or_concat front with rfl | ⟨before, t, heq⟩
  · cases h
    cases hr
  · rw [List.concat_eq_append] at heq
    subst heq
    obtain ⟨⟨done, point⟩, hbefore, hlast⟩ :=
      exists_of_readAll_append (fun t' ht' => hf t' (List.mem_append_left [t] ht')) h
    obtain ⟨hpoint, rfl⟩ := eq_of_read_name (read_of_readAll hlast) hr
    obtain rfl : point = .value ctx := hpoint
    exact ⟨before, done, rfl, hbefore⟩

theorem exists_of_readAll_error {tokens : List Token} (h : r.readAll tokens = .error e) :
    ∃ before t after r', tokens = before ++ t :: after ∧ (∀ t ∈ before, t.item ≠ .eof) ∧
      r.readAll before = .ok r' ∧ r'.read t = .error e := by
  induction tokens generalizing r with
  | nil => cases h
  | cons t tokens ih =>
    rw [readAll] at h
    cases hread : r.read t with
    | error e' =>
      rw [hread] at h
      obtain rfl : e' = e := Except.error.inj h
      exact ⟨[], t, tokens, r, rfl, List.forall_mem_nil _, rfl, hread⟩
    | ok next =>
      rw [hread] at h
      dsimp only at h
      split at h
      · cases h
      · next ht =>
        obtain ⟨before, t', after, r', rfl, hbefore, hall, hrefused⟩ := ih h
        exact ⟨t :: before, t', after, r', rfl, List.forall_mem_cons.mpr ⟨ht, hbefore⟩,
          (readAll_cons next hread ht before).trans hall, hrefused⟩

theorem readAll_append_of_error {tokens : List Token} (h : r.readAll tokens = .error e)
    (more : List Token) : r.readAll (tokens ++ more) = .error e := by
  obtain ⟨before, t, after, r', rfl, hbefore, hall, hrefused⟩ := exists_of_readAll_error h
  rw [List.append_assoc, readAll_append hbefore, hall]
  show r'.readAll (t :: (after ++ more)) = .error e
  rw [readAll, hrefused]

end Reader

open Reader

namespace Grammar

/-! ### Beginnings of programs -/

/-- Tokens that end with their only end marker and form a program. -/
def Accepted (tokens : List Token) : Prop :=
  ∃ body stop program, tokens = body ++ [⟨stop, .eof⟩] ∧ (∀ t ∈ body, t.item ≠ .eof) ∧
    parse tokens = .ok program

/-- Some program starts with the tokens. -/
def Begins (front : List Token) : Prop := ∃ tokens, front <+: tokens ∧ Accepted tokens

/-- A value can start behind the tokens. An integer stands nowhere else, other than a text, which
may continue one, or a name. -/
def ExpectsValue (front : List Token) : Prop := ∀ pos n, Begins (front ++ [⟨pos, .integer n⟩])

variable {front : List Token} {e : SyntaxError}

theorem not_begins_of_readAll (h : Reader.start.readAll front = .error e) : ¬Begins front := by
  rintro ⟨_, ⟨more, rfl⟩, body, stop, program, -, -, hparse⟩
  rw [parse, readAll_append_of_error h] at hparse
  cases hparse

theorem not_begins_of_read {r : Reader} {t : Token} (hf : ∀ t ∈ front, t.item ≠ .eof)
    (h : Reader.start.readAll front = .ok r) (ht : r.read t = .error e) :
    ¬Begins (front ++ [t]) := by
  refine not_begins_of_readAll (e := e) ?_
  rw [readAll_append hf, h]
  show r.readAll [t] = .error e
  rw [readAll, ht]

theorem begins_iff (hf : ∀ t ∈ front, t.item ≠ .eof) :
    Begins front ↔ ∃ r, Reader.start.readAll front = .ok r ∧ r.point.Live := by
  constructor
  · rintro ⟨_, ⟨more, rfl⟩, body, stop, program, heq, hb, hparse⟩
    obtain ⟨r, hr, -⟩ := exists_of_map_eq_ok hparse
    obtain ⟨r', hfront, hmore⟩ := exists_of_readAll_append hf hr
    refine ⟨r', hfront, (completable_iff r').mp ?_⟩
    -- the end marker is not among the tokens in front
    rcases List.eq_nil_or_concat more with rfl | ⟨rest, last, hlast⟩
    · rw [List.append_nil] at heq
      subst heq
      exact absurd rfl (hf ⟨stop, .eof⟩ (by simp))
    · rw [List.concat_eq_append] at hlast
      subst hlast
      rw [← List.append_assoc] at heq
      obtain ⟨rfl, hstop⟩ := List.append_inj' heq rfl
      obtain rfl := List.singleton_inj.mp hstop
      exact ⟨rest, stop, r, fun t ht => hb t (List.mem_append_right front ht), hmore⟩
  · rintro ⟨r, hfront, hlive⟩
    obtain ⟨rest, stop, r', hrest, hmore⟩ := (completable_iff r).mpr hlive
    refine ⟨front ++ (rest ++ [⟨stop, .eof⟩]), List.prefix_append _ _, front ++ rest, stop,
      r'.statements.reverse, (List.append_assoc _ _ _).symm,
      List.forall_mem_append.mpr ⟨hf, hrest⟩, ?_⟩
    rw [parse, readAll_append hf, hfront]
    show Except.map _ (r.readAll (rest ++ [⟨stop, .eof⟩])) = _
    rw [hmore]
    rfl

theorem expectsValue_of_readAll {done : List Statement} {ctx : Context}
    (hf : ∀ t ∈ front, t.item ≠ .eof) (h : Reader.start.readAll front = .ok ⟨done, .value ctx⟩) :
    ExpectsValue front := by
  intro pos n
  have hf' : ∀ t ∈ front ++ [⟨pos, .integer n⟩], t.item ≠ .eof :=
    List.forall_mem_append.mpr ⟨hf, by simp⟩
  refine (begins_iff hf').mpr ⟨⟨done, .operand ctx (.int pos n)⟩, ?_, trivial⟩
  rw [readAll_append hf, h]
  rfl

/-- Tokens that are refused, but not for too many open brackets, have a first one with which no
program goes on, and the complaint points at it; only a `Var` where a value must start is pointed at
because of the token behind it, which does not open the bracket of a look-up. -/
theorem exists_refused_of_parse_error {tokens : List Token} (hn : NestedWithin 0 tokens)
    (h : parse tokens = .error e) :
    ∃ before t after, tokens = before ++ t :: after ∧ e.pos = t.pos ∧ Begins before ∧
      (¬Begins (before ++ [t]) ∨
        t.item = .name "Var" ∧ ExpectsValue before ∧
          ∃ u more, after = u :: more ∧ u.item ≠ .openParen ∧ ¬Begins (before ++ [t, u])) := by
  obtain ⟨front, t, after, ⟨done, point⟩, rfl, hfront, hall, hrefused⟩ :=
    exists_of_readAll_error (eq_error_of_map h)
  have hend : ¬Begins (front ++ [t]) := not_begins_of_read hfront hall hrefused
  by_cases hname : ∃ ctx pos word, point = .name ctx pos word
  · -- the name has been read already, and `t` is behind it
    obtain ⟨ctx, pos, word, rfl⟩ := hname
    have hdepth : depthBehind 0 front = ctx.levels.length :=
      (depthAt_readAll hfront hall (Nat.zero_le _)).1.symm
    rcases read_name_cases done ctx pos word t with ⟨-, hopen, hread⟩ | ⟨hvar, reason, hread⟩
    · -- the bracket behind it is one of those that may be opened
      obtain ⟨-, hopened, -⟩ := (nestedWithin_append 0 front (t :: after)).mp hn
      rw [hdepth, hopen] at hopened
      rw [hread, map_enter hopened done] at hrefused
      cases hrefused
    obtain rfl : ⟨pos, reason⟩ = e := Except.error.inj (hread.symm.trans hrefused)
    obtain ⟨before, done', rfl, hvalue⟩ := exists_of_readAll_name hfront hall rfl
    have hbefore : ∀ t ∈ before, t.item ≠ .eof := (List.forall_mem_append.mp hfront).1
    refine ⟨before, ⟨pos, .name word⟩, t :: after, List.append_assoc _ _ _, rfl,
      (begins_iff hbefore).mpr ⟨_, hvalue, trivial⟩, ?_⟩
    by_cases hword : word = "Var"
    · subst hword
      rw [List.append_assoc] at hend
      exact .inr ⟨rfl, expectsValue_of_readAll hbefore hvalue, t, after, rfl, hvar rfl, hend⟩
    · refine .inl fun hbegins => hword ?_
      obtain ⟨r, hr, hlive⟩ := (begins_iff hfront).mp hbegins
      obtain rfl := Except.ok.inj (hall.symm.trans hr)
      exact hlive.1
  · have hpoint : ∀ ctx pos word, point ≠ .name ctx pos word := fun ctx pos word hp =>
      hname ⟨ctx, pos, word, hp⟩
    have hlive : point.Live := by
      cases point with
      | name ctx pos word => exact absurd rfl (hpoint ctx pos word)
      | _ => trivial
    have hpos := settles_read done hpoint t
    rw [hrefused] at hpos
    exact ⟨front, t, after, rfl, hpos, (begins_iff hfront).mpr ⟨_, hall, hlive⟩, .inl hend⟩

/-- `x = [1, Var 'a']`, where the complaint points at `Var`. -/
theorem exists_refused_of_parse_error_lookUp :
    let tokens : List Token :=
      [⟨⟨1, 1⟩, .name "x"⟩, ⟨⟨1, 3⟩, .assign⟩, ⟨⟨1, 5⟩, .openBracket⟩, ⟨⟨1, 6⟩, .integer 1⟩,
        ⟨⟨1, 7⟩, .comma⟩, ⟨⟨1, 9⟩, .name "Var"⟩, ⟨⟨1, 13⟩, .string "a"⟩, ⟨⟨1, 16⟩, .closeBracket⟩,
        ⟨⟨1, 17⟩, .eof⟩]
    NestedWithin 0 tokens ∧ parse tokens = .error ⟨⟨1, 9⟩, .nameReference "Var"⟩ ∧
      ∃ before t after, tokens = before ++ t :: after ∧ ⟨1, 9⟩ = t.pos ∧ Begins before ∧
        (¬Begins (before ++ [t]) ∨
          t.item = .name "Var" ∧ ExpectsValue before ∧
            ∃ u more, after = u :: more ∧ u.item ≠ .openParen ∧ ¬Begins (before ++ [t, u])) := by
  intro tokens
  have hn : NestedWithin 0 tokens := by simp [tokens, Lexeme.depthAfter, maxNesting]
  have h : parse tokens = .error ⟨⟨1, 9⟩, .nameReference "Var"⟩ := rfl
  exact ⟨hn, h, exists_refused_of_parse_error hn h⟩

end Grammar

end PinnedDeps
