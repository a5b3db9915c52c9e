import PinnedDeps.Proofs.Evaluation.Ordered
import PinnedDeps.Proofs.Token.Lexer

/-! Values read back from their display. A shown value is lexed to the tokens of an expression whose
tree has that value, whatever the variables are. -/

namespace PinnedDeps

open Source (locate)

/-! ### What can be read back -/

namespace Value

/-- No text of the value needs an escape, and its integer is one of the dialect's literals. -/
def IsPlain : Value → Prop
  | .str text => Lexer.IsPlain text.toList
  | .int value => 0 ≤ value ∧ value ≤ Literal.maxInteger
  | .map entries => ∀ entry ∈ entries, Lexer.IsPlain entry.1.toList
  | _ => True

end Value

namespace Lexer

variable {depth : Nat} {rest : List (Located Char)}

/-- What follows shows the end of a literal. -/
abbrev Stops (rest : List (Located Char)) : Prop := StartsIn [',', ':', ']', '}', '\n'] rest

theorem Stops.not_quote (h : Stops rest) : ∀ d ∈ rest.head?, d.item ≠ '\'' :=
  StartsIn.elim (P := fun c => c ≠ '\'') h (by decide)

theorem Stops.not_name (h : Stops rest) :
    ∀ d ∈ rest.head?, isNameRest d.item = false ∧ isQuote d.item = false :=
  StartsIn.elim (P := fun c => isNameRest c = false ∧ isQuote c = false) h (by decide)

theorem Stops.not_digit (h : Stops rest) :
    ∀ d ∈ rest.head?, Literal.isDigitOrUnderscore d = false ∧
      Text.isAlphabetic d.item = false ∧ d.item ≠ '.' :=
  StartsIn.elim
    (P := fun c => (c.isDigit || c = '_') = false ∧ Text.isAlphabetic c = false ∧ c ≠ '.') h
    (by decide)

end Lexer

/-! ### Values -/

namespace Evaluation

/-- The expression has the value whatever the variables are. -/
def Denotes (e : Expr) (v : Value) : Prop :=
  ∀ platform vars, Evaluates platform vars e (.ok v)

end Evaluation

namespace Displayed

open Lexer Evaluation Grammar

variable {depth : Nat} {rest : List (Located Char)}

theorem lexes_text {text : String} (h : IsPlain text.toList) (hr : Stops rest)
    (hd : depth ≤ maxNesting) (p : Position) :
    Lexes depth (locate p (Value.quoted text).toList) [⟨p, .string text⟩] depth rest := by
  have hq : (Value.quoted text).toList =
      '\'' :: (text.toList.flatMap (escaped '\'') ++ ['\'']) := by
    rw [flatMap_escaped h]
    simp [Value.quoted]
  rw [hq]
  exact lexes_escaped rfl text hr.not_quote hd p

theorem isName_word (constant : Grammar.Constant) : IsName constant.word := by
  cases constant with
  | true => exact ⟨'T', ['r', 'u', 'e'], rfl, by decide, by decide⟩
  | false => exact ⟨'F', ['a', 'l', 's', 'e'], rfl, by decide, by decide⟩
  | none => exact ⟨'N', ['o', 'n', 'e'], rfl, by decide, by decide⟩

theorem toList_toString {n : Nat} : (toString (n : Int)).toList = Nat.toDigits 10 n := by
  show (Nat.repr n).toList = _
  exact Nat.toList_repr

/-- A lexeme of one character, and the blank behind it. -/
theorem lexes_blank_behind {c : Char} {l : Lexeme}
    (hl : ∀ p rest, lexeme ⟨p, c⟩ rest = .ok (l, rest)) (hdepth : l.depthAfter depth = depth)
    (hd : depth ≤ maxNesting) (p : Position) :
    Lexes depth (locate p [c, ' ']) [⟨p, l⟩] depth rest := by
  have hc : Lexes depth [⟨p, c⟩] [⟨p, l⟩] (l.depthAfter depth) (⟨p.after c, ' '⟩ :: rest) :=
    Lexes.of_lexeme (hl p _) (by omega)
  rw [hdepth] at hc
  exact hc.append (Lexes.of_blank rfl depth rest)

theorem lexes_comma (hd : depth ≤ maxNesting) (p : Position) (rest : List (Located Char)) :
    Lexes depth (locate p [',', ' ']) [⟨p, .comma⟩] depth rest :=
  lexes_blank_behind (fun _ _ => rfl) rfl hd p

theorem lexes_colon (hd : depth ≤ maxNesting) (p : Position) (rest : List (Located Char)) :
    Lexes depth (locate p [':', ' ']) [⟨p, .colon⟩] depth rest :=
  lexes_blank_behind (fun _ _ => rfl) rfl hd p

theorem toList_intercalate_cons (first : String) (more : List String) :
    (", ".intercalate (first :: more)).toList =
      first.toList ++ more.flatMap fun text => [',', ' '] ++ text.toList := by
  induction more generalizing first with
  | nil => simp
  | cons second more ih =>
    rw [String.intercalate_cons_cons, String.toList_append, String.toList_append, ih,
      List.flatMap_cons]
    simp

/-- The items of a list behind its first one, as they are shown. -/
def shownItems (items : List Value) : List Char :=
  items.flatMap fun item => [',', ' '] ++ item.display.toList

def shownEntry (entry : String × Value) : List Char :=
  (Value.quoted entry.1).toList ++ ([':', ' '] ++ entry.2.display.toList)

def shownEntries (entries : List (String × Value)) : List Char :=
  entries.flatMap fun entry => [',', ' '] ++ shownEntry entry

theorem shownItems_cons (item : Value) (items : List Value) :
    shownItems (item :: items) =
      [',', ' '] ++ (item.display.toList ++ shownItems items) := by
  rw [shownItems, List.flatMap_cons, List.append_assoc]
  rfl

theorem shownEntries_cons (entry : String × Value) (entries : List (String × Value)) :
    shownEntries (entry :: entries) = [',', ' '] ++ (shownEntry entry ++ shownEntries entries) := by
  rw [shownEntries, List.flatMap_cons, List.append_assoc]
  rfl

theorem stops_shownItems (items : List Value) (hr : Stops rest) (p : Position) :
    Stops (locate p (shownItems items) ++ rest) := by
  cases items with
  | nil => exact hr
  | cons item items =>
    rw [shownItems_cons, List.cons_append, Source.locate_cons]
    exact StartsIn.cons (by decide) p _

theorem stops_shownEntries (entries : List (String × Value)) (hr : Stops rest) (p : Position) :
    Stops (locate p (shownEntries entries) ++ rest) := by
  cases entries with
  | nil => exact hr
  | cons entry entries =>
    rw [shownEntries_cons, List.cons_append, Source.locate_cons]
    exact StartsIn.cons (by decide) p _

theorem toList_display_list (item : Value) (items : List Value) :
    (Value.list (item :: items)).display.toList =
      '[' :: (item.display.toList ++ shownItems items ++ [']']) := by
  rw [Value.display, Value.displayItems_eq_map, List.map_cons, String.toList_append,
    String.toList_append, toList_intercalate_cons]
  simp [shownItems, List.flatMap_map]

theorem toList_display_map (entry : String × Value) (entries : List (String × Value)) :
    (Value.map (entry :: entries)).display.toList =
      '{' :: (shownEntry entry ++ shownEntries entries ++ ['}']) := by
  rw [Value.display, Value.displayEntries_eq_map, List.map_cons, String.toList_append,
    String.toList_append, toList_intercalate_cons]
  simp [shownEntries, shownEntry, List.flatMap_map]

/-- Brackets around what is read one level deeper. -/
theorem lexes_enclosed {o c : Char} {open' close : Lexeme} {inner : List Char}
    {tokens : List Token} (ho : ∀ p rest, lexeme ⟨p, o⟩ rest = .ok (open', rest))
    (hc : ∀ p rest, lexeme ⟨p, c⟩ rest = .ok (close, rest))
    (hopen : open'.depthAfter depth = depth + 1) (hclose : close.depthAfter (depth + 1) = depth)
    (hd : depth + 1 ≤ maxNesting) (p : Position)
    (h : Lexes (depth + 1) (locate (p.after o) inner) tokens (depth + 1)
      (⟨(p.after o).afterAll inner, c⟩ :: rest)) :
    Lexes depth (locate p (o :: (inner ++ [c])))
      (⟨p, open'⟩ :: (tokens ++ [⟨(p.after o).afterAll inner, close⟩])) depth rest := by
  have hlast : Lexes (depth + 1) [⟨(p.after o).afterAll inner, c⟩]
      [⟨(p.after o).afterAll inner, close⟩] (close.depthAfter (depth + 1)) rest :=
    Lexes.of_lexeme (hc _ _) (by omega)
  rw [hclose] at hlast
  have hinner := h.append hlast
  have hfirst : Lexes depth [⟨p, o⟩] [⟨p, open'⟩] (open'.depthAfter depth)
      (locate (p.after o) inner ++ [⟨(p.after o).afterAll inner, c⟩] ++ rest) :=
    Lexes.of_lexeme (ho _ _) (by omega)
  rw [hopen] at hfirst
  rw [Source.locate_cons, Source.locate_append]
  exact hfirst.append hinner

theorem lexes_bracketed {inner : List Char} {tokens : List Token} {p : Position}
    (hd : depth + 1 ≤ maxNesting)
    (h : Lexes (depth + 1) (locate (p.after '[') inner) tokens (depth + 1)
      (⟨(p.after '[').afterAll inner, ']'⟩ :: rest)) :
    Lexes depth (locate p ('[' :: (inner ++ [']'])))
      (⟨p, .openBracket⟩ :: (tokens ++ [⟨(p.after '[').afterAll inner, .closeBracket⟩])) depth
      rest :=
  lexes_enclosed (fun _ _ => rfl) (fun _ _ => rfl) rfl rfl hd p h

theorem lexes_braced {inner : List Char} {tokens : List Token} {p : Position}
    (hd : depth + 1 ≤ maxNesting)
    (h : Lexes (depth + 1) (locate (p.after '{') inner) tokens (depth + 1)
      (⟨(p.after '{').afterAll inner, '}'⟩ :: rest)) :
    Lexes depth (locate p ('{' :: (inner ++ ['}'])))
      (⟨p, .openBrace⟩ :: (tokens ++ [⟨(p.after '{').afterAll inner, .closeBrace⟩])) depth rest :=
  lexes_enclosed (fun _ _ => rfl) (fun _ _ => rfl) rfl rfl hd p h

/-! ### Reading -/

/-- Wherever they stand, and whatever shows their end, the characters are read as an expression that
has the value. -/
def Reads (depth : Nat) (cs : List Char) (v : Value) : Prop :=
  ∀ p rest, Stops rest →
    ∃ x : Expression, Lexes depth (locate p cs) x.tokens depth rest ∧ Denotes x.tree v

def ReadsMoreItems (depth : Nat) (cs : List Char) (items : List Value) : Prop :=
  ∀ p rest, Stops rest →
    ∃ m : MoreItems, Lexes depth (locate p cs) m.tokens depth rest ∧
      ∀ platform vars, EvaluatesItems platform vars m.trees (.ok items)

def ReadsEntry (depth : Nat) (cs : List Char) (entry : String × Value) : Prop :=
  ∀ p rest, Stops rest →
    ∃ (k x : Expression) (colon : Position),
      Lexes depth (locate p cs) (k.tokens ++ ⟨colon, .colon⟩ :: x.tokens) depth rest ∧
        Denotes k.tree (.str entry.1) ∧ Denotes x.tree entry.2

def ReadsMoreEntries (depth : Nat) (cs : List Char) (entries : List (String × Value)) : Prop :=
  ∀ p rest, Stops rest →
    ∃ m : MoreEntries, Lexes depth (locate p cs) m.tokens depth rest ∧
      ∀ platform vars, EvaluatesEntries platform vars m.trees (.ok entries)

/-- An operand alone is an expression. -/
theorem exists_expression {cs : List (Located Char)} {v : Value} {x : Primary}
    (h : Lexes depth cs x.tokens depth rest) (hx : Denotes x.tree v) :
    ∃ x : Expression, Lexes depth cs x.tokens depth rest ∧ Denotes x.tree v := by
  refine ⟨.sum x .done, ?_, hx⟩
  rw [Expression.tokens, Summands.tokens, List.append_nil]
  exact h

theorem reads_text {text : String} (h : IsPlain text.toList) (hd : depth ≤ maxNesting) :
    Reads depth (Value.quoted text).toList (.str text) := by
  intro p rest hr
  exact exists_expression (x := .strings p text []) (lexes_text h hr hd p) fun _ _ => .str

theorem reads_integer {value : Int} (h : 0 ≤ value ∧ value ≤ Literal.maxInteger)
    (hd : depth ≤ maxNesting) : Reads depth (toString value).toList (.int value) := by
  intro p rest hr
  obtain ⟨n, rfl⟩ := Int.eq_ofNat_of_zero_le h.1
  rw [toList_toString]
  exact exists_expression (x := .integer p n) (lexes_integer (by omega) hr.not_digit hd p)
    fun _ _ => .int

theorem reads_constant {v : Value} (constant : Grammar.Constant) (hd : depth ≤ maxNesting)
    (hv : ∀ p, Denotes (constant.tree p) v) : Reads depth constant.word.toList v := by
  intro p rest hr
  exact exists_expression (x := .constant p constant)
    (lexes_name (isName_word constant) hr.not_name hd p) (hv p)

theorem reads_list_nil (hd : depth + 1 ≤ maxNesting) :
    Reads depth (Value.list []).display.toList (.list []) := by
  intro p rest hr
  have hempty : Lexes (depth + 1) (locate (p.after '[') []) [] (depth + 1)
      (⟨p.after '[', ']'⟩ :: rest) := .nil _ _
  exact exists_expression (x := .list p .empty (p.after '[')) (lexes_bracketed hd hempty)
    fun _ _ => .list .nil

theorem reads_list_cons {item : Value} {items : List Value} (hd : depth + 1 ≤ maxNesting)
    (hitem : Reads (depth + 1) item.display.toList item)
    (hmore : ReadsMoreItems (depth + 1) (shownItems items) items) :
    Reads depth (Value.list (item :: items)).display.toList (.list (item :: items)) := by
  intro p rest hr
  have hclose : Stops
      (⟨(p.after '[').afterAll (item.display.toList ++ shownItems items), ']'⟩ :: rest) :=
    StartsIn.cons (by decide) _ _
  obtain ⟨m, hm, hmv⟩ := hmore ((p.after '[').afterAll item.display.toList) _ hclose
  obtain ⟨x, hx, hxv⟩ := hitem (p.after '[') _ (stops_shownItems items hclose _)
  have hlist := lexes_bracketed hd (hx.locate_append hm)
  rw [← toList_display_list] at hlist
  exact exists_expression (x := .list p (.first x m) _) hlist
    fun platform vars => .list (.cons (hxv platform vars) (hmv platform vars))

theorem readsMoreItems_nil (depth : Nat) : ReadsMoreItems depth (shownItems []) [] :=
  fun _ _ _ => ⟨.done, .nil _ _, fun _ _ => .nil⟩

theorem readsMoreItems_cons {item : Value} {items : List Value} (hd : depth ≤ maxNesting)
    (hitem : Reads depth item.display.toList item)
    (hmore : ReadsMoreItems depth (shownItems items) items) :
    ReadsMoreItems depth (shownItems (item :: items)) (item :: items) := by
  intro p rest hr
  obtain ⟨m, hm, hmv⟩ := hmore ((p.afterAll [',', ' ']).afterAll item.display.toList) rest hr
  obtain ⟨x, hx, hxv⟩ := hitem (p.afterAll [',', ' ']) _ (stops_shownItems items hr _)
  refine ⟨.next p x m, ?_, fun platform vars => .cons (hxv platform vars) (hmv platform vars)⟩
  rw [shownItems_cons]
  exact (lexes_comma hd p _).locate_append (hx.locate_append hm)

theorem readsEntry {key : String} {value : Value} (hkey : IsPlain key.toList)
    (hd : depth ≤ maxNesting) (hv : Reads depth value.display.toList value) :
    ReadsEntry depth (shownEntry (key, value)) (key, value) := by
  intro p rest hr
  have hname : Lexes depth (locate p (Value.quoted key).toList) [⟨p, .string key⟩] depth
      (locate (p.afterAll (Value.quoted key).toList) ([':', ' '] ++ value.display.toList) ++
        rest) := by
    refine lexes_text hkey ?_ hd p
    rw [List.cons_append, Source.locate_cons]
    exact StartsIn.cons (by decide) _ _
  obtain ⟨x, hx, hxv⟩ := hv ((p.afterAll (Value.quoted key).toList).afterAll [':', ' ']) rest hr
  refine ⟨.sum (.strings p key []) .done, x, p.afterAll (Value.quoted key).toList, ?_,
    fun _ _ => .str, hxv⟩
  exact hname.locate_append ((lexes_colon hd _ _).locate_append hx)

theorem reads_map_nil (hd : depth + 1 ≤ maxNesting) :
    Reads depth (Value.map []).display.toList (.map []) := by
  intro p rest hr
  have hempty : Lexes (depth + 1) (locate (p.after '{') []) [] (depth + 1)
      (⟨p.after '{', '}'⟩ :: rest) := .nil _ _
  exact exists_expression (x := .map p .empty (p.after '{')) (lexes_braced hd hempty)
    fun _ _ => .map .nil Dict.ascending_nil fun _ => rfl

theorem reads_map_cons {entry : String × Value} {entries : List (String × Value)}
    (ha : Dict.Ascending (entry :: entries)) (hd : depth + 1 ≤ maxNesting)
    (hentry : ReadsEntry (depth + 1) (shownEntry entry) entry)
    (hmore : ReadsMoreEntries (depth + 1) (shownEntries entries) entries) :
    Reads depth (Value.map (entry :: entries)).display.toList (.map (entry :: entries)) := by
  intro p rest hr
  have hclose : Stops
      (⟨(p.after '{').afterAll (shownEntry entry ++ shownEntries entries), '}'⟩ :: rest) :=
    StartsIn.cons (by decide) _ _
  obtain ⟨m, hm, hmv⟩ := hmore ((p.after '{').afterAll (shownEntry entry)) _ hclose
  obtain ⟨k, x, colon, hx, hkv, hxv⟩ :=
    hentry (p.after '{') _ (stops_shownEntries entries hclose _)
  have hinner := hx.locate_append hm
  rw [List.append_assoc, List.cons_append] at hinner
  have hmap := lexes_braced hd hinner
  rw [← toList_display_map] at hmap
  refine exists_expression (x := .map p (.first k colon x m) _) hmap ?_
  -- the entries stand in order, so binding them one after the other changes nothing
  intro platform vars
  refine .map (.cons (hkv platform vars) (hxv platform vars) (hmv platform vars)) ha ?_
  intro name
  show Dict.get? (entry :: entries) name = Dict.get? (entry :: entries).reverse name
  rw [← Dict.get?_ofPairs, Dict.ofPairs_of_ascending ha]

theorem readsMoreEntries_nil (depth : Nat) : ReadsMoreEntries depth (shownEntries []) [] :=
  fun _ _ _ => ⟨.done, .nil _ _, fun _ _ => .nil⟩

theorem readsMoreEntries_cons {entry : String × Value} {entries : List (String × Value)}
    (hd : depth ≤ maxNesting) (hentry : ReadsEntry depth (shownEntry entry) entry)
    (hmore : ReadsMoreEntries depth (shownEntries entries) entries) :
    ReadsMoreEntries depth (shownEntries (entry :: entries)) (entry :: entries) := by
  intro p rest hr
  obtain ⟨m, hm, hmv⟩ := hmore ((p.afterAll [',', ' ']).afterAll (shownEntry entry)) rest hr
  obtain ⟨k, x, colon, hx, hkv, hxv⟩ :=
    hentry (p.afterAll [',', ' ']) _ (stops_shownEntries entries hr _)
  refine ⟨.next p k colon x m, ?_, fun platform vars =>
    .cons (hkv platform vars) (hxv platform vars) (hmv platform vars)⟩
  have htail := hx.locate_append hm
  rw [List.append_assoc, List.cons_append] at htail
  rw [shownEntries_cons]
  exact (lexes_comma hd p _).locate_append htail

mutual

/-- A value in order that can be spelled is read from its display, at any depth that leaves room for
its brackets. -/
theorem reads_value (v : Value) (ho : v.Everywhere Value.IsOrdered)
    (hp : v.Everywhere Value.IsPlain) {depth : Nat} (hd : depth + v.nesting ≤ maxNesting) :
    Reads depth v.display.toList v := by
  cases v with
  | str text => exact reads_text hp hd
  | int value => exact reads_integer hp hd
  | bool value =>
    cases value with
    | true => exact reads_constant .true hd fun _ _ _ => .bool
    | false => exact reads_constant .false hd fun _ _ _ => .bool
  | none => exact reads_constant .none hd fun _ _ _ => .none
  | list items =>
    rw [Value.nesting] at hd
    cases items with
    | nil => exact reads_list_nil (by omega)
    | cons item items =>
      rw [Value.nestingItems] at hd
      have hitem : depth + 1 + item.nesting ≤ maxNesting := by omega
      have hmore : depth + 1 + Value.nestingItems items ≤ maxNesting := by omega
      exact reads_list_cons (by omega) (reads_value item ho.2.1 hp.2.1 hitem)
        (reads_moreItems items ho.2.2 hp.2.2 hmore)
  | map entries =>
    rw [Value.nesting] at hd
    cases entries with
    | nil => exact reads_map_nil (by omega)
    | cons entry entries =>
      obtain ⟨key, value⟩ := entry
      rw [Value.nestingEntries] at hd
      obtain ⟨hkey, hkeys⟩ := List.forall_mem_cons.mp hp.1
      have hvalue : depth + 1 + value.nesting ≤ maxNesting := by omega
      have hmore : depth + 1 + Value.nestingEntries entries ≤ maxNesting := by omega
      exact reads_map_cons ho.1 (by omega)
        (readsEntry hkey (by omega) (reads_value value ho.2.1 hp.2.1 hvalue))
        (reads_moreEntries entries ho.2.2 hp.2.2 hkeys hmore)
termination_by structural v

theorem reads_moreItems (items : List Value) (ho : Value.EverywhereItems Value.IsOrdered items)
    (hp : Value.EverywhereItems Value.IsPlain items) {depth : Nat}
    (hd : depth + Value.nestingItems items ≤ maxNesting) :
    ReadsMoreItems depth (shownItems items) items := by
  cases items with
  | nil => exact readsMoreItems_nil depth
  | cons item items =>
    rw [Value.nestingItems] at hd
    have hitem : depth + item.nesting ≤ maxNesting := by omega
    have hmore : depth + Value.nestingItems items ≤ maxNesting := by omega
    exact readsMoreItems_cons (by omega) (reads_value item ho.1 hp.1 hitem)
      (reads_moreItems items ho.2 hp.2 hmore)
termination_by structural items

theorem reads_moreEntries (entries : List (String × Value))
    (ho : Value.EverywhereEntries Value.IsOrdered entries)
    (hp : Value.EverywhereEntries Value.IsPlain entries)
    (hkeys : ∀ entry ∈ entries, IsPlain entry.1.toList) {depth : Nat}
    (hd : depth + Value.nestingEntries entries ≤ maxNesting) :
    ReadsMoreEntries depth (shownEntries entries) entries := by
  cases entries with
  | nil => exact readsMoreEntries_nil depth
  | cons entry entries =>
    obtain ⟨key, value⟩ := entry
    rw [Value.nestingEntries] at hd
    obtain ⟨hkey, hkeys⟩ := List.forall_mem_cons.mp hkeys
    have hvalue : depth + value.nesting ≤ maxNesting := by omega
    have hmore : depth + Value.nestingEntries entries ≤ maxNesting := by omega
    exact readsMoreEntries_cons (by omega)
      (readsEntry hkey (by omega) (reads_value value ho.1 hp.1 hvalue))
      (reads_moreEntries entries ho.2 hp.2 hkeys hmore)
termination_by structural entries

end

end Displayed

end PinnedDeps
