import PinnedDeps.Proofs.Syntax.Depths

/-! Statements read by descent. There is a call for each rule of the grammar; it looks at the token
at a cursor, goes behind it or not, and calls others for what the rule is made of. An end marker is
looked at but never passed, so a call that waits for some other token could wait there for ever. The
rules say what each call does next, and a run of them is a finite tree; that there is one for every
call and only one, and where the cursor can be, is shown from the rules. -/

namespace PinnedDeps

namespace Lexeme

/-- The tokens that a value can start with. -/
def StartsValue : Lexeme → Prop
  | .string _ | .integer _ | .name _ | .openBrace | .openBracket | .openParen => True
  | _ => False

theorem Opens.ne_eof {l : Lexeme} (h : l.Opens) : l ≠ .eof := by
  rcases h with rfl | rfl | rfl <;> nofun

/-- The tokens that may stand behind a statement. -/
def EndsStatement (l : Lexeme) : Prop := l = .newline ∨ l = .semicolon ∨ l = .eof

end Lexeme

namespace Descent

/-- What can be called. `depth` counts the open brackets, the one that the call reads the inside of
included. -/
inductive Call where
  /-- Further literals behind `text`. -/
  | literals (text : String)
  | primary (depth : Nat)
  | expression (depth : Nat)
  /-- What follows the first operand of a sum. -/
  | summands (depth : Nat)
  /-- An expression and the bracket that closes it. -/
  | parenthesized (depth : Nat)
  | argument (depth : Nat)
  /-- Items up to the bracket that closes the list. -/
  | items (depth : Nat)
  | entries (depth : Nat)
  | statement
  | statements

/-- What a call gives when it succeeds. -/
abbrev Call.Result : Call → Type
  | .literals _ => String
  | .primary _ | .expression _ | .parenthesized _ | .argument _ => Expr
  | .summands _ => List (Position × Expr)
  | .items _ => List Expr
  | .entries _ => List (Expr × Expr)
  | .statement => Statement
  | .statements => List Statement

/-- The cursor after the token there has been taken. -/
def behind (i : Nat) (t : Token) : Nat := if t.item = .eof then i else i + 1

/-! ### Rules -/

section

variable (tokens : List Token)

open Grammar (Constant sumTree)

/-- A call with the cursor at one place ends with an outcome and the cursor at another. -/
inductive Runs : (call : Call) → Nat → Except SyntaxError call.Result → Nat → Prop where
  -- literals
  | literal {text more pos i outcome j} :
      tokens[i]? = some ⟨pos, .string more⟩ → Runs (.literals (text ++ more)) (i + 1) outcome j →
      Runs (.literals text) i outcome j
  | noLiteral {text t i} :
      tokens[i]? = some t → (∀ more, t.item ≠ .string more) → Runs (.literals text) i (.ok text) i
  -- operands
  | strings {depth text pos i outcome j} :
      tokens[i]? = some ⟨pos, .string text⟩ → Runs (.literals text) (i + 1) outcome j →
      Runs (.primary depth) i (outcome.map (.str pos)) j
  | integer {depth n pos i} :
      tokens[i]? = some ⟨pos, .integer n⟩ → Runs (.primary depth) i (.ok (.int pos n)) (i + 1)
  | constant {depth pos i} {c : Constant} :
      tokens[i]? = some ⟨pos, .name c.word⟩ → Runs (.primary depth) i (.ok (c.tree pos)) (i + 1)
  | map {depth pos i outcome j} :
      tokens[i]? = some ⟨pos, .openBrace⟩ → depth < maxNesting →
      Runs (.entries (depth + 1)) (i + 1) outcome j →
      Runs (.primary depth) i (outcome.map (.map pos)) j
  | list {depth pos i outcome j} :
      tokens[i]? = some ⟨pos, .openBracket⟩ → depth < maxNesting →
      Runs (.items (depth + 1)) (i + 1) outcome j →
      Runs (.primary depth) i (outcome.map (.list pos)) j
  | paren {depth pos i outcome j} :
      tokens[i]? = some ⟨pos, .openParen⟩ → depth < maxNesting →
      Runs (.parenthesized (depth + 1)) (i + 1) outcome j → Runs (.primary depth) i outcome j
  | tooDeep {depth t i} :
      tokens[i]? = some t → t.item.Opens → maxNesting ≤ depth →
      Runs (.primary depth) i (.error ⟨t.pos, .tooDeep⟩) (i + 1)
  | var {depth pos opening i outcome j} :
      tokens[i]? = some ⟨pos, .name "Var"⟩ → tokens[i + 1]? = some ⟨opening, .openParen⟩ →
      depth < maxNesting → Runs (.argument (depth + 1)) (i + 2) outcome j →
      Runs (.primary depth) i (outcome.map (.var pos)) j
  | varTooDeep {depth pos opening i} :
      tokens[i]? = some ⟨pos, .name "Var"⟩ → tokens[i + 1]? = some ⟨opening, .openParen⟩ →
      maxNesting ≤ depth → Runs (.primary depth) i (.error ⟨opening, .tooDeep⟩) (i + 2)
  | otherCall {depth word pos opening i} :
      tokens[i]? = some ⟨pos, .name word⟩ → word ≠ "Var" → (∀ c : Constant, word ≠ c.word) →
      tokens[i + 1]? = some ⟨opening, .openParen⟩ →
      Runs (.primary depth) i (.error ⟨pos, .unsupportedCall word⟩) (i + 1)
  | reference {depth word pos t i} :
      tokens[i]? = some ⟨pos, .name word⟩ → (∀ c : Constant, word ≠ c.word) →
      tokens[i + 1]? = some t → t.item ≠ .openParen →
      Runs (.primary depth) i (.error ⟨pos, .nameReference word⟩) (i + 1)
  | noValue {depth t i} :
      tokens[i]? = some t → ¬t.item.StartsValue →
      Runs (.primary depth) i (.error ⟨t.pos, .expectedValue t.item⟩) (behind i t)
  -- sums
  | sum {depth first i j outcome k} :
      Runs (.primary depth) i (.ok first) j → Runs (.summands depth) j outcome k →
      Runs (.expression depth) i (outcome.map (sumTree first)) k
  | firstFails {depth e i j} :
      Runs (.primary depth) i (.error e) j → Runs (.expression depth) i (.error e) j
  | noSummand {depth t i} :
      tokens[i]? = some t → t.item ≠ .plus → Runs (.summands depth) i (.ok []) i
  | summand {depth operand pos i j outcome k} :
      tokens[i]? = some ⟨pos, .plus⟩ → Runs (.primary depth) (i + 1) (.ok operand) j →
      Runs (.summands depth) j outcome k →
      Runs (.summands depth) i (outcome.map ((pos, operand) :: ·)) k
  | summandFails {depth e pos i j} :
      tokens[i]? = some ⟨pos, .plus⟩ → Runs (.primary depth) (i + 1) (.error e) j →
      Runs (.summands depth) i (.error e) j
  -- round brackets
  | closed {depth e pos i j} :
      Runs (.expression depth) i (.ok e) j → tokens[j]? = some ⟨pos, .closeParen⟩ →
      Runs (.parenthesized depth) i (.ok e) (j + 1)
  | tuple {depth e pos i j} :
      Runs (.expression depth) i (.ok e) j → tokens[j]? = some ⟨pos, .comma⟩ →
      Runs (.parenthesized depth) i (.error ⟨pos, .tuple⟩) j
  | unclosed {depth e t i j} :
      Runs (.expression depth) i (.ok e) j → tokens[j]? = some t → t.item ≠ .closeParen →
      t.item ≠ .comma →
      Runs (.parenthesized depth) i (.error ⟨t.pos, .unclosedParen t.item⟩) (behind j t)
  | insideFails {depth e i j} :
      Runs (.expression depth) i (.error e) j → Runs (.parenthesized depth) i (.error e) j
  | argumentClosed {depth e pos i j} :
      Runs (.expression depth) i (.ok e) j → tokens[j]? = some ⟨pos, .closeParen⟩ →
      Runs (.argument depth) i (.ok e) (j + 1)
  | argumentUnclosed {depth e t i j} :
      Runs (.expression depth) i (.ok e) j → tokens[j]? = some t → t.item ≠ .closeParen →
      Runs (.argument depth) i (.error ⟨t.pos, .unclosedVar t.item⟩) (behind j t)
  | argumentFails {depth e i j} :
      Runs (.expression depth) i (.error e) j → Runs (.argument depth) i (.error e) j
  -- lists
  | noItem {depth pos i} :
      tokens[i]? = some ⟨pos, .closeBracket⟩ → Runs (.items depth) i (.ok []) (i + 1)
  | lastItem {depth t item pos i j} :
      tokens[i]? = some t → t.item ≠ .closeBracket → Runs (.expression depth) i (.ok item) j →
      tokens[j]? = some ⟨pos, .closeBracket⟩ → Runs (.items depth) i (.ok [item]) (j + 1)
  | item {depth t item pos i j outcome k} :
      tokens[i]? = some t → t.item ≠ .closeBracket → Runs (.expression depth) i (.ok item) j →
      tokens[j]? = some ⟨pos, .comma⟩ → Runs (.items depth) (j + 1) outcome k →
      Runs (.items depth) i (outcome.map (item :: ·)) k
  | itemFails {depth t e i j} :
      tokens[i]? = some t → t.item ≠ .closeBracket → Runs (.expression depth) i (.error e) j →
      Runs (.items depth) i (.error e) j
  | itemSeparator {depth t item s i j} :
      tokens[i]? = some t → t.item ≠ .closeBracket → Runs (.expression depth) i (.ok item) j →
      tokens[j]? = some s → s.item ≠ .closeBracket → s.item ≠ .comma →
      Runs (.items depth) i (.error ⟨s.pos, .listSeparator s.item⟩) (behind j s)
  -- mappings
  | noEntry {depth pos i} :
      tokens[i]? = some ⟨pos, .closeBrace⟩ → Runs (.entries depth) i (.ok []) (i + 1)
  | lastEntry {depth t key value colon pos i j k} :
      tokens[i]? = some t → t.item ≠ .closeBrace → Runs (.expression depth) i (.ok key) j →
      tokens[j]? = some ⟨colon, .colon⟩ → Runs (.expression depth) (j + 1) (.ok value) k →
      tokens[k]? = some ⟨pos, .closeBrace⟩ →
      Runs (.entries depth) i (.ok [(key, value)]) (k + 1)
  | entry {depth t key value colon pos i j k outcome l} :
      tokens[i]? = some t → t.item ≠ .closeBrace → Runs (.expression depth) i (.ok key) j →
      tokens[j]? = some ⟨colon, .colon⟩ → Runs (.expression depth) (j + 1) (.ok value) k →
      tokens[k]? = some ⟨pos, .comma⟩ → Runs (.entries depth) (k + 1) outcome l →
      Runs (.entries depth) i (outcome.map ((key, value) :: ·)) l
  | keyFails {depth t e i j} :
      tokens[i]? = some t → t.item ≠ .closeBrace → Runs (.expression depth) i (.error e) j →
      Runs (.entries depth) i (.error e) j
  | missingColon {depth t key s i j} :
      tokens[i]? = some t → t.item ≠ .closeBrace → Runs (.expression depth) i (.ok key) j →
      tokens[j]? = some s → s.item ≠ .colon →
      Runs (.entries depth) i (.error ⟨s.pos, .missingColon s.item⟩) (behind j s)
  | valueFails {depth t key colon e i j k} :
      tokens[i]? = some t → t.item ≠ .closeBrace → Runs (.expression depth) i (.ok key) j →
      tokens[j]? = some ⟨colon, .colon⟩ → Runs (.expression depth) (j + 1) (.error e) k →
      Runs (.entries depth) i (.error e) k
  | entrySeparator {depth t key value colon s i j k} :
      tokens[i]? = some t → t.item ≠ .closeBrace → Runs (.expression depth) i (.ok key) j →
      tokens[j]? = some ⟨colon, .colon⟩ → Runs (.expression depth) (j + 1) (.ok value) k →
      tokens[k]? = some s → s.item ≠ .closeBrace → s.item ≠ .comma →
      Runs (.entries depth) i (.error ⟨s.pos, .entrySeparator s.item⟩) (behind k s)
  -- statements
  | noTarget {t i} :
      tokens[i]? = some t → (∀ name, t.item ≠ .name name) →
      Runs .statement i (.error ⟨t.pos, .expectedAssignment t.item⟩) (behind i t)
  | notAssigned {target pos t i} :
      tokens[i]? = some ⟨pos, .name target⟩ → tokens[i + 1]? = some t → t.item ≠ .assign →
      Runs .statement i (.error ⟨t.pos, .notAnAssignment target t.item⟩) (behind (i + 1) t)
  | assignedFails {target pos sign e i j} :
      tokens[i]? = some ⟨pos, .name target⟩ → tokens[i + 1]? = some ⟨sign, .assign⟩ →
      Runs (.expression 0) (i + 2) (.error e) j → Runs .statement i (.error e) j
  | assigned {target pos sign e t i j} :
      tokens[i]? = some ⟨pos, .name target⟩ → tokens[i + 1]? = some ⟨sign, .assign⟩ →
      Runs (.expression 0) (i + 2) (.ok e) j → tokens[j]? = some t → t.item.EndsStatement →
      Runs .statement i (.ok ⟨target, pos, e⟩) (behind j t)
  | unended {target pos sign e t i j} :
      tokens[i]? = some ⟨pos, .name target⟩ → tokens[i + 1]? = some ⟨sign, .assign⟩ →
      Runs (.expression 0) (i + 2) (.ok e) j → tokens[j]? = some t → ¬t.item.EndsStatement →
      Runs .statement i (.error ⟨t.pos, .unexpectedAfterValue target t.item⟩) j
  -- programs
  | stop {pos i} : tokens[i]? = some ⟨pos, .eof⟩ → Runs .statements i (.ok []) i
  | blank {t i outcome j} :
      tokens[i]? = some t → t.item.EndsStatement → t.item ≠ .eof →
      Runs .statements (i + 1) outcome j → Runs .statements i outcome j
  | statement {t s i j outcome k} :
      tokens[i]? = some t → ¬t.item.EndsStatement → Runs .statement i (.ok s) j →
      Runs .statements j outcome k → Runs .statements i (outcome.map (s :: ·)) k
  | statementFails {t e i j} :
      tokens[i]? = some t → ¬t.item.EndsStatement → Runs .statement i (.error e) j →
      Runs .statements i (.error e) j

end

variable {tokens : List Token} {call : Call} {i j stop : Nat}
  {outcome : Except SyntaxError call.Result}

/-! ### The cursor -/

/-- There is an end marker. -/
def Marked (tokens : List Token) (stop : Nat) : Prop :=
  ∃ t, tokens[stop]? = some t ∧ t.item = .eof

theorem le_behind (i : Nat) (t : Token) : i ≤ behind i t := by
  unfold behind
  split <;> omega

theorem Marked.lt {t : Token} (h : Marked tokens stop) (hi : i ≤ stop) (ht : tokens[i]? = some t)
    (hne : t.item ≠ .eof) : i < stop := by
  obtain ⟨s, hs, heof⟩ := h
  rcases Nat.lt_or_eq_of_le hi with hlt | rfl
  · exact hlt
  · obtain rfl : t = s := Option.some.inj (ht.symm.trans hs)
    exact absurd heof hne

theorem Marked.behind_le {t : Token} (h : Marked tokens stop) (hi : i ≤ stop)
    (ht : tokens[i]? = some t) : behind i t ≤ stop := by
  unfold behind
  split
  · exact hi
  · next hne => exact h.lt hi ht hne

theorem Marked.exists_token (h : Marked tokens stop) (hi : i ≤ stop) :
    ∃ t, tokens[i]? = some t := by
  obtain ⟨s, hs, -⟩ := h
  have hlen : stop < tokens.length := (List.getElem?_eq_some_iff.mp hs).1
  exact ⟨tokens[i], List.getElem?_eq_getElem (by omega)⟩

/-- The cursor never goes back. A call begins where the one before it in the rule ended, or behind
the token there. -/
theorem Runs.le (h : Runs tokens call i outcome j) : i ≤ j := by
  induction h with
  -- rules without calls
  | noLiteral | noSummand | stop => exact Nat.le_refl _
  | integer | constant | tooDeep | otherCall | reference | noItem | noEntry => exact Nat.le_succ _
  | varTooDeep => exact Nat.le_add_right _ 2
  | noValue | noTarget => exact le_behind _ _
  | notAssigned => exact Nat.le_of_succ_le (le_behind _ _)
  -- one call, from the cursor or from behind the tokens there
  | firstFails _ ih | tuple _ _ ih | insideFails _ ih | argumentFails _ ih | itemFails _ _ _ ih
  | keyFails _ _ _ ih | statementFails _ _ _ ih => exact ih
  | literal _ _ ih | strings _ _ ih | map _ _ _ ih | list _ _ _ ih | paren _ _ _ ih
  | summandFails _ _ ih | blank _ _ _ _ ih => exact Nat.le_of_succ_le ih
  | var _ _ _ _ ih | assignedFails _ _ _ ih | unended _ _ _ _ _ ih => exact Nat.le_of_add_right_le ih
  | assigned _ _ _ _ _ ih => exact (Nat.le_of_add_right_le ih).trans (le_behind _ _)
  | closed _ _ ih | argumentClosed _ _ ih | lastItem _ _ _ _ ih => exact Nat.le_succ_of_le ih
  | unclosed _ _ _ _ ih | argumentUnclosed _ _ _ ih | itemSeparator _ _ _ _ _ _ ih
  | missingColon _ _ _ _ _ ih => exact ih.trans (le_behind _ _)
  -- several calls in a row
  | sum _ _ ihfirst ihrest => exact ihfirst.trans ihrest
  | statement _ _ _ _ ih ihrest => exact ih.trans ihrest
  | summand _ _ _ ihoperand ihrest => exact (Nat.le_of_succ_le ihoperand).trans ihrest
  | item _ _ _ _ _ ih ihrest => exact ih.trans (Nat.le_of_succ_le ihrest)
  | lastEntry _ _ _ _ _ _ ihkey ihvalue =>
    exact Nat.le_succ_of_le (ihkey.trans (Nat.le_of_succ_le ihvalue))
  | valueFails _ _ _ _ _ ihkey ihvalue => exact ihkey.trans (Nat.le_of_succ_le ihvalue)
  | entrySeparator _ _ _ _ _ _ _ _ ihkey ihvalue =>
    exact (ihkey.trans (Nat.le_of_succ_le ihvalue)).trans (le_behind _ _)
  | entry _ _ _ _ _ _ _ ihkey ihvalue ihrest =>
    exact (ihkey.trans (Nat.le_of_succ_le ihvalue)).trans (Nat.le_of_succ_le ihrest)

/-- The cursor never goes behind an end marker: a rule takes a token that it knows to be another, or
it takes none. -/
theorem Runs.le_stop (h : Runs tokens call i outcome j) (hstop : Marked tokens stop)
    (hi : i ≤ stop) : j ≤ stop := by
  induction h with
  -- rules without calls
  | noLiteral | noSummand | stop => exact hi
  | integer ht | constant ht | otherCall ht | reference ht | noItem ht | noEntry ht =>
    exact hstop.lt hi ht (by simp)
  | tooDeep ht hopens => exact hstop.lt hi ht (Lexeme.Opens.ne_eof hopens)
  | varTooDeep ht hs => exact hstop.lt (hstop.lt hi ht (by simp)) hs (by simp)
  | noValue ht | noTarget ht => exact hstop.behind_le hi ht
  | notAssigned ht hs => exact hstop.behind_le (hstop.lt hi ht (by simp)) hs
  -- one call, from the cursor or from behind the tokens there
  | firstFails _ ih | tuple _ _ ih | insideFails _ ih | argumentFails _ ih | itemFails _ _ _ ih
  | keyFails _ _ _ ih | statementFails _ _ _ ih => exact ih hi
  | literal ht _ ih | strings ht _ ih | map ht _ _ ih | list ht _ _ ih | paren ht _ _ ih
  | summandFails ht _ ih => exact ih (hstop.lt hi ht (by simp))
  | blank ht _ hne _ ih => exact ih (hstop.lt hi ht hne)
  | var ht hs _ _ ih | assignedFails ht hs _ ih | unended ht hs _ _ _ ih =>
    exact ih (hstop.lt (hstop.lt hi ht (by simp)) hs (by simp))
  | assigned ht hs _ hu _ ih =>
    exact hstop.behind_le (ih (hstop.lt (hstop.lt hi ht (by simp)) hs (by simp))) hu
  | closed _ ht ih | argumentClosed _ ht ih | lastItem _ _ _ ht ih =>
    exact hstop.lt (ih hi) ht (by simp)
  | unclosed _ ht _ _ ih | argumentUnclosed _ ht _ ih | itemSeparator _ _ _ ht _ _ ih
  | missingColon _ _ _ ht _ ih => exact hstop.behind_le (ih hi) ht
  -- several calls in a row
  | sum _ _ ihfirst ihrest => exact ihrest (ihfirst hi)
  | statement _ _ _ _ ih ihrest => exact ihrest (ih hi)
  | summand ht _ _ ihoperand ihrest => exact ihrest (ihoperand (hstop.lt hi ht (by simp)))
  | item _ _ _ hs _ ih ihrest => exact ihrest (hstop.lt (ih hi) hs (by simp))
  | lastEntry _ _ _ hs _ hu ihkey ihvalue =>
    exact hstop.lt (ihvalue (hstop.lt (ihkey hi) hs (by simp))) hu (by simp)
  | valueFails _ _ _ hs _ ihkey ihvalue => exact ihvalue (hstop.lt (ihkey hi) hs (by simp))
  | entrySeparator _ _ _ hs _ hu _ _ ihkey ihvalue =>
    exact hstop.behind_le (ihvalue (hstop.lt (ihkey hi) hs (by simp))) hu
  | entry _ _ _ hs _ hu _ ihkey ihvalue ihrest =>
    exact ihrest (hstop.lt (ihvalue (hstop.lt (ihkey hi) hs (by simp))) hu (by simp))

/-- What a run looks at is not behind the end marker, so other tokens that are the same up to there
do as well. -/
theorem Runs.congr {tokens' : List Token} (h : Runs tokens call i outcome j)
    (hstop : Marked tokens stop) (hi : i ≤ stop)
    (hsame : ∀ k, k ≤ stop → tokens'[k]? = tokens[k]?) : Runs tokens' call i outcome j := by
  have same {k : Nat} {t : Token} (hk : k ≤ stop) (ht : tokens[k]? = some t) :
      tokens'[k]? = some t := (hsame k hk).trans ht
  induction h with
  -- literals
  | literal ht _ ih => exact .literal (same hi ht) (ih (hstop.lt hi ht (by simp)))
  | noLiteral ht hne => exact .noLiteral (same hi ht) hne
  -- operands
  | strings ht _ ih => exact .strings (same hi ht) (ih (hstop.lt hi ht (by simp)))
  | integer ht => exact .integer (same hi ht)
  | constant ht => exact .constant (same hi ht)
  | map ht hdepth _ ih => exact .map (same hi ht) hdepth (ih (hstop.lt hi ht (by simp)))
  | list ht hdepth _ ih => exact .list (same hi ht) hdepth (ih (hstop.lt hi ht (by simp)))
  | paren ht hdepth _ ih => exact .paren (same hi ht) hdepth (ih (hstop.lt hi ht (by simp)))
  | tooDeep ht hopens hdepth => exact .tooDeep (same hi ht) hopens hdepth
  | var ht hs hdepth _ ih =>
    have hnext := hstop.lt hi ht (by simp)
    exact .var (same hi ht) (same hnext hs) hdepth (ih (hstop.lt hnext hs (by simp)))
  | varTooDeep ht hs hdepth =>
    exact .varTooDeep (same hi ht) (same (hstop.lt hi ht (by simp)) hs) hdepth
  | otherCall ht hvar hother hs =>
    exact .otherCall (same hi ht) hvar hother (same (hstop.lt hi ht (by simp)) hs)
  | reference ht hother hs hne =>
    exact .reference (same hi ht) hother (same (hstop.lt hi ht (by simp)) hs) hne
  | noValue ht hne => exact .noValue (same hi ht) hne
  -- sums
  | sum hfirst _ ihfirst ihrest => exact .sum (ihfirst hi) (ihrest (hfirst.le_stop hstop hi))
  | firstFails _ ih => exact .firstFails (ih hi)
  | noSummand ht hne => exact .noSummand (same hi ht) hne
  | summand ht hoperand _ ihoperand ihrest =>
    have hnext := hstop.lt hi ht (by simp)
    exact .summand (same hi ht) (ihoperand hnext) (ihrest (hoperand.le_stop hstop hnext))
  | summandFails ht _ ih => exact .summandFails (same hi ht) (ih (hstop.lt hi ht (by simp)))
  -- round brackets
  | closed he ht ih => exact .closed (ih hi) (same (he.le_stop hstop hi) ht)
  | tuple he ht ih => exact .tuple (ih hi) (same (he.le_stop hstop hi) ht)
  | unclosed he ht hclose hcomma ih =>
    exact .unclosed (ih hi) (same (he.le_stop hstop hi) ht) hclose hcomma
  | insideFails _ ih => exact .insideFails (ih hi)
  | argumentClosed he ht ih => exact .argumentClosed (ih hi) (same (he.le_stop hstop hi) ht)
  | argumentUnclosed he ht hclose ih =>
    exact .argumentUnclosed (ih hi) (same (he.le_stop hstop hi) ht) hclose
  | argumentFails _ ih => exact .argumentFails (ih hi)
  -- lists
  | noItem ht => exact .noItem (same hi ht)
  | lastItem ht hne he hs ih =>
    exact .lastItem (same hi ht) hne (ih hi) (same (he.le_stop hstop hi) hs)
  | item ht hne he hs _ ih ihrest =>
    have hj := he.le_stop hstop hi
    exact .item (same hi ht) hne (ih hi) (same hj hs) (ihrest (hstop.lt hj hs (by simp)))
  | itemFails ht hne _ ih => exact .itemFails (same hi ht) hne (ih hi)
  | itemSeparator ht hne he hs hclose hcomma ih =>
    exact .itemSeparator (same hi ht) hne (ih hi) (same (he.le_stop hstop hi) hs) hclose hcomma
  -- mappings
  | noEntry ht => exact .noEntry (same hi ht)
  | lastEntry ht hne hkey hs hvalue hu ihkey ihvalue =>
    have hj := hkey.le_stop hstop hi
    have hnext := hstop.lt hj hs (by simp)
    exact .lastEntry (same hi ht) hne (ihkey hi) (same hj hs) (ihvalue hnext)
      (same (hvalue.le_stop hstop hnext) hu)
  | entry ht hne hkey hs hvalue hu _ ihkey ihvalue ihrest =>
    have hj := hkey.le_stop hstop hi
    have hnext := hstop.lt hj hs (by simp)
    have hk := hvalue.le_stop hstop hnext
    exact .entry (same hi ht) hne (ihkey hi) (same hj hs) (ihvalue hnext) (same hk hu)
      (ihrest (hstop.lt hk hu (by simp)))
  | keyFails ht hne _ ih => exact .keyFails (same hi ht) hne (ih hi)
  | missingColon ht hne hkey hs hcolon ih =>
    exact .missingColon (same hi ht) hne (ih hi) (same (hkey.le_stop hstop hi) hs) hcolon
  | valueFails ht hne hkey hs _ ihkey ihvalue =>
    have hj := hkey.le_stop hstop hi
    exact .valueFails (same hi ht) hne (ihkey hi) (same hj hs) (ihvalue (hstop.lt hj hs (by simp)))
  | entrySeparator ht hne hkey hs hvalue hu hclose hcomma ihkey ihvalue =>
    have hj := hkey.le_stop hstop hi
    have hnext := hstop.lt hj hs (by simp)
    exact .entrySeparator (same hi ht) hne (ihkey hi) (same hj hs) (ihvalue hnext)
      (same (hvalue.le_stop hstop hnext) hu) hclose hcomma
  -- statements
  | noTarget ht hname => exact .noTarget (same hi ht) hname
  | notAssigned ht hs hassign =>
    exact .notAssigned (same hi ht) (same (hstop.lt hi ht (by simp)) hs) hassign
  | assignedFails ht hs _ ih =>
    have hnext := hstop.lt hi ht (by simp)
    exact .assignedFails (same hi ht) (same hnext hs) (ih (hstop.lt hnext hs (by simp)))
  | assigned ht hs he hu hend ih =>
    have hnext := hstop.lt hi ht (by simp)
    have hvalue := hstop.lt hnext hs (by simp)
    exact .assigned (same hi ht) (same hnext hs) (ih hvalue) (same (he.le_stop hstop hvalue) hu)
      hend
  | unended ht hs he hu hend ih =>
    have hnext := hstop.lt hi ht (by simp)
    have hvalue := hstop.lt hnext hs (by simp)
    exact .unended (same hi ht) (same hnext hs) (ih hvalue) (same (he.le_stop hstop hvalue) hu) hend
  -- programs
  | stop ht => exact .stop (same hi ht)
  | blank ht hend hne _ ih => exact .blank (same hi ht) hend hne (ih (hstop.lt hi ht hne))
  | statement ht hend hs _ ih ihrest =>
    exact .statement (same hi ht) hend (ih hi) (ihrest (hs.le_stop hstop hi))
  | statementFails ht hend _ ih => exact .statementFails (same hi ht) hend (ih hi)

/-- An operand has a first token, and it is taken. -/
theorem Runs.lt_of_primary {depth : Nat} {e : Expr} (h : Runs tokens (.primary depth) i (.ok e) j) :
    i < j := by
  generalize hr : (Except.ok e : Except SyntaxError (Call.primary depth).Result) = outcome at h
  cases h with
  | strings _ hliterals => exact hliterals.le
  | integer | constant => exact Nat.lt_succ_self i
  | map _ _ hinside | list _ _ hinside | paren _ _ hinside => exact hinside.le
  | var _ _ _ hinside => exact Nat.lt_of_succ_lt hinside.le
  | _ => cases hr

theorem Runs.lt_of_expression {depth : Nat} {e : Expr}
    (h : Runs tokens (.expression depth) i (.ok e) j) : i < j := by
  generalize hr : (Except.ok e : Except SyntaxError (Call.expression depth).Result) = outcome at h
  cases h with
  | sum hfirst hrest => exact Nat.lt_of_lt_of_le hfirst.lt_of_primary hrest.le
  | firstFails => cases hr

theorem Runs.lt_of_statement {s : Statement} (h : Runs tokens .statement i (.ok s) j) : i < j := by
  generalize hr : (Except.ok s : Except SyntaxError Call.statement.Result) = outcome at h
  cases h with
  | @assigned _ _ _ _ t _ k _ _ hvalue =>
    have hle := hvalue.le
    have hend := le_behind k t
    omega
  | _ => cases hr

/-- The tokens at and behind the cursor leave no choice between the rules of a call, and calls in a
row end in one way each, so that the next begins at one place. -/
theorem Runs.unique {outcome' : Except SyntaxError call.Result} {j' : Nat}
    (h : Runs tokens call i outcome j) (h' : Runs tokens call i outcome' j') :
    outcome = outcome' ∧ j = j' := by
  induction h generalizing j' with
  -- there is another string, or none
  | literal | noLiteral => cases h' <;> grind
  -- the first token of an operand, how deep it is, and behind a name the token that follows
  | strings | integer | map | list | paren | tooDeep | noValue =>
    cases h' <;> grind [Lexeme.Opens, Lexeme.StartsValue]
  | constant | var | varTooDeep | otherCall | reference =>
    cases h' <;> grind [Lexeme.Opens, Lexeme.StartsValue, Grammar.Constant.word_ne_var,
      → Grammar.Constant.word_injective]
  -- whether the first operand is read, and whether there is a `+` behind it
  | sum | firstFails | noSummand | summand | summandFails => cases h' <;> grind
  -- whether the expression is read, and the token behind it
  | closed | tuple | unclosed | insideFails => cases h' <;> grind
  | argumentClosed | argumentUnclosed | argumentFails => cases h' <;> grind
  -- whether the list goes on, then the token behind the item
  | noItem | lastItem | item | itemFails | itemSeparator => cases h' <;> grind
  -- whether the mapping goes on, then the tokens behind the key and the value
  | noEntry | lastEntry | entry | keyFails | missingColon | valueFails | entrySeparator =>
    cases h' <;> grind
  -- the two tokens in front of the value and the one behind it
  | noTarget | notAssigned | assignedFails | assigned | unended => cases h' <;> grind
  -- whether the first token ends a statement, and all of them
  | stop | blank | statement | statementFails => cases h' <;> grind [Lexeme.EndsStatement]

/-! ### Every call ends -/

/-- A call with the cursor at `i` ends. -/
def Ends (tokens : List Token) (call : Call) (i : Nat) : Prop :=
  ∃ outcome j, Runs tokens call i outcome j

section

variable (hstop : Marked tokens stop) (hi : i ≤ stop)
  (later : ∀ call k, i < k → k ≤ stop → Ends tokens call k)

include hstop hi later

theorem ends_literals (text : String) : Ends tokens (.literals text) i := by
  obtain ⟨⟨pos, item⟩, ht⟩ := hstop.exists_token hi
  by_cases hstring : ∃ more, item = .string more
  · obtain ⟨more, rfl⟩ := hstring
    obtain ⟨outcome, j, h⟩ := later (.literals (text ++ more)) (i + 1) (Nat.lt_succ_self i)
      (hstop.lt hi ht (by simp))
    exact ⟨outcome, j, .literal ht h⟩
  · exact ⟨_, i, .noLiteral ht fun more hmore => hstring ⟨more, hmore⟩⟩

/-- A name is a constant, or what it is shows at the token behind it. -/
theorem ends_primary_name (depth : Nat) {word : String} {pos : Position}
    (ht : tokens[i]? = some ⟨pos, .name word⟩) : Ends tokens (.primary depth) i := by
  by_cases hconstant : ∃ c : Grammar.Constant, word = c.word
  · obtain ⟨c, rfl⟩ := hconstant
    exact ⟨_, _, .constant ht⟩
  have hother : ∀ c : Grammar.Constant, word ≠ c.word := fun c hc => hconstant ⟨c, hc⟩
  have hnext : i + 1 ≤ stop := hstop.lt hi ht (by simp)
  obtain ⟨⟨opening, item⟩, hs⟩ := hstop.exists_token hnext
  by_cases hparen : item = .openParen
  · subst hparen
    by_cases hvar : word = "Var"
    · subst hvar
      by_cases hdepth : depth < maxNesting
      · obtain ⟨outcome, j, h⟩ := later (.argument (depth + 1)) (i + 2) (by omega)
          (hstop.lt hnext hs (by simp))
        exact ⟨_, j, .var ht hs hdepth h⟩
      · exact ⟨_, _, .varTooDeep ht hs (Nat.not_lt.mp hdepth)⟩
    · exact ⟨_, _, .otherCall ht hvar hother hs⟩
  · exact ⟨_, _, .reference ht hother hs hparen⟩

theorem ends_primary (depth : Nat) : Ends tokens (.primary depth) i := by
  obtain ⟨⟨pos, item⟩, ht⟩ := hstop.exists_token hi
  -- what follows the first token of an operand has the cursor behind it
  have inside (call : Call) (hne : item ≠ .eof) : Ends tokens call (i + 1) :=
    later call (i + 1) (Nat.lt_succ_self i) (hstop.lt hi ht hne)
  have tooDeep (hopens : item.Opens) (hdepth : ¬depth < maxNesting) :
      Ends tokens (.primary depth) i :=
    ⟨_, _, .tooDeep ht hopens (Nat.not_lt.mp hdepth)⟩
  cases item with
  | string text =>
    obtain ⟨outcome, j, h⟩ := inside (.literals text) (by simp)
    exact ⟨_, j, .strings ht h⟩
  | integer n => exact ⟨_, _, .integer ht⟩
  | name word => exact ends_primary_name hstop hi later depth ht
  | openBrace =>
    by_cases hdepth : depth < maxNesting
    · obtain ⟨outcome, j, h⟩ := inside (.entries (depth + 1)) (by simp)
      exact ⟨_, j, .map ht hdepth h⟩
    · exact tooDeep (.inl rfl) hdepth
  | openBracket =>
    by_cases hdepth : depth < maxNesting
    · obtain ⟨outcome, j, h⟩ := inside (.items (depth + 1)) (by simp)
      exact ⟨_, j, .list ht hdepth h⟩
    · exact tooDeep (.inr (.inl rfl)) hdepth
  | openParen =>
    by_cases hdepth : depth < maxNesting
    · obtain ⟨outcome, j, h⟩ := inside (.parenthesized (depth + 1)) (by simp)
      exact ⟨_, j, .paren ht hdepth h⟩
    · exact tooDeep (.inr (.inr rfl)) hdepth
  | _ => exact ⟨_, _, .noValue ht nofun⟩

theorem ends_expression (depth : Nat) : Ends tokens (.expression depth) i := by
  obtain ⟨outcome, j, h⟩ := ends_primary hstop hi later depth
  cases outcome with
  | error e => exact ⟨_, j, .firstFails h⟩
  | ok first =>
    obtain ⟨outcome, k, hrest⟩ := later (.summands depth) j h.lt_of_primary (h.le_stop hstop hi)
    exact ⟨_, k, .sum h hrest⟩

theorem ends_summands (depth : Nat) : Ends tokens (.summands depth) i := by
  obtain ⟨⟨pos, item⟩, ht⟩ := hstop.exists_token hi
  by_cases hplus : item = .plus
  · subst hplus
    have hnext : i + 1 ≤ stop := hstop.lt hi ht (by simp)
    obtain ⟨outcome, j, h⟩ := later (.primary depth) (i + 1) (Nat.lt_succ_self i) hnext
    cases outcome with
    | error e => exact ⟨_, j, .summandFails ht h⟩
    | ok operand =>
      obtain ⟨outcome, k, hrest⟩ := later (.summands depth) j (Nat.lt_of_succ_le h.le)
        (h.le_stop hstop hnext)
      exact ⟨_, k, .summand ht h hrest⟩
  · exact ⟨_, i, .noSummand ht hplus⟩

theorem ends_parenthesized (depth : Nat) : Ends tokens (.parenthesized depth) i := by
  obtain ⟨outcome, j, h⟩ := ends_expression hstop hi later depth
  cases outcome with
  | error e => exact ⟨_, j, .insideFails h⟩
  | ok e =>
    obtain ⟨⟨pos, item⟩, ht⟩ := hstop.exists_token (h.le_stop hstop hi)
    cases item with
    | closeParen => exact ⟨_, _, .closed h ht⟩
    | comma => exact ⟨_, _, .tuple h ht⟩
    | _ => exact ⟨_, _, .unclosed h ht (by simp) (by simp)⟩

theorem ends_argument (depth : Nat) : Ends tokens (.argument depth) i := by
  obtain ⟨outcome, j, h⟩ := ends_expression hstop hi later depth
  cases outcome with
  | error e => exact ⟨_, j, .argumentFails h⟩
  | ok e =>
    obtain ⟨⟨pos, item⟩, ht⟩ := hstop.exists_token (h.le_stop hstop hi)
    cases item with
    | closeParen => exact ⟨_, _, .argumentClosed h ht⟩
    | _ => exact ⟨_, _, .argumentUnclosed h ht (by simp)⟩

theorem ends_items (depth : Nat) : Ends tokens (.items depth) i := by
  obtain ⟨⟨pos, item⟩, ht⟩ := hstop.exists_token hi
  by_cases hclose : item = .closeBracket
  · subst hclose
    exact ⟨_, _, .noItem ht⟩
  obtain ⟨outcome, j, h⟩ := ends_expression hstop hi later depth
  cases outcome with
  | error e => exact ⟨_, j, .itemFails ht hclose h⟩
  | ok e =>
    have hj : j ≤ stop := h.le_stop hstop hi
    obtain ⟨⟨at', separator⟩, hs⟩ := hstop.exists_token hj
    cases separator with
    | closeBracket => exact ⟨_, _, .lastItem ht hclose h hs⟩
    | comma =>
      obtain ⟨outcome, k, hrest⟩ := later (.items depth) (j + 1) (Nat.lt_succ_of_le h.le)
        (hstop.lt hj hs (by simp))
      exact ⟨_, k, .item ht hclose h hs hrest⟩
    | _ => exact ⟨_, _, .itemSeparator ht hclose h hs (by simp) (by simp)⟩

theorem ends_entries (depth : Nat) : Ends tokens (.entries depth) i := by
  obtain ⟨⟨pos, item⟩, ht⟩ := hstop.exists_token hi
  by_cases hclose : item = .closeBrace
  · subst hclose
    exact ⟨_, _, .noEntry ht⟩
  obtain ⟨outcome, j, hkey⟩ := ends_expression hstop hi later depth
  cases outcome with
  | error e => exact ⟨_, j, .keyFails ht hclose hkey⟩
  | ok key =>
    have hj : j ≤ stop := hkey.le_stop hstop hi
    obtain ⟨⟨at', item'⟩, hs⟩ := hstop.exists_token hj
    by_cases hcolon : item' = .colon
    · subst hcolon
      have hnext : j + 1 ≤ stop := hstop.lt hj hs (by simp)
      obtain ⟨outcome, k, hvalue⟩ := later (.expression depth) (j + 1) (Nat.lt_succ_of_le hkey.le)
        hnext
      cases outcome with
      | error e => exact ⟨_, k, .valueFails ht hclose hkey hs hvalue⟩
      | ok value =>
        have hk : k ≤ stop := hvalue.le_stop hstop hnext
        have hle : i ≤ k := Nat.le_trans hkey.le (Nat.le_of_succ_le hvalue.le)
        obtain ⟨⟨at'', separator⟩, hu⟩ := hstop.exists_token hk
        cases separator with
        | closeBrace => exact ⟨_, _, .lastEntry ht hclose hkey hs hvalue hu⟩
        | comma =>
          obtain ⟨outcome, l, hrest⟩ := later (.entries depth) (k + 1) (Nat.lt_succ_of_le hle)
            (hstop.lt hk hu (by simp))
          exact ⟨_, l, .entry ht hclose hkey hs hvalue hu hrest⟩
        | _ => exact ⟨_, _, .entrySeparator ht hclose hkey hs hvalue hu (by simp) (by simp)⟩
    · exact ⟨_, _, .missingColon ht hclose hkey hs hcolon⟩

theorem ends_statement : Ends tokens .statement i := by
  obtain ⟨⟨pos, item⟩, ht⟩ := hstop.exists_token hi
  by_cases hname : ∃ target, item = .name target
  · obtain ⟨target, rfl⟩ := hname
    have hnext : i + 1 ≤ stop := hstop.lt hi ht (by simp)
    obtain ⟨⟨sign, item⟩, hs⟩ := hstop.exists_token hnext
    by_cases hassign : item = .assign
    · subst hassign
      have hvalue : i + 2 ≤ stop := hstop.lt hnext hs (by simp)
      obtain ⟨outcome, j, h⟩ := later (.expression 0) (i + 2) (by omega) hvalue
      cases outcome with
      | error e => exact ⟨_, j, .assignedFails ht hs h⟩
      | ok e =>
        obtain ⟨u, hu⟩ := hstop.exists_token (h.le_stop hstop hvalue)
        by_cases hend : u.item.EndsStatement
        · exact ⟨_, _, .assigned ht hs h hu hend⟩
        · exact ⟨_, _, .unended ht hs h hu hend⟩
    · exact ⟨_, _, .notAssigned ht hs hassign⟩
  · exact ⟨_, _, .noTarget ht fun target htarget => hname ⟨target, htarget⟩⟩

theorem ends_statements : Ends tokens .statements i := by
  obtain ⟨t, ht⟩ := hstop.exists_token hi
  by_cases heof : t.item = .eof
  · obtain ⟨pos, item⟩ := t
    obtain rfl : item = .eof := heof
    exact ⟨_, i, .stop ht⟩
  by_cases hend : t.item.EndsStatement
  · obtain ⟨outcome, j, h⟩ := later .statements (i + 1) (Nat.lt_succ_self i) (hstop.lt hi ht heof)
    exact ⟨_, j, .blank ht hend heof h⟩
  obtain ⟨outcome, j, h⟩ := ends_statement hstop hi later
  cases outcome with
  | error e => exact ⟨_, j, .statementFails ht hend h⟩
  | ok s =>
    obtain ⟨outcome, k, hrest⟩ := later .statements j h.lt_of_statement (h.le_stop hstop hi)
    exact ⟨_, k, .statement ht hend h hrest⟩

end

/-- Every call ends, by the tokens that are left up to the end marker: where a call goes on with
another, it either has taken one or leaves the first step to a call of a lower rule. -/
theorem Marked.ends (hstop : Marked tokens stop) (hi : i ≤ stop) (call : Call) :
    Ends tokens call i := by
  induction hn : stop - i using Nat.strongRecOn generalizing i call with
  | ind n ih =>
    have later : ∀ call k, i < k → k ≤ stop → Ends tokens call k := fun call k hik hk =>
      ih (stop - k) (by omega) hk call rfl
    cases call with
    | literals text => exact ends_literals hstop hi later text
    | primary depth => exact ends_primary hstop hi later depth
    | expression depth => exact ends_expression hstop hi later depth
    | summands depth => exact ends_summands hstop hi later depth
    | parenthesized depth => exact ends_parenthesized hstop hi later depth
    | argument depth => exact ends_argument hstop hi later depth
    | items depth => exact ends_items hstop hi later depth
    | entries depth => exact ends_entries hstop hi later depth
    | statement => exact ends_statement hstop hi later
    | statements => exact ends_statements hstop hi later

end Descent

end PinnedDeps
