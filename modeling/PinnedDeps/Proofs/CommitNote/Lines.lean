import PinnedDeps.Proofs.CommitNote
import PinnedDeps.Proofs.Flatten.Contents
import PinnedDeps.Proofs.Text.Lines

/-! Which commit a document names. The line that the note tells is missing, or is there and names
no commit, or names one; every document is in exactly one of the three cases. How its lines are
ended has no part in that. -/

namespace PinnedDeps.CommitNote

open Storage Machine

/-! ### The line -/

/-- The text stands in the line between the first `[` and the last `]`. -/
def Spans (line inside : List Char) : Prop :=
  ∃ front back, Encloses line front inside back ∧ '[' ∉ front ∧ ']' ∉ back

/-- No `[` stands in front of a `]`, or the last `]` stands directly behind the first `[`. -/
def NamesNone (line : List Char) : Prop := ¬HasSpan line ∨ Spans line []

/-- A text that is not empty stands between the first `[` and the last `]`. -/
def Names (line : List Char) (commit : String) : Prop := Spans line commit.toList ∧ commit ≠ ""

/-- What a note makes of a document with these lines. -/
inductive Gives (note : CommitNote) (found : List (List Char)) : Except Failure String → Prop
  | missing : found.length ≤ note.line →
      Gives note found (.error (.lineOutOfRange note.document.text note.line found.length))
  | unnamed {line : List Char} : found[note.line]? = some line → NamesNone line →
      Gives note found (.error (.noCommit note.document.text note.line))
  | named {line : List Char} {commit : String} : found[note.line]? = some line →
      Names line commit → Gives note found (.ok commit)

variable {note : CommitNote} {contents commit : String} {line : List Char}
  {found : List (List Char)}

theorem namesNone_or_names (line : List Char) : NamesNone line ∨ ∃ commit, Names line commit := by
  cases hspan : widestSpan line with
  | none => exact .inl (.inl (widestSpan_eq_none_iff.mp hspan))
  | some inside =>
    have hspan : Spans line inside := widestSpan_eq_some_iff.mp hspan
    by_cases hne : inside = []
    · exact .inl (.inr (hne ▸ hspan))
    · refine .inr ⟨String.ofList inside, ?_, ?_⟩
      · rwa [String.toList_ofList]
      · rwa [Ne, String.ofList_eq_empty_iff]

/-! ### The three cases -/

theorem commitIn_of_missing (h : (Text.lines contents.toList)[note.line]? = none) :
    note.commitIn contents = .error
      (.lineOutOfRange note.document.text note.line (Text.lines contents.toList).length) := by
  unfold commitIn
  simp only [h]

/-- A line has no line feed in it, so all that is in brackets there is its widest span. -/
theorem bracketed_of_line (h : (Text.lines contents.toList)[note.line]? = some line) :
    bracketed line = widestSpan line := by
  have hline : '\n' ∉ line := (Text.lined_lines _).not_mem line (List.mem_of_getElem? h)
  rw [bracketed_eq, List.splitOn_eq_singleton hline, List.findSome?_singleton]

theorem commitIn_of_namesNone (h : (Text.lines contents.toList)[note.line]? = some line)
    (hnone : NamesNone line) :
    note.commitIn contents = .error (.noCommit note.document.text note.line) := by
  unfold commitIn
  simp only [h, bracketed_of_line h]
  rcases hnone with hnone | hspan
  · rw [widestSpan_eq_none_iff.mpr hnone]
  · rw [widestSpan_eq_some_iff.mpr hspan]

theorem commitIn_of_names (h : (Text.lines contents.toList)[note.line]? = some line)
    (hnames : Names line commit) : note.commitIn contents = .ok commit := by
  obtain ⟨hspan, hne⟩ := hnames
  unfold commitIn
  simp only [h, bracketed_of_line h, widestSpan_eq_some_iff.mpr hspan]
  split
  · next heq => cases heq
  · next heq => exact absurd (String.toList_eq_nil_iff.mp (Option.some.inj heq)) hne
  · next heq => rw [← Option.some.inj heq, String.ofList_toList]

theorem gives_commitIn (note : CommitNote) (contents : String) :
    Gives note (Text.lines contents.toList) (note.commitIn contents) := by
  cases h : (Text.lines contents.toList)[note.line]? with
  | none =>
    rw [commitIn_of_missing h]
    exact .missing (List.getElem?_eq_none_iff.mp h)
  | some line =>
    rcases namesNone_or_names line with hnone | ⟨commit, hnames⟩
    · rw [commitIn_of_namesNone h hnone]
      exact .unnamed h hnone
    · rw [commitIn_of_names h hnames]
      exact .named h hnames

theorem commitIn_eq_iff {result : Except Failure String} (h : Text.Lined contents.toList found) :
    note.commitIn contents = result ↔ Gives note found result := by
  rw [h.eq_lines]
  constructor
  · rintro rfl
    exact gives_commitIn note contents
  · intro hgives
    cases hgives with
    | missing hle => exact commitIn_of_missing (List.getElem?_eq_none hle)
    | unnamed hline hnone => exact commitIn_of_namesNone hline hnone
    | named hline hnames => exact commitIn_of_names hline hnames

/-! ### What each case tells of the lines -/

theorem gives_lineOutOfRange_iff {count : Nat} :
    Gives note found (.error (.lineOutOfRange note.document.text note.line count)) ↔
      found.length ≤ note.line ∧ count = found.length := by
  constructor
  · intro h
    cases h with
    | missing hle => exact ⟨hle, rfl⟩
  · rintro ⟨hle, rfl⟩
    exact .missing hle

theorem gives_noCommit_iff :
    Gives note found (.error (.noCommit note.document.text note.line)) ↔
      ∃ line, found[note.line]? = some line ∧ NamesNone line := by
  constructor
  · intro h
    cases h with
    | unnamed hline hnone => exact ⟨_, hline, hnone⟩
  · rintro ⟨line, hline, hnone⟩
    exact .unnamed hline hnone

theorem gives_ok_iff :
    Gives note found (.ok commit) ↔ ∃ line, found[note.line]? = some line ∧ Names line commit := by
  constructor
  · intro h
    cases h with
    | named hline hnames => exact ⟨_, hline, hnames⟩
  · rintro ⟨line, hline, hnames⟩
    exact .named hline hnames

theorem Gives.failure_cases {failure : Failure} (h : Gives note found (.error failure)) :
    failure = .lineOutOfRange note.document.text note.line found.length ∨
      failure = .noCommit note.document.text note.line := by
  cases h with
  | missing => exact .inl rfl
  | unnamed => exact .inr rfl

/-! ### Other endings -/

/-- Documents with the same lines name the same commit. -/
theorem commitIn_congr {other : String} (h : Text.Lined contents.toList found)
    (hother : Text.Lined other.toList found) (note : CommitNote) :
    note.commitIn contents = note.commitIn other := by
  apply (commitIn_eq_iff h).mpr
  exact (commitIn_eq_iff hother).mp rfl

/-- To end the last line of a document leaves its lines what they were. -/
theorem lined_append {c : Char} {ending : String}
    (h : Text.Lined contents.toList found) (hreturn : '\r' ∉ contents.toList)
    (hlast : contents.toList.getLast? = some c) (hc : c ≠ '\n')
    (hending : Text.IsEnding ending.toList) :
    Text.Lined (contents ++ ending).toList found ∧
      Text.Lined (Text.withReturns contents ++ ending).toList found := by
  have hkept : c ≠ '\r' := fun h => hreturn (h ▸ List.mem_of_getLast? hlast)
  rw [String.toList_append, String.toList_append]
  refine ⟨h.append_ending hlast hc hkept hending, ?_⟩
  rw [← Text.getLast?_withReturns] at hlast
  exact (h.withReturns hreturn).append_ending hlast hc hkept hending

/-! ### The commit -/

theorem perform_commit {machine : Machine}
    (h : machine.disk.read note.document = .ok contents.toUTF8) :
    (perform note.commit machine).1 = note.commitIn contents := by
  rw [(Looks.commit note).fst_perform, commitOn, Disk.text_eq_ok_iff.mpr h]
  rfl

/-- The line of the document decides what the note gives: the number of lines if there is no such
line, that no commit is named, or the commit. Each holds exactly when it should, and nothing else
is given. Without carriage returns in the lines it makes no difference which endings they have, nor
whether the last one is ended. -/
theorem commit_decided_by_line (note : CommitNote) (contents : String) :
    (∀ machine : Machine, machine.disk.read note.document = .ok contents.toUTF8 →
        (perform note.commit machine).1 = note.commitIn contents) ∧
      (∃! found, Text.Lined contents.toList found) ∧
      (∀ found, Text.Lined contents.toList found →
        (∀ count, note.commitIn contents =
            .error (.lineOutOfRange note.document.text note.line count) ↔
          found.length ≤ note.line ∧ count = found.length) ∧
        (note.commitIn contents = .error (.noCommit note.document.text note.line) ↔
          ∃ line, found[note.line]? = some line ∧ NamesNone line) ∧
        (∀ commit, note.commitIn contents = .ok commit ↔
          ∃ line, found[note.line]? = some line ∧ Names line commit) ∧
        ∀ failure, note.commitIn contents = .error failure →
          failure = .lineOutOfRange note.document.text note.line found.length ∨
            failure = .noCommit note.document.text note.line) ∧
      ('\r' ∉ contents.toList →
        note.commitIn (Text.withReturns contents) = note.commitIn contents ∧
        ∀ c ending, contents.toList.getLast? = some c → c ≠ '\n' →
          Text.IsEnding ending.toList →
            note.commitIn (contents ++ ending) = note.commitIn contents ∧
            note.commitIn (Text.withReturns contents ++ ending) = note.commitIn contents) := by
  refine ⟨fun _ => perform_commit, Text.existsUnique_lined _, fun found hfound => ?_,
    fun hreturn => ⟨?_, fun c ending hlast hc hending => ?_⟩⟩
  · simp only [commitIn_eq_iff hfound]
    exact ⟨fun _ => gives_lineOutOfRange_iff, gives_noCommit_iff, fun _ => gives_ok_iff,
      fun _ => Gives.failure_cases⟩
  · have hlined := Text.lined_lines contents.toList
    exact commitIn_congr (hlined.withReturns hreturn) hlined note
  · have hlined := Text.lined_lines contents.toList
    obtain ⟨hended, hreturned⟩ := lined_append hlined hreturn hlast hc hending
    exact ⟨commitIn_congr hended hlined note, commitIn_congr hreturned hlined note⟩

theorem commit_decided_by_line_smallCheckout :
    let note := (Settings.under ⟨"/"⟩).note
    let contents := "\n\n\n\n[c]"
    Flatten.smallCheckout.disk.read note.document = .ok (contents ++ "\n").toUTF8 ∧
      '\r' ∉ contents.toList ∧ contents.toList.getLast? = some ']' ∧
      Text.Lined contents.toList [[], [], [], [], "[c]".toList] ∧ Names "[c]".toList "c" ∧
      (perform note.commit Flatten.smallCheckout).1 = .ok "c" ∧
      note.commitIn (Text.withReturns contents ++ "\r\n") = .ok "c" := by
  intro note contents
  have hread : Flatten.smallCheckout.disk.read note.document = .ok (contents ++ "\n").toUTF8 := by
    decide +kernel
  have hreturn : '\r' ∉ contents.toList := by decide
  have hlast : contents.toList.getLast? = some ']' := by decide
  have hlines : Text.lines contents.toList = [[], [], [], [], "[c]".toList] := by decide
  have hlined : Text.Lined contents.toList [[], [], [], [], "[c]".toList] :=
    hlines ▸ Text.lined_lines contents.toList
  have hnames : Names "[c]".toList "c" := ⟨⟨[], [], rfl, by decide, by decide⟩, by decide⟩
  obtain ⟨-, -, hcases, hendings⟩ := commit_decided_by_line note contents
  obtain ⟨-, -, hnamed, -⟩ := hcases _ hlined
  have hcommit : note.commitIn contents = .ok "c" := (hnamed "c").mpr ⟨_, rfl, hnames⟩
  obtain ⟨-, hended⟩ := hendings hreturn
  refine ⟨hread, hreturn, hlast, hlined, hnames, ?_, ?_⟩
  · rw [(commit_decided_by_line note _).1 Flatten.smallCheckout hread,
      (hended ']' "\n" hlast (by decide) (.inl rfl)).1, hcommit]
  · rw [(hended ']' "\r\n" hlast (by decide) (.inr rfl)).2, hcommit]

end PinnedDeps.CommitNote
