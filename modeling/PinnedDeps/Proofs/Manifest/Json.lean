import PinnedDeps.Proofs.Manifest
import PinnedDeps.Proofs.Json.Grammar
import PinnedDeps.Proofs.Token.Escapes

/-! What a manifest says as JSON. Its entries are read again as the references that it holds, and
these are what the JSON form says, whatever characters they have in them: an array of objects with
the location and the revision of each. So the form as JSON tells manifests apart. -/

namespace PinnedDeps

namespace Json

/-- A reference as a JSON object. -/
def Value.ofReference (r : Reference) : Value :=
  .object [("location", .text r.location), ("revision", .text r.revision)]

theorem Value.ofReference_injective : Function.Injective Value.ofReference := by
  rintro ⟨location, revision⟩ ⟨location', revision'⟩ h
  simpa [Value.ofReference] using h

/-! ### Texts in quotes -/

theorem codes_control {n : Nat} (h : n < 0x20) :
    Codes ['0', '0', Nat.digitChar (n / 16), Nat.digitChar (n % 16)] n := by
  have hdigit {d : Nat} (hd : d < 16) : Escape.hexDigit? (Nat.digitChar d) = some d :=
    Spelling.hexDigit?_of_isHexDigit hd (.inl rfl)
  refine ⟨rfl, [0, 0, n / 16, n % 16], ?_, ?_⟩
  · have hzero : Escape.hexDigit? '0' = some 0 := by decide
    simp only [List.map_cons, List.map_nil, hzero, hdigit (by omega : n / 16 < 16),
      hdigit (by omega : n % 16 < 16)]
  · show n = (((0 * 16 + 0) * 16 + 0) * 16 + n / 16) * 16 + n % 16
    omega

theorem spells_escape (c : Char) : Spells (escape c) c := by
  unfold escape
  split
  case h_8 c hquote hslash _ _ _ _ _ =>
    split
    · next hcontrol => exact .code (codes_control hcontrol)
    · next hcontrol => exact .plain (Nat.not_lt.mp hcontrol) hquote hslash
  all_goals exact .letter (by decide)

theorem readsText_escape (text rest : List Char) :
    ReadsText (text.flatMap escape ++ '"' :: rest) text rest := by
  induction text with
  | nil => exact .close rest
  | cons c text ih =>
    rw [List.flatMap_cons, List.append_assoc]
    exact .char (spells_escape c) ih

theorem toList_quote_append (text : String) (rest : List Char) :
    (quote text).toList ++ rest = '"' :: (text.toList.flatMap escape ++ '"' :: rest) := by
  simp [quote]

theorem reads_quote (text : String) (rest : List Char) :
    Reads ((quote text).toList ++ rest) (.text text) rest := by
  rw [toList_quote_append]
  have hreads : Reads _ (.text (String.ofList text.toList)) rest :=
    .text (readsText_escape text.toList rest)
  rwa [String.ofList_toList] at hreads

/-! ### Objects -/

theorem skip_quote_append (text : String) (rest : List Char) :
    skip ((quote text).toList ++ rest) = (quote text).toList ++ rest := by
  rw [toList_quote_append]
  exact skip_cons (by decide) _

/-- A member as it is written: blanks, a name, a colon and a blank, and a text. -/
theorem readsMember_text {blanks : List Char} (h : ∀ c ∈ blanks, isBlank c = true)
    (name text : String) (rest : List Char) :
    ReadsMember (blanks ++ ((quote name).toList ++ ':' :: ' ' :: ((quote text).toList ++ rest)))
      (name, .text text) rest := by
  have hname : skip (blanks ++ ((quote name).toList ++ ':' :: ' ' :: ((quote text).toList ++ rest)))
      = '"' :: (name.toList.flatMap escape ++
          '"' :: ':' :: ' ' :: ((quote text).toList ++ rest)) := by
    rw [skip_append h, skip_quote_append, toList_quote_append]
  have hvalue : Reads (skip (' ' :: ((quote text).toList ++ rest))) (.text text) rest := by
    rw [skip_blank rfl, skip_quote_append]
    exact reads_quote text rest
  have hmember := ReadsMember.mk hname (readsText_escape name.toList _) (skip_cons rfl _) hvalue
  rwa [String.ofList_toList] at hmember

theorem toList_object_append (r : Reference) (rest : List Char) :
    (object r).toList ++ rest = ' ' :: ' ' :: '\x7b' :: ("\n    ".toList ++
      ((quote "location").toList ++ ':' :: ' ' :: ((quote r.location).toList ++
        ',' :: ("\n    ".toList ++ ((quote "revision").toList ++ ':' :: ' ' ::
          ((quote r.revision).toList ++ '\n' :: ' ' :: ' ' :: '\x7d' :: rest)))))) := by
  have hlocation : (quote "location").toList = "\"location\"".toList := by simp [quote, escape]
  have hrevision : (quote "revision").toList = "\"revision\"".toList := by simp [quote, escape]
  unfold object
  rw [hlocation, hrevision]
  simp

/-- An object as it is written, on lines of its own. -/
theorem reads_object (r : Reference) (rest : List Char) :
    Reads (skip ('\n' :: ((object r).toList ++ rest))) (.ofReference r) rest := by
  have hblanks : ∀ c ∈ "\n    ".toList, isBlank c = true := by simp [isBlank]
  have hclose : skip ('\n' :: ' ' :: ' ' :: '\x7d' :: rest) = '\x7d' :: rest := rfl
  rw [toList_object_append, skip_blank rfl, skip_blank rfl, skip_blank rfl, skip_cons rfl]
  apply Reads.object
  apply ReadsMembers.more (readsMember_text hblanks "location" r.location _) (skip_cons rfl _)
  exact ReadsMembers.last (readsMember_text hblanks "revision" r.revision _) hclose

/-! ### The array -/

/-- The objects behind the opening bracket, each on lines of its own. -/
theorem readsItems_objects (r : Reference) (references : List Reference) :
    ReadsItems ('\n' :: ([',', '\n'].intercalate ((r :: references).map fun r => (object r).toList)
      ++ ['\n', ']'])) ((r :: references).map .ofReference) [] := by
  induction references generalizing r with
  | nil =>
    have hclose : skip ['\n', ']'] = [']'] := rfl
    rw [List.map_cons, List.map_nil, List.intercalate_singleton]
    exact .last (reads_object r _) hclose
  | cons next references ih =>
    rw [List.map_cons, List.map_cons, List.intercalate_cons_cons, List.append_assoc,
      List.append_assoc]
    apply ReadsItems.more (reads_object r _) (skip_cons rfl _)
    exact ih next

theorem says_array (references : List Reference) :
    Says (array references) (.array (references.map .ofReference)) := by
  cases references with
  | nil => exact ⟨[], .emptyArray rfl, rfl⟩
  | cons r references =>
    refine ⟨[], ?_, rfl⟩
    have htext : (array (r :: references)).toList = '[' :: '\n' ::
        ([',', '\n'].intercalate ((r :: references).map fun r => (object r).toList)
          ++ ['\n', ']']) := by
      simp [array, String.toList_intercalate, Function.comp_def]
    rw [htext, skip_cons rfl]
    exact .array (readsItems_objects r references)

theorem says_array_iff {references : List Reference} {value : Value} :
    Says (array references) value ↔ value = .array (references.map .ofReference) := by
  constructor
  · intro h
    exact h.unique (says_array references)
  · rintro rfl
    exact says_array references

theorem array_injective : Function.Injective array := by
  intro references references' h
  have hreads : Says (array references') (.array (references.map .ofReference)) :=
    h ▸ says_array references
  have hvalues := Value.array.inj (says_array_iff.mp hreads)
  exact List.map_injective_iff.mpr Value.ofReference_injective hvalues

end Json

namespace Manifest

variable {entries : List String} {m : Manifest}

/-- The entries of a manifest are read as references, one for each, that are shown as the entries.
As JSON the manifest says these references and nothing else, so a manifest with the same form as
JSON is the same. -/
theorem json_says_references (h : ofEntries entries = .ok m) :
    ∃ references, m.entries.mapM Reference.parse = .ok references ∧
      references.length = m.entries.length ∧
      (∀ i : Nat, references[i]?.map Reference.text = m.entries[i]?) ∧
      m.render .json = Json.array references ∧
      (∀ value, Json.Says (m.render .json) value ↔ value = .array (references.map .ofReference)) ∧
      ∀ other m', ofEntries other = .ok m' → m'.render .json = m.render .json → m' = m := by
  refine ⟨m.references, mapM_parse_entries h, ?_, ?_, rfl, fun _ => Json.says_array_iff, ?_⟩
  · rw [Manifest.entries, List.length_map]
  · intro i
    rw [Manifest.entries, List.getElem?_map]
  · intro other m' _ hjson
    have hreferences : m'.references = m.references := Json.array_injective hjson
    cases m
    cases m'
    exact congrArg Manifest.mk hreferences

/-- Quotes, backslashes, control characters and characters of more than one byte are told as they
are. -/
theorem json_says_references_escaped :
    let m : Manifest := ⟨[⟨"a\"\\/\t", "\x01\x1f\x7f"⟩, ⟨"é@", "\n🦀"⟩]⟩
    ofEntries ["é@@\n🦀", "a\"\\/\t@\x01\x1f\x7f"] = .ok m ∧
      m.render .json = "[\n"
        ++ "  \x7b\n    \"location\": \"a\\\"\\\\/\\t\",\n"
        ++ "    \"revision\": \"\\u0001\\u001f\x7f\"\n  \x7d,\n"
        ++ "  \x7b\n    \"location\": \"é@\",\n    \"revision\": \"\\n🦀\"\n  \x7d\n]" ∧
      Json.Says (m.render .json) (.array (m.references.map .ofReference)) ∧
      m.entries.mapM Reference.parse = .ok m.references := by
  intro m
  have hm : ofEntries ["é@@\n🦀", "a\"\\/\t@\x01\x1f\x7f"] = .ok m := by
    have hr : ["é@@\n🦀", "a\"\\/\t@\x01\x1f\x7f"].mapM Reference.parse =
        .ok [⟨"é@", "\n🦀"⟩, ⟨"a\"\\/\t", "\x01\x1f\x7f"⟩] := by decide +kernel
    rw [ofEntries, hr]
    show Except.ok (Manifest.mk _) = _
    simp [m, List.mergeSort, List.MergeSort.Internal.splitInTwo, Reference.text]
  obtain ⟨references, hread, -, -, -, hreads, -⟩ := json_says_references hm
  obtain rfl : references = m.references :=
    Except.ok.inj (hread.symm.trans (mapM_parse_entries hm))
  exact ⟨hm, by decide +kernel, (hreads _).mpr rfl, hread⟩

end Manifest

end PinnedDeps
