import PinnedDeps.CommandLine
import PinnedDeps.Proofs.Path

/-! Where a run looks for its files. Given paths are seen from the working directory and the usual
ones from the checkout root, so from a working directory that is absolute they all become absolute.
Options in which every path starts at the root mean the same in every working directory. -/

namespace PinnedDeps

/-- The paths of a run: of the checkout, of the two files that it reads and of the one it writes. -/
def Settings.paths (s : Settings) : List Path := [s.root, s.deps, s.note.document, s.output]

namespace Options

variable {o : Options} {cwd cwd' : Path}

/-- The options with every path as seen from the working directory, which is itself the checkout
root if none is given. -/
def fromRoot (o : Options) (cwd : Path) : Options :=
  { o with
    deps := o.deps.map cwd.resolveAgainst
    output := o.output.map cwd.resolveAgainst
    root := some ((o.root.map cwd.resolveAgainst).getD cwd) }

/-! ### Each path -/

theorem root_settings (o : Options) (cwd : Path) :
    (o.settings cwd).root = (o.root.map cwd.resolveAgainst).getD cwd := rfl

theorem deps_settings (o : Options) (cwd : Path) :
    (o.settings cwd).deps =
      (o.deps.map cwd.resolveAgainst).getD ((o.settings cwd).root.join ⟨"DEPS"⟩) := rfl

theorem output_settings (o : Options) (cwd : Path) :
    (o.settings cwd).output =
      (o.output.map cwd.resolveAgainst).getD ((o.settings cwd).root.join ⟨"deps_flatten.txt"⟩) :=
  rfl

/-- A path that is given, or else the usual one, is absolute if the usual one is. -/
theorem isAbsolute_getD (h : cwd.isAbsolute = true) {usual : Path}
    (hu : usual.isAbsolute = true) (given : Option Path) :
    ((given.map cwd.resolveAgainst).getD usual).isAbsolute = true := by
  cases given with
  | none => exact hu
  | some p => exact Path.isAbsolute_resolveAgainst h p

theorem isAbsolute_root (h : cwd.isAbsolute = true) (o : Options) :
    (o.settings cwd).root.isAbsolute = true := by
  rw [root_settings]
  exact isAbsolute_getD h h o.root

theorem isAbsolute_of_mem_paths (h : cwd.isAbsolute = true) :
    ∀ p ∈ (o.settings cwd).paths, p.isAbsolute = true := by
  have husual (name : Path) : ((o.settings cwd).root.join name).isAbsolute = true :=
    Path.isAbsolute_join_of_isAbsolute (isAbsolute_root h o) name
  have hdeps : (o.settings cwd).deps.isAbsolute = true := by
    rw [deps_settings]
    exact isAbsolute_getD h (husual _) o.deps
  have houtput : (o.settings cwd).output.isAbsolute = true := by
    rw [output_settings]
    exact isAbsolute_getD h (husual _) o.output
  simp only [Settings.paths, List.forall_mem_cons]
  exact ⟨isAbsolute_root h o, hdeps, husual _, houtput, nofun⟩

/-! ### All paths -/

/-- Seen from anywhere, a path that was seen from an absolute directory stays what it is. -/
theorem map_resolveAgainst_twice (h : cwd.isAbsolute = true) (cwd' : Path) (given : Option Path) :
    (given.map cwd.resolveAgainst).map cwd'.resolveAgainst = given.map cwd.resolveAgainst := by
  rw [Option.map_map]
  apply Option.map_congr
  intro p _
  exact Path.resolveAgainst_of_isAbsolute (Path.isAbsolute_resolveAgainst h p) cwd'

theorem settings_fromRoot (h : cwd.isAbsolute = true) (cwd' : Path) :
    (o.fromRoot cwd).settings cwd' = o.settings cwd := by
  have hroot : ((o.fromRoot cwd).root.map cwd'.resolveAgainst).getD cwd' =
      (o.root.map cwd.resolveAgainst).getD cwd :=
    Path.resolveAgainst_of_isAbsolute (isAbsolute_root h o) cwd'
  unfold settings
  rw [hroot]
  simp only [fromRoot, map_resolveAgainst_twice h]

/-- Seen from an absolute working directory, all paths of a run are absolute. With every path
written out from there the options lead to the same run from every working directory. Another
checkout root moves only the paths that are not given, and the document beside the sources. -/
theorem settings_absolute_and_stable (o : Options) (h : cwd.isAbsolute = true) :
    (∀ p ∈ (o.settings cwd).paths, p.isAbsolute = true) ∧
    (∀ cwd' : Path, (o.fromRoot cwd).settings cwd' = o.settings cwd) ∧
    ∀ root : Option Path,
      let s := o.settings cwd
      let s' := { o with root := root }.settings cwd
      s' = { s with
        root := s'.root
        deps := if o.deps.isSome then s.deps else s'.root.join ⟨"DEPS"⟩
        output := if o.output.isSome then s.output else s'.root.join ⟨"deps_flatten.txt"⟩ } ∧
      s'.note = { s.note with
        document := s'.root.join ⟨"third_party/accessibility/README.md"⟩ } := by
  refine ⟨isAbsolute_of_mem_paths h, settings_fromRoot h, fun root => ⟨?_, rfl⟩⟩
  cases hdeps : o.deps <;> cases houtput : o.output <;>
    simp [settings, Settings.under, hdeps, houtput]

/-- A checkout root and a DEPS file seen from the working directory, and an output that is absolute,
the same seen from the root directory, and the paths of another checkout. -/
theorem settings_absolute_and_stable_mixed :
    let o : Options :=
      { deps := some ⟨"ci/DEPS"⟩, output := some ⟨"/tmp/out"⟩, root := some ⟨"engine"⟩ }
    let cwd : Path := ⟨"/home"⟩
    cwd.isAbsolute = true ∧ (∀ p ∈ (o.settings cwd).paths, p.isAbsolute = true) ∧
      (o.fromRoot cwd).settings ⟨"/"⟩ = o.settings cwd ∧
      (o.settings cwd).paths = [⟨"/home/engine"⟩, ⟨"/home/ci/DEPS"⟩,
        ⟨"/home/engine/third_party/accessibility/README.md"⟩, ⟨"/tmp/out"⟩] ∧
      ({ o with root := some ⟨"../b"⟩ }.settings cwd).paths = [⟨"/home/../b"⟩, ⟨"/home/ci/DEPS"⟩,
        ⟨"/home/../b/third_party/accessibility/README.md"⟩, ⟨"/tmp/out"⟩] := by
  intro o cwd
  have h : cwd.isAbsolute = true := by decide
  obtain ⟨hpaths, hstable, -⟩ := settings_absolute_and_stable o h
  exact ⟨h, hpaths, hstable ⟨"/"⟩, by decide, by decide⟩

end Options

end PinnedDeps
