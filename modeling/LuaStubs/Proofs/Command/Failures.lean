import LuaStubs.Proofs.Command.FileTree
import LuaStubs.Proofs.Command.Inputs

namespace LuaStubs

namespace Run

/--
What stands in the way of a run on files: there is no output directory and none can be made, an
input is neither there nor a pattern, an input is a directory that may not be read, or one of the
files that the run has to read may not be read or is no text. Inputs are looked for once the output
directory is there.
-/
inductive Obstacle (expand : Expansion) (o : Options) (t : FileTree) : Prop
  | noOutput (h : o.output = none)
  | badOutput {output : Text} {left : FileTree} {e : OsError} (hout : o.output = some output)
      (h : t.ensurePath output = .error (left, e))
  | badPattern {output input cause : Text} {made : FileTree} (hout : o.output = some output)
      (hmade : t.ensurePath output = .ok made) (hmem : input ∈ o.inputs)
      (hnothing : made.get? input = none) (h : expand input = .error cause)
  | notListed {output input : Text} {made : FileTree} (hout : o.output = some output)
      (hmade : t.ensurePath output = .ok made) (hmem : input ∈ o.inputs)
      (h : made.get? input = some (.directory false))
  | notText {output path : Text} {made : FileTree} {paths : List Text}
      (hout : o.output = some output) (hmade : t.ensurePath output = .ok made)
      (hpaths : (resolve expand made o.inputs).result = .ok paths) (hmem : path ∈ paths)
      (h : ∀ content, made.get? path ≠ some (.file true (.text content)))

section Reading
variable {expand : Expansion} {t : FileTree}

theorem filesOf_malformed {input cause : Text} (hnothing : t.get? input = none)
    (h : expand input = .error cause) : ∃ e, (filesOf expand t input).result = .error e := by
  have hfile : t.isFile input = false := by simp [FileTree.isFile, hnothing]
  have hdir : t.isDirectory input = false := by simp [FileTree.isDirectory, hnothing]
  refine ⟨.badPattern input cause, ?_⟩
  simp [filesOf, hfile, hdir, h, Stage.fail]

theorem list_of_not_readable {dir : Text} (h : t.get? dir = some (.directory false)) :
    t.list dir = .error .permissionDenied := by
  unfold FileTree.get? at h
  unfold FileTree.list
  cases hlocate : t.locate dir with
  | error e => simp [hlocate] at h
  | ok place =>
    rw [hlocate] at h
    simp [show t.node? place = some (.directory false) from h]

theorem filesOf_not_listed {input : Text} (h : t.get? input = some (.directory false)) :
    ∃ e, (filesOf expand t input).result = .error e := by
  have hfile : t.isFile input = false := by simp [FileTree.isFile, h, Node.isDirectory]
  have hdir : t.isDirectory input = true := by simp [FileTree.isDirectory, h, Node.isDirectory]
  refine ⟨.notListed input .permissionDenied, ?_⟩
  simp [filesOf, hfile, hdir, sourcesIn, list_of_not_readable h, Except.map, Stage.fail]

theorem readText_eq_ok_iff {path content : Text} :
    readText t path = .ok content ↔ t.get? path = some (.file true (.text content)) := by
  unfold readText FileTree.read FileTree.get?
  cases t.locate path with
  | error e => simp
  | ok place =>
    dsimp only
    cases t.node? place with
    | none => simp
    | some node =>
      cases node with
      | directory readable => cases readable <;> simp
      | file readable c => cases readable <;> cases c <;> simp

theorem readInput_notText {path : Text}
    (h : ∀ content, t.get? path ≠ some (.file true (.text content))) :
    ∃ e, (readInput t path).result = .error e := by
  unfold readInput
  cases hread : readText t path with
  | error e => exact ⟨e, rfl⟩
  | ok content => exact absurd (readText_eq_ok_iff.mp hread) (h content)

/-- An input whose files are not known keeps all inputs from being read. -/
theorem readInputs_of_filesOf {inputs : List Text} {input : Text} (hmem : input ∈ inputs)
    (h : ∃ e, (filesOf expand t input).result = .error e) :
    ∃ e, (readInputs expand t inputs).result = .error e := by
  obtain ⟨e, he⟩ := h
  obtain ⟨e', he'⟩ := Stage.exists_error_of_mem hmem he
  exact ⟨e', by simp [readInputs, result_resolve, he', Except.bind]⟩

theorem readInputs_notText {inputs paths : List Text} {path : Text}
    (hpaths : (resolve expand t inputs).result = .ok paths) (hmem : path ∈ paths)
    (h : ∀ content, t.get? path ≠ some (.file true (.text content))) :
    ∃ e, (readInputs expand t inputs).result = .error e := by
  obtain ⟨e, he⟩ := readInput_notText h
  obtain ⟨e', he'⟩ := Stage.exists_error_of_mem hmem he
  exact ⟨e', by simp [readInputs, hpaths, he', Except.bind]⟩

end Reading

section Outcome
variable {expand : Expansion} {o : Options} {t : FileTree}

/-- Inputs that cannot be read leave a run with the directories that it has made. -/
theorem onFiles_unread {made : FileTree} {output : Text} (hout : o.output = some output)
    (hmade : t.ensurePath output = .ok made)
    (h : ∃ e, (readInputs expand made o.inputs).result = .error e) :
    (onFiles expand o t).failure.isSome = true ∧
      FileTree.AddsDirectories (FileTree.wayOf (o.output.getD [])) t (onFiles expand o t).tree := by
  obtain ⟨e, he⟩ := h
  obtain ⟨htree, hfailure⟩ := onFiles_of_error hout hmade he
  have hadds := FileTree.addsDirectories_of_ensurePath t output
  rw [hmade] at hadds
  rw [htree, hfailure, hout]
  exact ⟨rfl, hadds⟩

theorem Obstacle.onFiles (h : Obstacle expand o t) :
    (onFiles expand o t).failure.isSome = true ∧
      FileTree.AddsDirectories (FileTree.wayOf (o.output.getD [])) t (onFiles expand o t).tree := by
  cases h with
  | noOutput h =>
    have hrun : Run.onFiles expand o t = { failure := some .noOutput, tree := t } := by
      simp [Run.onFiles, h]
    rw [hrun]
    exact ⟨rfl, .refl _ t⟩
  | @badOutput output left e hout h =>
    have hrun : Run.onFiles expand o t =
        { failure := some (.badOutput output e), tree := left } := by
      simp [Run.onFiles, hout, h]
    have hadds := FileTree.addsDirectories_of_ensurePath t output
    rw [h] at hadds
    rw [hrun, hout]
    exact ⟨rfl, hadds⟩
  | badPattern hout hmade hmem hnothing h =>
    exact onFiles_unread hout hmade (readInputs_of_filesOf hmem (filesOf_malformed hnothing h))
  | notListed hout hmade hmem h =>
    exact onFiles_unread hout hmade (readInputs_of_filesOf hmem (filesOf_not_listed h))
  | notText hout hmade hpaths hmem h =>
    exact onFiles_unread hout hmade (readInputs_notText hpaths hmem h)

end Outcome

end Run

/--
A run on files that meets an obstacle before it writes fails. All that was there stays as it is, and
what is new are directories on the path of the output directory.
-/
theorem Options.run_of_obstacle (o : Options) (expand : Expansion) (stdin : Content) (t : FileTree)
    (hfiles : o.inputs ≠ []) (h : Run.Obstacle expand o t) :
    (o.run expand stdin t).exitCode = 1 ∧ FileTree.SameFiles t (o.run expand stdin t).tree ∧
      FileTree.AddsDirectories (FileTree.wayOf (o.output.getD [])) t
        (o.run expand stdin t).tree := by
  obtain ⟨hfailure, hadds⟩ := h.onFiles
  rw [Options.run, if_neg hfiles]
  exact ⟨by simp [Run.Outcome.exitCode, hfailure], hadds.sameFiles, hadds⟩

/--
The second of two inputs is no text or may not be read, there is a library of the first from before,
and of the output directory one above it is there.
-/
theorem Options.run_of_obstacle_unread : ∃ (o : Options) (binary closed : FileTree),
    o = { inputs := ["a.c".toList, "b.c".toList], output := some "lib/out".toList } ∧
    binary = ⟨[(["a.c".toList], .file true (.text "/*** @table a */")),
      (["b.c".toList], .file true (.binary [255])), (["lib".toList], .directory true),
      (["lib".toList, "a.lua".toList], .file true (.text "old"))]⟩ ∧
    closed = ⟨[(["a.c".toList], .file true (.text "/*** @table a */")),
      (["b.c".toList], .file false (.text "/*** @table b */")), (["lib".toList], .directory true),
      (["lib".toList, "a.lua".toList], .file true (.text "old"))]⟩ ∧
    ∀ t ∈ [binary, closed], o.inputs ≠ [] ∧ Run.Obstacle Glob.expansion o t ∧
      (o.run Glob.expansion (.text []) t).exitCode = 1 ∧
      FileTree.SameFiles t (o.run Glob.expansion (.text []) t).tree ∧
      FileTree.AddsDirectories ["lib".toList, "out".toList] t
        (o.run Glob.expansion (.text []) t).tree := by
  obtain ⟨o, ho⟩ : ∃ o : Options,
    o = { inputs := ["a.c".toList, "b.c".toList], output := some "lib/out".toList } := ⟨_, rfl⟩
  obtain ⟨binary, hbinary⟩ : ∃ t : FileTree,
    t = ⟨[(["a.c".toList], .file true (.text "/*** @table a */")),
      (["b.c".toList], .file true (.binary [255])), (["lib".toList], .directory true),
      (["lib".toList, "a.lua".toList], .file true (.text "old"))]⟩ := ⟨_, rfl⟩
  obtain ⟨closed, hclosed⟩ : ∃ t : FileTree,
    t = ⟨[(["a.c".toList], .file true (.text "/*** @table a */")),
      (["b.c".toList], .file false (.text "/*** @table b */")), (["lib".toList], .directory true),
      (["lib".toList, "a.lua".toList], .file true (.text "old"))]⟩ := ⟨_, rfl⟩
  have hfiles : o.inputs ≠ [] := by simp [ho]
  have hout : o.output = some "lib/out".toList := by rw [ho]
  have hway : FileTree.wayOf (o.output.getD []) = ["lib".toList, "out".toList] := by
    rw [hout]
    decide +kernel
  have hmade : ∀ t ∈ [binary, closed], t.ensurePath "lib/out" =
      .ok (t.set ["lib".toList, "out".toList] (.directory true)) := by
    rw [hbinary, hclosed]
    decide +kernel
  have hfound : ∀ t ∈ [binary, closed], (Stage.each (Run.filesOf Glob.expansion
      (t.set ["lib".toList, "out".toList] (.directory true))) o.inputs).result =
        .ok [["a.c".toList], ["b.c".toList]] := by
    rw [hbinary, hclosed, ho]
    decide +kernel
  have hunread : ∀ t ∈ [binary, closed],
      (t.set ["lib".toList, "out".toList] (.directory true)).get? "b.c" ∈
        [some (.file true (.binary [255])), some (.file false (.text "/*** @table b */"))] := by
    rw [hbinary, hclosed]
    decide +kernel
  have hobstacle : ∀ t ∈ [binary, closed], Run.Obstacle Glob.expansion o t := by
    intro t ht
    have hpaths : (Run.resolve Glob.expansion
        (t.set ["lib".toList, "out".toList] (.directory true)) o.inputs).result =
          .ok ["a.c".toList, "b.c".toList] := by
      rw [Run.result_resolve, hfound t ht]
      exact congrArg Except.ok (Path.sorted_eq_self (by decide +kernel))
    have hmem : "b.c".toList ∈ ["a.c".toList, "b.c".toList] := by decide
    refine .notText hout (hmade t ht) hpaths hmem ?_
    intro content hcontent
    have hnode := hunread t ht
    rw [hcontent] at hnode
    simp at hnode
  refine ⟨o, binary, closed, ho, hbinary, hclosed, fun t ht => ?_⟩
  obtain ⟨hexit, hsame, hadds⟩ :=
    Options.run_of_obstacle o Glob.expansion (.text []) t hfiles (hobstacle t ht)
  exact ⟨hfiles, hobstacle t ht, hexit, hsame, hway ▸ hadds⟩

/-- An input that is not there and is no pattern can be the output directory once that is made. -/
theorem Options.not_forall_malformed_fails :
    ¬∀ (o : Options) (stdin : Content) (t : FileTree), o.inputs ≠ [] →
      (∃ input ∈ o.inputs, t.get? input = none ∧ ∃ cause, Glob.expansion input = .error cause) →
      (o.run Glob.expansion stdin t).exitCode = 1 ∧
        FileTree.SameFiles t (o.run Glob.expansion stdin t).tree := by
  intro h
  have hrun := (h { inputs := [['[']], output := some ['['], file := some "lib.lua" } (.text []) {}
    (by simp) ⟨['['], by simp, rfl, _, rfl⟩).1
  revert hrun
  decide +kernel

end LuaStubs
