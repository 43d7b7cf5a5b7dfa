import LuaStubs.Proofs.Command.Failures

namespace LuaStubs

namespace Path

theorem eq_of_ofSegment? {segment n : Text} (h : Part.ofSegment? segment = some (.name n)) :
    n = segment := by
  unfold Part.ofSegment? at h
  split at h
  · cases h
  · split at h
    · cases h
    · simpa using h.symm

theorem eq_of_frontPart? {segment n : Text} {more : Bool}
    (h : frontPart? segment more = some (.name n)) : n = segment := by
  unfold frontPart? at h
  split at h
  · cases h
  · split at h
    · cases h
    · exact eq_of_ofSegment? h

theorem not_slash_of_mem_parts {path n : Text} (h : Part.name n ∈ parts path) : '/' ∉ n := by
  unfold parts at h
  split at h
  · cases h
  · next front segments hsplit =>
    have hn : n ∈ front :: segments := by
      obtain h | h := List.mem_append.mp h
      · rw [eq_of_frontPart? (Option.mem_toList.mp h)]
        exact List.mem_cons_self
      · obtain ⟨segment, hsegment, hname⟩ := List.mem_filterMap.mp h
        rw [eq_of_ofSegment? hname]
        exact List.mem_cons_of_mem front hsegment
    rw [← hsplit] at hn
    exact Text.not_mem_of_mem_splitOn hn

theorem splitExtension_subset (name : Text) : (splitExtension name).1 ⊆ name := by
  unfold splitExtension
  split
  · exact List.Subset.refl name
  · next c stem hstem =>
    split
    · exact List.Subset.refl name
    · intro x hx
      have hdrop : x ∈ name.reverse.dropWhile (· != '.') := by
        rw [hstem]
        exact List.mem_cons_of_mem c (List.mem_reverse.mp hx)
      exact List.mem_reverse.mp ((List.dropWhile_suffix _).subset hdrop)

theorem not_slash_of_stem? {path stem : Text} (h : stem? path = some stem) : '/' ∉ stem := by
  obtain ⟨name, hname, rfl⟩ := Option.map_eq_some_iff.mp h
  have hmem : Part.name name ∈ parts path := by
    unfold fileName? at hname
    split at hname
    · next n hlast =>
      obtain rfl := Option.some.inj hname
      exact List.mem_of_getLast? hlast
    · cases hname
  intro hslash
  exact not_slash_of_mem_parts hmem (splitExtension_subset name hslash)

end Path

namespace Run

/-- The name by which a library shows an input. -/
def shownName (path : Text) : Text := Text.replaceChar '\\' '/' path

/-- The path of the library of an input, if it has one of its own. -/
def libraryPath (output path : Text) : Text :=
  Path.join output ((Path.stem? (shownName path)).getD (shownName path) ++ ".lua")

/-- The docs of a file. -/
def docs? (t : FileTree) (path : Text) : Option (List Doc) :=
  match readText t path with
  | .ok content =>
    match SourceFile.read content (shownName path) with
    | .ok file => some file.docs
    | .error _ => none
  | .error _ => none

/-- The library of a file alone: made of its own docs, and with the file as its only source. -/
def ownLibrary? (repo : Option Text) (t : FileTree) (path : Text) : Option Text :=
  (docs? t path).map (Library.render repo [shownName path])

/-- Of the inputs whose libraries go to the same place as that of `f`, the last one is `g`. -/
def IsLastAt (t : FileTree) (output : Text) (paths : List Text) (f g : Text) : Prop :=
  ∃ before after, paths = before ++ g :: after ∧
    t.locate (libraryPath output g) = t.locate (libraryPath output f) ∧
    ∀ x ∈ after, t.locate (libraryPath output x) ≠ t.locate (libraryPath output f)

theorem exists_isLastAt (t : FileTree) (output : Text) {paths : List Text} {f : Text}
    (h : f ∈ paths) : ∃ g, IsLastAt t output paths f g := by
  have hsome : (paths.reverse.find? fun x =>
      decide (t.locate (libraryPath output x) = t.locate (libraryPath output f))).isSome := by
    rw [List.find?_isSome]
    exact ⟨f, List.mem_reverse.mpr h, by simp⟩
  obtain ⟨g, hg⟩ := Option.isSome_iff_exists.mp hsome
  obtain ⟨hplace, after, before, hsplit, hafter⟩ := List.find?_eq_some_iff_append.mp hg
  refine ⟨g, before.reverse, after.reverse, ?_, by simpa using hplace, ?_⟩
  · have hreverse := congrArg List.reverse hsplit
    simpa using hreverse
  · intro x hx
    simpa using hafter x (List.mem_reverse.mp hx)

theorem IsLastAt.mem {t : FileTree} {output : Text} {paths : List Text} {f g : Text}
    (h : IsLastAt t output paths f g) : g ∈ paths := by
  obtain ⟨before, after, rfl, -⟩ := h
  simp

section Write
variable {repo : Option Text} {t t' : FileTree} {u target : Target} {us : List Target}

theorem writeAll_cons (h : (writeAll repo t (u :: us)).2 = (t', none)) :
    ∃ t₁, t.write u.path (Library.render repo u.sources u.docs) = .ok t₁ ∧
      (writeAll repo t₁ us).2 = (t', none) := by
  rw [writeAll] at h
  cases hwrite : t.write u.path (library repo u.sources u.docs).2 with
  | error e => simp [hwrite] at h
  | ok t₁ =>
    simp only [hwrite] at h
    exact ⟨t₁, hwrite, h⟩

theorem grows_of_writeAll (h : (writeAll repo t us).2 = (t', none)) : t.Grows t' := by
  induction us generalizing t with
  | nil =>
    obtain rfl : t = t' := by simpa [writeAll] using h
    exact .refl t
  | cons u us ih =>
    obtain ⟨t₁, hwrite, hrest⟩ := writeAll_cons h
    exact (FileTree.grows_of_write hwrite).trans (ih hrest)

/-- Libraries that go elsewhere leave a path with what it led to. -/
theorem get?_of_writeAll_of_ne (h : (writeAll repo t us).2 = (t', none)) {path : Text}
    {place : List Text} (hpath : t.locate path = .ok place)
    (hne : ∀ u ∈ us, t'.locate u.path ≠ t'.locate path) : t'.get? path = t.get? path := by
  induction us generalizing t with
  | nil =>
    obtain rfl : t = t' := by simpa [writeAll] using h
    rfl
  | cons u us ih =>
    obtain ⟨t₁, hwrite, hrest⟩ := writeAll_cons h
    have hgrows := grows_of_writeAll hrest
    have hpath₁ := (FileTree.grows_of_write hwrite).locate hpath
    obtain ⟨written, -, -, -, -, hwritten⟩ := FileTree.write_cases hwrite
    have hne₁ : t₁.locate u.path ≠ t₁.locate path := by
      have hu := hne u (by simp)
      rw [hgrows.locate hwritten, hgrows.locate hpath₁] at hu
      rwa [hwritten, hpath₁]
    rw [ih hrest hpath₁ fun v hv => hne v (List.mem_cons_of_mem u hv)]
    exact FileTree.get?_of_write_of_ne hwrite hpath hne₁

/-- A path for a library leads to the last one that was written there. -/
theorem content?_of_writeAll {before after : List Target}
    (h : (writeAll repo t (before ++ target :: after)).2 = (t', none))
    (hafter : ∀ u ∈ after, t'.locate u.path ≠ t'.locate target.path) :
    t'.content? target.path = some (.text (Library.render repo target.sources target.docs)) := by
  induction before generalizing t with
  | nil =>
    obtain ⟨t₁, hwrite, hrest⟩ := writeAll_cons h
    obtain ⟨place, -, -, -, -, hplace⟩ := FileTree.write_cases hwrite
    rw [FileTree.content?, get?_of_writeAll_of_ne hrest hplace hafter]
    exact FileTree.content?_of_write hwrite
  | cons u before ih =>
    obtain ⟨t₁, -, hrest⟩ := writeAll_cons h
    exact ih hrest

theorem exists_locate_of_writeAll (h : (writeAll repo t us).2 = (t', none)) (hu : u ∈ us) :
    ∃ place, t'.locate u.path = .ok place := by
  induction us generalizing t with
  | nil => cases hu
  | cons v us ih =>
    obtain ⟨t₁, hwrite, hrest⟩ := writeAll_cons h
    obtain rfl | hu := List.mem_cons.mp hu
    · obtain ⟨place, -, -, -, -, hplace⟩ := FileTree.write_cases hwrite
      exact ⟨place, (grows_of_writeAll hrest).locate hplace⟩
    · exact ih hrest hu

end Write

section Targets
variable {expand : Expansion} {t : FileTree} {output : Text}

theorem readInput_eq_ok {path : Text} {r : Text × Option (List Doc)}
    (h : (readInput t path).result = .ok r) : r = (shownName path, docs? t path) := by
  unfold readInput at h
  cases hread : readText t path with
  | error e => simp [hread, Stage.fail] at h
  | ok content =>
    rw [hread] at h
    obtain rfl := Except.ok.inj h
    simp only [docs?, hread, extract, shownName]
    cases SourceFile.read content (Text.replaceChar '\\' '/' path) <;> rfl

/-- The files that are read, each with its docs. -/
theorem exists_paths_of_readInputs {inputs : List Text} {read : List (Text × Option (List Doc))}
    (h : (readInputs expand t inputs).result = .ok read) : ∃ paths,
      (resolve expand t inputs).result = .ok paths ∧
        read = paths.map fun path => (shownName path, docs? t path) := by
  simp only [readInputs, Stage.result_andThen] at h
  cases hpaths : (resolve expand t inputs).result with
  | error e => simp [hpaths, Except.bind] at h
  | ok paths =>
    rw [hpaths] at h
    have hall := Stage.forall₂_of_each h
    refine ⟨paths, rfl, ?_⟩
    clear h hpaths
    induction hall with
    | nil => rfl
    | cons hx _ ih => rw [List.map_cons, ← ih, readInput_eq_ok hx]

/-- The library of an input as it is to be written. -/
def ownTarget (output : Text) (t : FileTree) (path : Text) : Target :=
  ⟨libraryPath output path, [shownName path], (docs? t path).getD []⟩

theorem targets_eq {paths : List Text} (h : ∀ path ∈ paths, (docs? t path).isSome = true) :
    targets output none (scanned (paths.map fun path => (shownName path, docs? t path))) =
      paths.map (ownTarget output t) := by
  have hscanned : scanned (paths.map fun path => (shownName path, docs? t path)) =
      paths.map fun path => (shownName path, (docs? t path).getD []) := by
    induction paths with
    | nil => rfl
    | cons path paths ih =>
      rw [List.forall_mem_cons] at h
      obtain ⟨ds, hds⟩ := Option.isSome_iff_exists.mp h.1
      have htail := ih h.2
      unfold scanned at htail ⊢
      simp only [List.map_cons, List.filterMap_cons, hds, Option.map_some, htail, Option.getD_some]
  rw [hscanned, targets, List.map_map]
  rfl

theorem ownLibrary?_eq {repo : Option Text} (output : Text) {path : Text}
    (h : (docs? t path).isSome = true) :
    ownLibrary? repo t path = some (Library.render repo (ownTarget output t path).sources
      (ownTarget output t path).docs) := by
  obtain ⟨ds, hds⟩ := Option.isSome_iff_exists.mp h
  simp [ownLibrary?, ownTarget, hds]

/-- The path for the library of an input leads to that of the last input that goes there. -/
theorem content?_of_isLastAt {repo : Option Text} {t' : FileTree} {paths : List Text} {f g : Text}
    (hwrite : (writeAll repo t (paths.map (ownTarget output t))).2 = (t', none))
    (hlast : IsLastAt t' output paths f g) (hdocs : (docs? t g).isSome = true) :
    ∃ lua, ownLibrary? repo t g = some lua ∧
      t'.content? (libraryPath output f) = some (.text lua) := by
  obtain ⟨before, after, rfl, hplace, hafter⟩ := hlast
  refine ⟨_, ownLibrary?_eq output hdocs, ?_⟩
  have hothers : ∀ u ∈ after.map (ownTarget output t),
      t'.locate u.path ≠ t'.locate (ownTarget output t g).path := by
    intro u hu
    obtain ⟨x, hx, rfl⟩ := List.mem_map.mp hu
    exact fun heq => hafter x hx (heq.trans hplace)
  rw [List.map_append, List.map_cons] at hwrite
  rw [FileTree.content?, FileTree.get?, ← hplace]
  exact content?_of_writeAll hwrite hothers

theorem isName_library {path stem : Text} (h : Path.stem? path = some stem) :
    FileTree.IsName (stem ++ ".lua") := by
  have hslash := Path.not_slash_of_stem? h
  have hlong (s : Text) (hs : s.length < 4) : stem ++ ".lua".toList ≠ s := by
    intro heq
    have hlength := congrArg List.length heq
    rw [List.length_append, show ".lua".toList.length = 4 from rfl] at hlength
    omega
  refine ⟨by simp, by simpa using hslash, ?_⟩
  simp only [FileTree.isDots, Bool.or_eq_false_iff, decide_eq_false_iff_not]
  exact ⟨⟨hlong _ (by decide), hlong _ (by decide)⟩, hlong _ (by decide)⟩

/-- Libraries of inputs with a stem go to the same place exactly if the stems are the same. -/
theorem locate_libraryPath_eq_iff {f g m n : Text} {p q : List Text}
    (hf : Path.stem? (shownName f) = some m) (hg : Path.stem? (shownName g) = some n)
    (hp : t.locate (libraryPath output f) = .ok p) (hq : t.locate (libraryPath output g) = .ok q) :
    t.locate (libraryPath output f) = t.locate (libraryPath output g) ↔ m = n := by
  have hplaces : p = q ↔ m ++ ".lua".toList = n ++ ".lua".toList := by
    apply FileTree.locate_join_eq_iff (isName_library hf) (isName_library hg)
    · simpa [libraryPath, hf] using hp
    · simpa [libraryPath, hg] using hq
  rw [hp, hq, Except.ok.injEq, hplaces, List.append_left_inj]

end Targets

/-- A run without a failure has read and scanned all inputs, and written all libraries. -/
theorem onFiles_success {expand : Expansion} {o : Options} {t : FileTree} {output : Text}
    (hout : o.output = some output) (h : (onFiles expand o t).failure = none) : ∃ made read,
      t.ensurePath output = .ok made ∧ (readInputs expand made o.inputs).result = .ok read ∧
      unscanned read = [] ∧ (writeAll o.repo made (targets output o.file (scanned read))).2 =
        ((onFiles expand o t).tree, none) := by
  cases hmade : t.ensurePath output with
  | error e => simp [onFiles, hout, hmade] at h
  | ok made =>
    cases hread : (readInputs expand made o.inputs).result with
    | error e =>
      rw [(onFiles_of_error hout hmade hread).2] at h
      cases h
    | ok read =>
      obtain ⟨htree, hfailure⟩ := onFiles_of_ok hout hmade hread
      rw [hfailure] at h
      refine ⟨made, read, rfl, hread, ?_⟩
      rw [htree]
      unfold writeInputs at h ⊢
      split at h
      · next records t' hwrite =>
        split at h
        · next hscanned =>
          rw [hwrite]
          exact ⟨hscanned, rfl⟩
        · cases h
      · next hne => exact (hne _ _ (Prod.ext rfl (Prod.ext rfl h))).elim

/-- Without a name for a common library, what is written is the library of each input. -/
theorem onFiles_apart {expand : Expansion} {o : Options} {t : FileTree} {output : Text}
    (hout : o.output = some output) (hfile : o.file = none)
    (h : (onFiles expand o t).failure = none) : ∃ made paths,
      t.ensurePath output = .ok made ∧ (resolve expand made o.inputs).result = .ok paths ∧
      (∀ path ∈ paths, (docs? made path).isSome = true) ∧
      (writeAll o.repo made (paths.map (ownTarget output made))).2 =
        ((onFiles expand o t).tree, none) := by
  obtain ⟨made, read, hmade, hread, hscanned, hwrite⟩ := onFiles_success hout h
  obtain ⟨paths, hpaths, rfl⟩ := exists_paths_of_readInputs hread
  have hdocs : ∀ path ∈ paths, (docs? made path).isSome = true := by
    intro path hpath
    rw [unscanned, List.map_eq_nil_iff, List.filter_eq_nil_iff] at hscanned
    simpa [Option.isSome_iff_ne_none] using hscanned _ (List.mem_map_of_mem hpath)
  rw [hfile, targets_eq hdocs] at hwrite
  exact ⟨made, paths, hmade, hpaths, hdocs, hwrite⟩

end Run

/--
After a run that writes one library for each input, the path for the library of an input leads to
the library of the last input that goes there, made of this input alone. Inputs with a stem go to
the same place exactly if they have the same stem.
-/
theorem Options.run_libraries (o : Options) (expand : Expansion) (stdin : Content) (t : FileTree)
    (output : Text) (hfiles : o.inputs ≠ []) (hout : o.output = some output) (hfile : o.file = none)
    (hexit : (o.run expand stdin t).exitCode = 0) : ∃ made paths, t.ensurePath output = .ok made ∧
      (Run.resolve expand made o.inputs).result = .ok paths ∧
      (∀ f ∈ paths, ∃ g lua, Run.IsLastAt (o.run expand stdin t).tree output paths f g ∧
        Run.ownLibrary? o.repo made g = some lua ∧
        (o.run expand stdin t).tree.content? (Run.libraryPath output f) = some (.text lua)) ∧
      ∀ f ∈ paths, ∀ g ∈ paths, ∀ m n, Path.stem? (Run.shownName f) = some m →
        Path.stem? (Run.shownName g) = some n →
        ((o.run expand stdin t).tree.locate (Run.libraryPath output f) =
          (o.run expand stdin t).tree.locate (Run.libraryPath output g) ↔ m = n) := by
  have hrun : o.run expand stdin t = Run.onFiles expand o t := by rw [Options.run, if_neg hfiles]
  have hfailure : (Run.onFiles expand o t).failure = none := by
    simpa [hrun, Run.Outcome.exitCode] using hexit
  obtain ⟨made, paths, hmade, hpaths, hdocs, hwrite⟩ := Run.onFiles_apart hout hfile hfailure
  rw [hrun]
  refine ⟨made, paths, hmade, hpaths, ?_, ?_⟩
  · intro f hf
    obtain ⟨g, hlast⟩ := Run.exists_isLastAt (Run.onFiles expand o t).tree output hf
    obtain ⟨lua, hown, hcontent⟩ := Run.content?_of_isLastAt hwrite hlast (hdocs g hlast.mem)
    exact ⟨g, lua, hlast, hown, hcontent⟩
  · intro f hf g hg m n hm hn
    have hlocated (x : Text) (hx : x ∈ paths) :
        ∃ place, (Run.onFiles expand o t).tree.locate (Run.libraryPath output x) = .ok place :=
      Run.exists_locate_of_writeAll hwrite (List.mem_map_of_mem hx)
    obtain ⟨p, hp⟩ := hlocated f hf
    obtain ⟨q, hq⟩ := hlocated g hg
    exact Run.locate_libraryPath_eq_iff hm hn hp hq

namespace Run

/-- Two sources of the same stem. -/
def twins : FileTree :=
  ⟨[(["a".toList], .directory true),
    (["a".toList, "x.c".toList], .file true (.text "/*** @table A */")),
    (["b".toList], .directory true),
    (["b".toList, "x.h".toList], .file true (.text "/*** @table B */"))]⟩

/-- The two sources once there is an output directory. -/
def madeTwins : FileTree := twins.set ["out".toList] (.directory true)

/-- A run on both. -/
def onTwins : Options :=
  { inputs := ["a/x.c".toList, "b/x.h".toList], output := some "out".toList }

theorem ensurePath_twins : twins.ensurePath "out" = .ok madeTwins := by decide +kernel

theorem resolve_twins : (resolve Glob.expansion madeTwins onTwins.inputs).result =
    .ok ["a/x.c".toList, "b/x.h".toList] := by
  have hfound : (Stage.each (filesOf Glob.expansion madeTwins) onTwins.inputs).result =
      .ok [["a/x.c".toList], ["b/x.h".toList]] := by decide +kernel
  rw [result_resolve, hfound]
  exact congrArg Except.ok (Path.sorted_eq_self (by decide +kernel))

theorem readInputs_twins : (readInputs Glob.expansion madeTwins onTwins.inputs).result =
    .ok (["a/x.c".toList, "b/x.h".toList].map fun path =>
      (shownName path, docs? madeTwins path)) := by
  rw [readInputs, Stage.result_andThen, resolve_twins]
  decide +kernel

/-- The second library takes the place of the first. -/
theorem run_onTwins : (onTwins.run Glob.expansion (.text []) twins).exitCode = 0 ∧
    (onTwins.run Glob.expansion (.text []) twins).tree.content? (libraryPath "out" "a/x.c") =
      (ownLibrary? none madeTwins "b/x.h").map .text := by
  have hout : onTwins.output = some "out".toList := rfl
  obtain ⟨htree, hfailure⟩ := onFiles_of_ok hout ensurePath_twins readInputs_twins
  have hrun : onTwins.run Glob.expansion (.text []) twins =
    onFiles Glob.expansion onTwins twins := rfl
  rw [Outcome.exitCode, hrun, htree, hfailure]
  decide +kernel

end Run

/-- The libraries of two sources of the same stem belong at one place, and the last one is there. -/
theorem Options.run_libraries_twins : ∃ (o : Options) (t : FileTree),
    o.inputs ≠ [] ∧ o.output = some "out".toList ∧ o.file = none ∧
    (o.run Glob.expansion (.text []) t).exitCode = 0 ∧
    ∃ made paths, t.ensurePath "out" = .ok made ∧
      (Run.resolve Glob.expansion made o.inputs).result = .ok paths ∧
      "a/x.c".toList ∈ paths ∧ "b/x.h".toList ∈ paths ∧
      (∀ f ∈ paths, ∃ g lua,
        Run.IsLastAt (o.run Glob.expansion (.text []) t).tree "out" paths f g ∧
        Run.ownLibrary? o.repo made g = some lua ∧
        (o.run Glob.expansion (.text []) t).tree.content? (Run.libraryPath "out" f) =
          some (.text lua)) ∧
      (o.run Glob.expansion (.text []) t).tree.locate (Run.libraryPath "out" "a/x.c") =
        (o.run Glob.expansion (.text []) t).tree.locate (Run.libraryPath "out" "b/x.h") := by
  have hfiles : Run.onTwins.inputs ≠ [] := by decide
  obtain ⟨hexit, -⟩ := Run.run_onTwins
  obtain ⟨made, paths, hmade, hpaths, hlibraries, hplaces⟩ := Options.run_libraries Run.onTwins
    Glob.expansion (.text []) Run.twins "out" hfiles rfl rfl hexit
  obtain rfl := Except.ok.inj (Run.ensurePath_twins.symm.trans hmade)
  obtain rfl := Except.ok.inj (Run.resolve_twins.symm.trans hpaths)
  have ha : "a/x.c".toList ∈ ["a/x.c".toList, "b/x.h".toList] := by decide
  have hb : "b/x.h".toList ∈ ["a/x.c".toList, "b/x.h".toList] := by decide
  have hsame := (hplaces _ ha _ hb "x" "x" (by decide +kernel) (by decide +kernel)).mpr rfl
  exact ⟨Run.onTwins, Run.twins, hfiles, rfl, rfl, hexit, _, _, hmade, hpaths, ha, hb, hlibraries,
    hsame⟩

/-- Not every input of a run that succeeds has its own library where it belongs. -/
theorem Options.not_forall_own_library :
    ¬∀ (o : Options) (stdin : Content) (t : FileTree) (output : Text), o.inputs ≠ [] →
      o.output = some output → o.file = none → (o.run Glob.expansion stdin t).exitCode = 0 →
      ∀ made paths, t.ensurePath output = .ok made →
        (Run.resolve Glob.expansion made o.inputs).result = .ok paths →
        ∀ f ∈ paths, ∃ lua, Run.ownLibrary? o.repo made f = some lua ∧
          (o.run Glob.expansion stdin t).tree.content? (Run.libraryPath output f) =
            some (.text lua) := by
  intro h
  obtain ⟨hexit, htree⟩ := Run.run_onTwins
  obtain ⟨lua, hown, hcontent⟩ := h Run.onTwins (.text []) Run.twins "out" (by decide) rfl rfl
    hexit _ _ Run.ensurePath_twins Run.resolve_twins "a/x.c" (by decide)
  have hsame : Run.ownLibrary? none Run.madeTwins "b/x.h" =
      Run.ownLibrary? none Run.madeTwins "a/x.c" := by
    rw [hcontent] at htree
    obtain ⟨other, hother, heq⟩ := Option.map_eq_some_iff.mp htree.symm
    obtain rfl : other = lua := by simpa using heq
    rw [hother]
    exact hown.symm
  revert hsame
  decide +kernel

end LuaStubs
