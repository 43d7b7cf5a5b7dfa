import LuaStubs.Command.Glob
import LuaStubs.Proofs.Command.PathOrder
import Mathlib.Data.List.Forall2

namespace LuaStubs

namespace Stage
variable {α β : Type}

@[simp] theorem result_andThen (s : Stage α) (next : α → Stage β) :
    (s.andThen next).result = s.result.bind fun a => (next a).result := by
  unfold andThen
  cases s.result <;> rfl

theorem result_each_cons (f : α → Stage β) (a : α) (as : List α) :
    (each f (a :: as)).result =
      (f a).result.bind fun b => (each f as).result.bind fun bs => .ok (b :: bs) := by
  simp [each, done]

/-- The values of all stages, if none of them fails. -/
theorem forall₂_of_each {f : α → Stage β} {as : List α} {bs : List β}
    (h : (each f as).result = .ok bs) : List.Forall₂ (fun a b => (f a).result = .ok b) as bs := by
  induction as generalizing bs with
  | nil =>
    obtain rfl := Except.ok.inj h
    exact .nil
  | cons a as ih =>
    rw [result_each_cons] at h
    cases ha : (f a).result with
    | error e => simp [ha, Except.bind] at h
    | ok b =>
      cases has : (each f as).result with
      | error e => simp [ha, has, Except.bind] at h
      | ok cs =>
        simp only [ha, has, Except.bind, Except.ok.injEq] at h
        rw [← h]
        exact .cons ha (ih has)

theorem each_cases (f : α → Stage β) (as : List α) :
    (∃ a ∈ as, ∃ e, (f a).result = .error e) ∨ ∃ bs, (each f as).result = .ok bs := by
  induction as with
  | nil => exact .inr ⟨[], rfl⟩
  | cons a as ih =>
    rw [result_each_cons]
    cases ha : (f a).result with
    | error e => exact .inl ⟨a, by simp, e, ha⟩
    | ok b =>
      obtain ⟨c, hc, hfail⟩ | ⟨bs, hbs⟩ := ih
      · exact .inl ⟨c, List.mem_cons_of_mem a hc, hfail⟩
      · exact .inr ⟨b :: bs, by simp [hbs, Except.bind]⟩

theorem exists_error_of_mem {f : α → Stage β} {a : α} {as : List α} (ha : a ∈ as) {e : Failure}
    (h : (f a).result = .error e) : ∃ e, (each f as).result = .error e := by
  induction as with
  | nil => cases ha
  | cons b as ih =>
    rw [result_each_cons]
    cases hb : (f b).result with
    | error e => exact ⟨e, rfl⟩
    | ok c =>
      obtain rfl | ha := List.mem_cons.mp ha
      · simp [h] at hb
      · obtain ⟨e, he⟩ := ih ha
        exact ⟨e, by simp [he, Except.bind]⟩

end Stage

namespace Run

/-- A file that one of the inputs stands for. -/
def Resolves (expand : Expansion) (t : FileTree) (inputs : List Text) (path : Text) : Prop :=
  ∃ input ∈ inputs, ∃ files, (filesOf expand t input).result = .ok files ∧ path ∈ files

section Resolve
variable {expand : Expansion} {t : FileTree} {xs ys : List Text}

theorem mem_flatten_iff {files : List (List Text)}
    (h : (Stage.each (filesOf expand t) xs).result = .ok files) (path : Text) :
    path ∈ files.flatten ↔ Resolves expand t xs path := by
  have hall := Stage.forall₂_of_each h
  clear h
  unfold Resolves
  induction hall with
  | nil => simp
  | cons hx _ ih => simp [ih, hx]

theorem result_resolve (expand : Expansion) (t : FileTree) (inputs : List Text) :
    (resolve expand t inputs).result =
      (Stage.each (filesOf expand t) inputs).result.bind fun files =>
        .ok (Path.sorted files.flatten) := by
  simp [resolve, Stage.done]

/-- Inputs that are the same but for their order and repetition stand for the same files. -/
theorem resolve_congr (hsame : ∀ input, input ∈ xs ↔ input ∈ ys)
    (hspelled : ∀ p q, Resolves expand t xs p → Resolves expand t xs q →
      Path.parts p = Path.parts q → p = q) :
    (∃ paths, (resolve expand t xs).result = .ok paths ∧ (resolve expand t ys).result = .ok paths) ∨
      (∃ e, (resolve expand t xs).result = .error e) ∧
        ∃ e, (resolve expand t ys).result = .error e := by
  rw [result_resolve, result_resolve]
  obtain ⟨a, ha, f, hfail⟩ | ⟨files, hfiles⟩ := Stage.each_cases (filesOf expand t) xs
  · right
    obtain ⟨e, he⟩ := Stage.exists_error_of_mem ha hfail
    obtain ⟨e', he'⟩ := Stage.exists_error_of_mem ((hsame a).mp ha) hfail
    simp [he, he', Except.bind]
  · obtain ⟨a, ha, f, hfail⟩ | ⟨files', hfiles'⟩ := Stage.each_cases (filesOf expand t) ys
    · obtain ⟨e, he⟩ := Stage.exists_error_of_mem ((hsame a).mpr ha) hfail
      simp [he] at hfiles
    · left
      have hmem := mem_flatten_iff hfiles
      have hmem' := mem_flatten_iff hfiles'
      have hflatten (p : Text) : p ∈ files.flatten ↔ p ∈ files'.flatten := by
        simp [hmem, hmem', Resolves, hsame]
      have hsorted : Path.sorted files.flatten = Path.sorted files'.flatten := by
        apply Path.sorted_congr hflatten
        intro p hp q hq
        exact hspelled p q ((hmem p).mp hp) ((hmem q).mp hq)
      simp [hfiles, hfiles', Except.bind, hsorted]

theorem readInputs_congr (hsame : ∀ input, input ∈ xs ↔ input ∈ ys)
    (hspelled : ∀ p q, Resolves expand t xs p → Resolves expand t xs q →
      Path.parts p = Path.parts q → p = q) :
    (∃ inputs, (readInputs expand t xs).result = .ok inputs ∧
        (readInputs expand t ys).result = .ok inputs) ∨
      (∃ e, (readInputs expand t xs).result = .error e) ∧
        ∃ e, (readInputs expand t ys).result = .error e := by
  simp only [readInputs, Stage.result_andThen]
  obtain ⟨paths, hpaths, hpaths'⟩ | ⟨⟨e, he⟩, e', he'⟩ := resolve_congr hsame hspelled
  · rw [hpaths, hpaths']
    cases hread : (Stage.each (readInput t) paths).result with
    | error e => simp [Except.bind, hread]
    | ok inputs => simp [Except.bind, hread]
  · right
    simp [he, he', Except.bind]

end Resolve

section Outcome
variable {expand : Expansion} {o : Options} {t made : FileTree} {output : Text}

/-- A run that cannot read its inputs ends with what it had made for its output. -/
theorem onFiles_of_error (hout : o.output = some output) (hmade : t.ensurePath output = .ok made)
    {e : Failure} (h : (readInputs expand made o.inputs).result = .error e) :
    (onFiles expand o t).tree = made ∧ (onFiles expand o t).failure = some e := by
  unfold onFiles
  simp only [hout, hmade]
  split
  · next records f hread =>
    rw [hread] at h
    obtain rfl := Except.error.inj h
    exact ⟨rfl, rfl⟩
  · next records inputs hread =>
    rw [hread] at h
    cases h

/-- A run that has read its inputs ends with what it writes. -/
theorem onFiles_of_ok (hout : o.output = some output) (hmade : t.ensurePath output = .ok made)
    {inputs : List (Text × Option (List Doc))}
    (h : (readInputs expand made o.inputs).result = .ok inputs) :
    (onFiles expand o t).tree = (writeInputs o output made inputs).2.1 ∧
      (onFiles expand o t).failure = (writeInputs o output made inputs).2.2 := by
  unfold onFiles
  simp only [hout, hmade]
  split
  · next records f hread =>
    rw [hread] at h
    cases h
  · next records inputs' hread =>
    rw [hread] at h
    obtain rfl := Except.ok.inj h
    exact ⟨rfl, rfl⟩

end Outcome

/-- A run on files ends the same way for inputs that are the same but for order and repetition. -/
theorem onFiles_congr (expand : Expansion) (o o' : Options) (t : FileTree)
    (houtput : o'.output = o.output) (hfile : o'.file = o.file) (hrepo : o'.repo = o.repo)
    (hsame : ∀ input, input ∈ o.inputs ↔ input ∈ o'.inputs)
    (hspelled : ∀ output made, o.output = some output → t.ensurePath output = .ok made →
      ∀ p q, Resolves expand made o.inputs p → Resolves expand made o.inputs q →
        Path.parts p = Path.parts q → p = q) :
    (onFiles expand o t).failure.isSome = (onFiles expand o' t).failure.isSome ∧
      (onFiles expand o t).tree = (onFiles expand o' t).tree := by
  obtain hout | ⟨output, hout⟩ := o.output.eq_none_or_eq_some
  · simp [onFiles, houtput, hout]
  have hout' := houtput.trans hout
  cases hmade : t.ensurePath output with
  | error e => simp [onFiles, houtput, hout, hmade]
  | ok made =>
    obtain ⟨inputs, hread, hread'⟩ | ⟨⟨e, hread⟩, e', hread'⟩ :=
      readInputs_congr hsame (hspelled output made hout hmade)
    · obtain ⟨htree, hfailure⟩ := onFiles_of_ok hout hmade hread
      obtain ⟨htree', hfailure'⟩ := onFiles_of_ok hout' hmade hread'
      have hwrite : writeInputs o' output made inputs = writeInputs o output made inputs := by
        rw [writeInputs, writeInputs, hfile, hrepo]
      rw [htree, htree', hfailure, hfailure', hwrite]
      exact ⟨rfl, rfl⟩
    · obtain ⟨htree, hfailure⟩ := onFiles_of_error hout hmade hread
      obtain ⟨htree', hfailure'⟩ := onFiles_of_error hout' hmade hread'
      rw [htree, htree', hfailure, hfailure']
      exact ⟨rfl, rfl⟩

end Run

/--
The order of the inputs and their repetition make no difference to how a run ends and what files it
leaves, as long as no two of the files that it reads are spellings of the same parts.
-/
theorem Options.run_inputs_congr (o : Options) (expand : Expansion) (stdin : Content) (t : FileTree)
    (xs ys : List Text) (hsame : ∀ input, input ∈ xs ↔ input ∈ ys)
    (hspelled : ∀ output made, o.output = some output → t.ensurePath output = .ok made →
      ∀ p q, Run.Resolves expand made xs p → Run.Resolves expand made xs q →
        Path.parts p = Path.parts q → p = q) :
    ({ o with inputs := xs }.run expand stdin t).exitCode =
        ({ o with inputs := ys }.run expand stdin t).exitCode ∧
      ({ o with inputs := xs }.run expand stdin t).tree =
        ({ o with inputs := ys }.run expand stdin t).tree := by
  have hnil : xs = [] ↔ ys = [] := by simp [List.eq_nil_iff_forall_not_mem, hsame]
  by_cases hxs : xs = []
  · simp [hxs, hnil.mp hxs]
  · have hys : ys ≠ [] := mt hnil.mpr hxs
    obtain ⟨hfailure, htree⟩ := Run.onFiles_congr expand { o with inputs := xs }
      { o with inputs := ys } t rfl rfl rfl hsame hspelled
    simp only [Options.run, hxs, hys, if_false]
    exact ⟨by simp only [Run.Outcome.exitCode, hfailure], htree⟩

/-- A directory, a file in it that is named again, and a pattern for a file beside it. -/
theorem Options.run_inputs_congr_overlap : ∃ (o : Options) (t : FileTree) (xs ys : List Text),
    xs = ["d".toList, "*.c".toList, "d/a.h".toList] ∧
    ys = ["*.c".toList, "d/a.h".toList, "d/a.h".toList, "d".toList] ∧
    o.output = some "out".toList ∧
    t = ⟨[(["b.c".toList], .file true (.text "/*** @table b */")), (["d".toList], .directory true),
      (["d".toList, "a.h".toList], .file true (.text []))]⟩ ∧
    (∀ input, input ∈ xs ↔ input ∈ ys) ∧
    (∀ output made, o.output = some output → t.ensurePath output = .ok made →
      ∀ p q, Run.Resolves Glob.expansion made xs p → Run.Resolves Glob.expansion made xs q →
        Path.parts p = Path.parts q → p = q) ∧
    ({ o with inputs := xs }.run Glob.expansion (.text []) t).exitCode =
      ({ o with inputs := ys }.run Glob.expansion (.text []) t).exitCode ∧
    ({ o with inputs := xs }.run Glob.expansion (.text []) t).tree =
      ({ o with inputs := ys }.run Glob.expansion (.text []) t).tree := by
  obtain ⟨o, ho⟩ : ∃ o : Options, o.output = some "out".toList := ⟨{ output := some "out" }, rfl⟩
  obtain ⟨t, ht⟩ : ∃ t : FileTree,
      t = ⟨[(["b.c".toList], .file true (.text "/*** @table b */")),
        (["d".toList], .directory true),
        (["d".toList, "a.h".toList], .file true (.text []))]⟩ := ⟨_, rfl⟩
  obtain ⟨xs, hxs⟩ : ∃ xs : List Text, xs = ["d".toList, "*.c".toList, "d/a.h".toList] := ⟨_, rfl⟩
  obtain ⟨ys, hys⟩ : ∃ ys : List Text,
      ys = ["*.c".toList, "d/a.h".toList, "d/a.h".toList, "d".toList] := ⟨_, rfl⟩
  have hsame : ∀ input, input ∈ xs ↔ input ∈ ys := by
    intro input
    simp only [hxs, hys, List.mem_cons, List.not_mem_nil, or_false]
    tauto
  have hmade : t.ensurePath "out" = .ok (t.set ["out".toList] (.directory true)) := by
    rw [ht]
    decide +kernel
  have hfiles : (Stage.each (Run.filesOf Glob.expansion (t.set ["out".toList] (.directory true)))
      xs).result = .ok [["d/a.h".toList], ["b.c".toList], ["d/a.h".toList]] := by
    rw [ht, hxs]
    decide +kernel
  have hspelled : ∀ output made, o.output = some output → t.ensurePath output = .ok made →
      ∀ p q, Run.Resolves Glob.expansion made xs p → Run.Resolves Glob.expansion made xs q →
        Path.parts p = Path.parts q → p = q := by
    intro output made houtput hpath p q hp hq
    obtain rfl := Option.some.inj (ho.symm.trans houtput)
    obtain rfl := Except.ok.inj (hmade.symm.trans hpath)
    rw [← Run.mem_flatten_iff hfiles] at hp hq
    have hparts : ∀ p ∈ [["d/a.h".toList], ["b.c".toList], ["d/a.h".toList]].flatten,
        ∀ q ∈ [["d/a.h".toList], ["b.c".toList], ["d/a.h".toList]].flatten,
          Path.parts p = Path.parts q → p = q := by decide +kernel
    exact hparts p hp q hq
  obtain ⟨hexit, htree⟩ :=
    Options.run_inputs_congr o Glob.expansion (.text []) t xs ys hsame hspelled
  exact ⟨o, t, xs, ys, hxs, hys, ho, ht, hsame, hspelled, hexit, htree⟩

end LuaStubs
