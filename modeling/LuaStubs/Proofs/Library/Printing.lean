import LuaStubs.Proofs.Library.Naming
import LuaStubs.Proofs.Library.Shape
import LuaStubs.Proofs.Text.Tidy

namespace LuaStubs

open Text (StartsVisibly IsTight IsTidy)

theorem FieldPath.Visible.startsVisibly_expr {path : FieldPath} (h : path.Visible) :
    StartsVisibly path.expr := by
  obtain ⟨k, ks, rfl⟩ := List.exists_cons_of_ne_nil h.ne_nil
  apply StartsVisibly.append
  cases k with
  | index raw => exact ⟨'[', raw ++ [']'], rfl, by decide⟩
  | name n =>
    obtain ⟨hne, hchars⟩ := h.names n List.mem_cons_self
    obtain ⟨c, t, rfl⟩ := List.exists_cons_of_ne_nil hne
    rw [FieldKey.expr, Lua.nameKey]
    split
    · exact ⟨'[', _, rfl, by decide⟩
    · exact ⟨c, t, rfl, hchars c List.mem_cons_self⟩

namespace Lua

theorem IsPath.startsVisibly_pathExpr {names : List Text} (h : IsPath names) :
    StartsVisibly (pathExpr names) := by
  obtain ⟨n, ns, rfl⟩ := List.exists_cons_of_ne_nil h.1
  apply StartsVisibly.append
  obtain ⟨hne, hchars⟩ := isIdentChar_of_isIdent (h.2 n List.mem_cons_self)
  obtain ⟨c, t, rfl⟩ := List.exists_cons_of_ne_nil hne
  rw [nameKey]
  split
  · exact ⟨'[', _, rfl, by decide⟩
  · exact ⟨c, t, rfl, TypeExpr.not_isSpace_of_isIdentChar c (hchars c List.mem_cons_self)⟩

theorem startsVisibly_tableStub (isLocal : Bool) {name : List Text} (h : IsPath name)
    (fields : List Field) : StartsVisibly (tableStub isLocal name fields) := by
  have hfront : StartsVisibly
      ((if isLocal && name.length == 1 then "local ".toList else []) ++ pathExpr name) := by
    split
    · exact ⟨'l', _, rfl, by decide⟩
    · exact h.startsVisibly_pathExpr
  exact ((hfront.append _).append _).append _

end Lua

theorem Field.startsVisibly_assignment {f : Field} (h : f.name.Visible) :
    StartsVisibly (f.assignment []) := by
  have hline : StartsVisibly ([] ++ f.name.expr ++ " = ".toList ++ f.initialValue) :=
    (h.startsVisibly_expr.append _).append _
  unfold assignment
  split
  · exact hline
  · next hremark => exact ((Lua.startsVisibly_comment hremark).append _).append _

theorem Attribute.DeclaredAs.startsVisibly {a : Attribute} {lua : Text} (h : a.DeclaredAs lua)
    (hnamed : a.IsNamed) (hglobal : a.kind ≠ .global) : StartsVisibly lua := by
  cases h with
  | table t fields => exact Lua.startsVisibly_tableStub _ hnamed fields
  | classDecl c => exact Lua.startsVisibly_tableStub _ hnamed []
  | enumDecl e => exact Lua.startsVisibly_tableStub _ hnamed []
  | function f params => exact ⟨'f', _, rfl, by decide⟩
  | global f => exact absurd rfl hglobal

namespace Doc

/-- Every declaration of the doc begins with something visible. -/
def DeclaresVisibly (d : Doc) : Prop := ∀ lua ∈ d.declarations, StartsVisibly lua

theorem DeclaresVisibly.declares {d : Doc} (h : d.DeclaresVisibly) : d.Declares :=
  fun lua hl => (h lua hl).not_white

theorem DeclaresVisibly.assignFields {d : Doc} (h : d.DeclaresVisibly)
    (hfields : ∀ f ∈ d.fields, f.name.Visible) : d.assignFields.DeclaresVisibly := by
  unfold Doc.assignFields
  split
  · exact h
  · next hsome =>
    intro lua hl
    obtain hl | hl := List.mem_append.mp hl
    · exact h lua hl
    rw [List.mem_singleton.mp hl]
    cases hfs : d.fields with
    | nil => simp [hfs] at hsome
    | cons f fs =>
      have hfirst := Field.startsVisibly_assignment (hfields f (by simp [hfs]))
      rw [List.map_cons, Text.intercalate_cons]
      exact hfirst.append _

theorem DeclaresVisibly.declare {d : Doc} (h : d.DeclaresVisibly) (hnamed : d.IsNamed)
    (hground : d.Grounded) : d.declare.DeclaresVisibly := by
  intro lua hl
  obtain hl | ⟨a, ha, hlua⟩ := declaredAs_of_mem_declare hl
  · exact h lua hl
  · exact hlua.startsVisibly (hnamed a ha) (has_eq_false_iff.mp hground.global a ha)

theorem isTight_text {d : Doc} (he : d.isEmpty = false) (h : d.DeclaresVisibly) :
    IsTight d.text := by
  have hcomment : Lua.comment [] d.remark = [] ∨ StartsVisibly (Lua.comment [] d.remark) := by
    by_cases hremark : d.remark = []
    · exact .inl (if_pos hremark)
    · exact .inr (Lua.startsVisibly_comment hremark)
  cases hd : d.declarations with
  | nil =>
    have hremark : d.remark ≠ [] := by
      intro hnil
      have hvisible := not_white_remark hd he
      rw [hnil] at hvisible
      cases hvisible
    apply Text.isTight_joinParts
    · simpa [hd] using hcomment
    · exact ⟨_, List.mem_cons_self, (Lua.startsVisibly_comment hremark).ne_nil⟩
  | cons lua luas =>
    have hlua : StartsVisibly lua := h lua (by simp [hd])
    apply Text.isTight_joinParts
    · simpa [hd] using ⟨hcomment, Or.inr hlua⟩
    · exact ⟨lua, by simp [hd], hlua.ne_nil⟩

theorem shown_eq_map {ds : List Doc} (he : ∀ d ∈ ds, d.isEmpty = false) :
    shown ds = ds.map text := by
  rw [shown, List.filter_eq_self.mpr]
  simpa using he

theorem isTidy_texts {ds : List Doc} (he : ∀ d ∈ ds, d.isEmpty = false)
    (h : ∀ d ∈ ds, d.DeclaresVisibly) : IsTidy (texts ds) := by
  rw [texts_eq, shown_eq_map he]
  by_cases hne : ds = []
  · rw [hne]
    exact Text.isTidy_nil
  · apply IsTight.isTidy_trimLineEnds
    apply Text.isTight_intercalate
    · simpa using hne
    · intro t ht
      obtain ⟨d, hd, rfl⟩ := List.mem_map.mp ht
      exact isTight_text (he d hd) (h d hd)

end Doc

theorem Field.BecomesOn.visible {key : Option Text} {f g : Field} (h : BecomesOn key f g)
    (hf : f.name.Visible) : g.name.Visible := by
  obtain ⟨-, hname | ⟨names, -, hname, hne, -⟩⟩ := h
  · rw [hname]
    exact hf
  · refine ⟨hne, fun n hn => hf.names n ?_⟩
    rw [hname]
    exact List.mem_append_right _ hn

namespace Library

/-- The fields of docs that have been brought together are named visibly. -/
theorem visible_fields_merged (files : List (Text × Text)) {d : Doc} {f : Field}
    (hd : d ∈ merged (SourceFile.docsOf files)) (hf : f ∈ d.fields) : f.name.Visible := by
  have hgiven : ∀ e ∈ SourceFile.docsOf files, ∀ g ∈ e.given,
      g.name.Plain ∧ g.name.Visible := by
    intro e he g hg
    obtain ⟨a, ha, hga⟩ := List.mem_filterMap.mp hg
    obtain ⟨tag, body, pos, r, hread, rfl⟩ := SourceFile.exists_read_of_mem_docsOf he ha
    obtain ⟨word, hne, hword, hname⟩ := Attribute.exists_word_of_read hread hga
    rw [hname]
    exact ⟨FieldPath.plain_ofWord word, FieldPath.visible_ofWord hne hword⟩
  obtain ⟨ts, hts⟩ := exists_tracks_merged fun e he g hg => (hgiven e he g hg).1
  rw [← hts.docs] at hd
  obtain ⟨⟨os, d⟩, ht, rfl⟩ := List.mem_map.mp hd
  have htraced := (hts.traced _ ht).fields
  obtain ⟨i, rfl⟩ := List.mem_iff_get.mp hf
  have hi : i < os.length := by
    rw [htraced.length_eq]
    exact i.isLt
  have horigin : os[i] ∈ ((SourceFile.docsOf files).flatMap Doc.given).zipIdx :=
    hts.perm.subset (List.mem_flatMap.mpr ⟨_, ht, List.getElem_mem hi⟩)
  obtain ⟨e, he, hg⟩ := List.mem_flatMap.mp (List.fst_mem_of_mem_zipIdx horigin)
  exact (htraced.get hi i.isLt).visible (hgiven e he _ hg).2

theorem isEmpty_linkDoc (repo : Option Text) (d : Doc) : (linkDoc repo d).isEmpty = d.isEmpty := by
  unfold linkDoc
  split <;> rfl

theorem declaresVisibly_process (repo : Option Text) (files : List (Text × Text)) :
    ∀ d ∈ process repo (SourceFile.docsOf files), d.isEmpty = false ∧ d.DeclaresVisibly := by
  intro d hd
  obtain ⟨e, he, rfl⟩ := List.mem_map.mp hd
  obtain ⟨he, hshown⟩ := List.mem_filter.mp he
  obtain ⟨p, hp, rfl⟩ := List.mem_map.mp he
  obtain ⟨m, hm, hmp⟩ := List.mem_map.mp hp
  have hfresh : m.Fresh :=
    fresh_merged (fun _ hd => SourceFile.declarations_of_mem_docsOf hd) m hm
  have hnone : m.DeclaresVisibly := by
    intro lua hl
    rw [hfresh.declarations] at hl
    cases hl
  have hassigned : p.DeclaresVisibly := by
    rw [← hmp]
    exact hnone.assignFields fun f hf => visible_fields_merged files hm hf
  have hground : p.Grounded := by
    rw [← hmp]
    exact hfresh.toGrounded.assignFields
  have hdeclared := hassigned.declare ((wellNamed_docsOf files).prepared p hp) hground
  constructor
  · rw [isEmpty_linkDoc]
    simpa using hshown
  · rw [Doc.DeclaresVisibly, (linkDoc_eq repo p.declare).2.1]
    exact hdeclared

/-- After the last line of the header comes nothing, or an empty line and a tidy body. -/
theorem suffix_withHeader (sources : List Text) {body : Text} (h : IsTidy body) :
    "---@meta\n".toList ++ (if body = [] then [] else '\n' :: body ++ ['\n']) <:+
      withHeader sources body := by
  obtain ⟨front, hne, hheader⟩ : ∃ front, front ≠ [] ∧
      headerLines sources = front ++ ["---@meta".toList] := ⟨_, by simp, rfl⟩
  have hlines : ['\n'].intercalate (headerLines sources) =
      ['\n'].intercalate front ++ '\n' :: "---@meta".toList := by
    rw [hheader, Text.intercalate_append _ hne (by simp), List.append_assoc]
    rfl
  have hmeta : Text.trimLineEnds "---@meta".toList = "---@meta".toList := by decide
  have hbody : Text.trimLineEnds (if body = [] then [] else '\n' :: body ++ ['\n']) =
      if body = [] then [] else '\n' :: body ++ ['\n'] := by
    split
    · rfl
    · change Text.trimLineEnds ([] ++ '\n' :: (body ++ '\n' :: [])) = _
      rw [Text.trimLineEnds_append, Text.trimLineEnds_append, h.trimLineEnds_eq]
      rfl
  rw [withHeader, hlines]
  generalize (if body = [] then [] else '\n' :: body ++ ['\n']) = tail at hbody ⊢
  have htext : ['\n'].intercalate front ++ '\n' :: "---@meta".toList ++ ['\n'] ++ tail =
      ['\n'].intercalate front ++ '\n' :: ("---@meta".toList ++ '\n' :: tail) := by
    simp only [List.append_assoc, List.cons_append, List.nil_append]
  rw [htext, Text.trimLineEnds_append, Text.trimLineEnds_append, hmeta, hbody]
  exact ⟨Text.trimLineEnds (['\n'].intercalate front) ++ ['\n'], by simp⟩

/-- What is printed of the docs of some files, under no header. -/
def body (repo : Option Text) (files : List (Text × Text)) : Text :=
  Doc.texts (process repo (SourceFile.docsOf files))

/--
The declarations of a library are printed tidily, and none are printed only if there are no docs.
Under a header they stand as they are, with an empty line above and a single newline below them.
-/
theorem isTidy_body (repo : Option Text) (files : List (Text × Text)) (sources : List Text) :
    IsTidy (body repo files) ∧
    (body repo files = [] ↔ process repo (SourceFile.docsOf files) = []) ∧
    (body repo files ≠ [] → "---@meta\n\n".toList ++ body repo files ++ ['\n'] <:+
      withHeader sources (body repo files)) ∧
    (body repo files = [] → "---@meta\n".toList <:+ withHeader sources (body repo files)) := by
  have hdocs := declaresVisibly_process repo files
  have hshown := fun d hd => (hdocs d hd).1
  have hvisible := fun d hd => (hdocs d hd).2
  have htidy : IsTidy (body repo files) := Doc.isTidy_texts hshown hvisible
  have hheader := suffix_withHeader sources htidy
  refine ⟨htidy, ?_, ?_, ?_⟩
  · rw [body, Doc.texts_eq_nil_iff fun d hd => (hvisible d hd).declares, Doc.shown_eq_map hshown,
      List.map_eq_nil_iff]
  · intro hne
    simpa [hne] using hheader
  · intro hnil
    simpa [hnil] using hheader

/-- A text with blanks around it, a table with its fields, and a field that has no value. -/
theorem isTidy_body_fields : ∃ files : List (Text × Text),
    files = [("a.c".toList, ("/***   Text.\t */ /***\n * @table t\n * @field x 1\n" ++
      " * @field y integer Why.  \n */ /*** @global g.h */").toList),
      ("b.c".toList, "/*** */".toList)] ∧
    body none files = ("---Text.\n\nt = \x7b\n\tx = 1,\n\n\t---@type integer Why.\n" ++
      "\ty = nil\n\x7d\n\ng.h = nil").toList ∧
    IsTidy (body none files) ∧
    "---@meta\n\n".toList ++ body none files ++ ['\n'] <:+ withHeader [] (body none files) := by
  refine ⟨_, rfl, ?_, ?_, ?_⟩
  · decide +kernel
  · exact (isTidy_body none _ []).1
  · exact (isTidy_body none _ []).2.2.1 (by decide +kernel)

end Library

end LuaStubs
