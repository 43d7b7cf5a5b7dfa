import LuaStubs.Doc.Printer
import LuaStubs.Proofs.Attribute.RoundTrip
import LuaStubs.Proofs.Doc.Declarations
import LuaStubs.Proofs.Text.NormalForm
import LuaStubs.Proofs.Text.Paragraphs

namespace LuaStubs

open Text (isWhite trimLineEnds)

theorem Attribute.not_white_text (a : Attribute) : isWhite a.text = false := by
  rw [text_eq, List.cons_append, Text.trimEnd_cons '@' _ (by decide)]
  rfl

theorem Lua.startsVisibly_comment {t : Text} (h : t ≠ []) :
    Text.StartsVisibly (comment [] t) := by
  rw [comment, if_neg h]
  cases hl : t.splitOn '\n' with
  | nil => exact absurd hl (List.splitOn_ne_nil '\n' t)
  | cons l ls =>
    rw [List.map_cons, Text.intercalate_cons]
    exact ⟨'-', _, rfl, by decide⟩

theorem Field.not_white_assignment (indent : Text) (f : Field) :
    isWhite (f.assignment indent) = false := by
  have hline : '=' ∈ indent ++ f.name.expr ++ " = ".toList ++ f.initialValue :=
    List.mem_append_left _ (List.mem_append_right _ (by decide))
  have hmem : '=' ∈ f.assignment indent := by
    unfold assignment
    split
    · exact hline
    · exact List.mem_append_right _ hline
  exact Text.not_white_of_mem hmem (by decide)

theorem Lua.not_white_tableStub (isLocal : Bool) (name : List Text) (fields : List Field) :
    isWhite (tableStub isLocal name fields) = false := by
  have hmem : '\x7d' ∈ tableStub isLocal name fields := List.mem_append_right _ (by decide)
  exact Text.not_white_of_mem hmem (by decide)

theorem FunctionDecl.not_white_stub (f : FunctionDecl) (params : List Param) :
    isWhite (f.stub params) = false := by
  have hmem : ')' ∈ f.stub params := List.mem_append_right _ (by decide)
  exact Text.not_white_of_mem hmem (by decide)

theorem Attribute.DeclaredAs.not_white {a : Attribute} {lua : Text} (h : a.DeclaredAs lua) :
    isWhite lua = false := by
  cases h with
  | table | classDecl | enumDecl => exact Lua.not_white_tableStub _ _ _
  | function f params => exact f.not_white_stub params
  | global f => exact f.not_white_assignment []

namespace Doc

/-- No declaration of the doc is white. -/
def Declares (d : Doc) : Prop := ∀ lua ∈ d.declarations, isWhite lua = false

theorem Declares.declare {d : Doc} (h : d.Declares) : d.declare.Declares := by
  intro lua hl
  obtain hl | ⟨a, -, hlua⟩ := declaredAs_of_mem_declare hl
  · exact h lua hl
  · exact hlua.not_white

theorem Declares.assignFields {d : Doc} (h : d.Declares) : d.assignFields.Declares := by
  unfold Doc.assignFields
  split
  · exact h
  · next hf =>
    intro lua hl
    obtain hl | hl := List.mem_append.mp hl
    · exact h lua hl
    rw [List.mem_singleton.mp hl]
    cases hfs : d.fields with
    | nil => simp [hfs] at hf
    | cons f fs =>
      exact Text.not_white_of_infix (Text.infix_intercalate _ (List.mem_cons_self ..))
        (f.not_white_assignment [])

/-- A doc without a declaration has something to say. -/
theorem not_white_remark {d : Doc} (hd : d.declarations = []) (he : d.isEmpty = false) :
    isWhite d.remark = false := by
  rw [isEmpty, hd] at he
  by_cases hdesc : isWhite d.description = true
  · cases ha : d.attributes with
    | nil => simp [hdesc, ha] at he
    | cons a as =>
      refine Text.not_white_joinParts _
        (p := ['\n'].intercalate (d.attributes.map Attribute.text)) (by simp) ?_
      rw [ha, List.map_cons]
      exact Text.not_white_of_infix (Text.infix_intercalate _ (List.mem_cons_self ..))
        a.not_white_text
  · refine Text.not_white_joinParts _ (List.mem_cons_self ..) ?_
    rw [Text.isWhite_trimStart]
    simpa using hdesc

/-- A doc that holds something shows in the text. -/
theorem not_white_text {d : Doc} (he : d.isEmpty = false) (h : d.Declares) :
    isWhite d.text = false := by
  cases hd : d.declarations with
  | cons lua luas =>
    refine Text.not_white_joinParts _ (p := lua) (by simp [hd]) (h lua (by simp [hd]))
  | nil =>
    have hremark := not_white_remark hd he
    have hne : d.remark ≠ [] := by
      intro hnil
      rw [hnil] at hremark
      cases hremark
    exact Text.not_white_joinParts _ (List.mem_cons_self ..)
      (Lua.startsVisibly_comment hne).not_white

/-- The texts of the docs that hold something. -/
def shown (ds : List Doc) : List Text := (ds.filter (!·.isEmpty)).map text

theorem texts_eq (ds : List Doc) :
    texts ds = trimLineEnds (['\n', '\n'].intercalate (shown ds)) := by
  have hsep : "\n\n".toList = ['\n', '\n'] := by decide
  exact congrArg (fun sep => trimLineEnds (sep.intercalate (shown ds))) hsep

theorem texts_eq_nil_iff {ds : List Doc} (h : ∀ d ∈ ds, d.Declares) :
    texts ds = [] ↔ shown ds = [] := by
  constructor
  · intro hnil
    rw [texts_eq] at hnil
    have hw := Text.isWhite_of_trimLineEnds_eq_nil hnil
    cases hs : shown ds with
    | nil => rfl
    | cons t ts =>
      have hmem : t ∈ shown ds := by simp [hs]
      obtain ⟨d, hd, rfl⟩ := List.mem_map.mp hmem
      obtain ⟨hd, he⟩ := List.mem_filter.mp hd
      have hvisible := not_white_text (by simpa using he) (h d hd)
      rw [Text.not_white_of_infix (Text.infix_intercalate _ hmem) hvisible] at hw
      cases hw
  · intro hnil
    rw [texts_eq, hnil]
    rfl

/-- The texts of two collections, with a blank line between them if both hold something. -/
theorem texts_append {ds es : List Doc} (hd : ∀ d ∈ ds, d.Declares) (he : ∀ e ∈ es, e.Declares) :
    texts (ds ++ es) = ['\n', '\n'].intercalate ([texts ds, texts es].filter (· ≠ [])) := by
  have hshown : shown (ds ++ es) = shown ds ++ shown es := by
    rw [shown, List.filter_append, List.map_append]
    rfl
  have hd := texts_eq_nil_iff hd
  have he := texts_eq_nil_iff he
  by_cases hds : shown ds = []
  · have hright : texts (ds ++ es) = texts es := by
      rw [texts_eq, texts_eq, hshown, hds, List.nil_append]
    rw [hd.mpr hds, hright]
    by_cases hes : texts es = [] <;> simp [hes]
  · by_cases hes : shown es = []
    · have hleft : texts (ds ++ es) = texts ds := by
        rw [texts_eq, texts_eq, hshown, hes, List.append_nil]
      rw [he.mpr hes, hleft]
      simp [mt hd.mp hds]
    · have hboth : texts (ds ++ es) = texts ds ++ ['\n', '\n'] ++ texts es := by
        rw [texts_eq, hshown, Text.intercalate_append _ hds hes, List.append_assoc, texts_eq,
          texts_eq, List.append_assoc]
        change trimLineEnds (_ ++ '\n' :: ([] ++ '\n' :: _)) = _
        rw [Text.trimLineEnds_append, Text.trimLineEnds_append]
        rfl
      rw [hboth]
      simp [mt hd.mp hds, mt he.mp hes, List.intercalate_cons_cons]

end Doc

end LuaStubs
