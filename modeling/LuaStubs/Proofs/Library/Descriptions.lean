import LuaStubs.Proofs.Doc.Folding
import LuaStubs.Proofs.Doc.Grouping
import LuaStubs.Proofs.Text.Paragraphs

namespace LuaStubs

open Text (IsTight isWhite joinParagraphs)

namespace Doc

/-- All free text of a doc: its own and that of its attributes. -/
def descriptions (d : Doc) : List Text := d.description :: d.attributes.map Attribute.description

/-- The text stands in the description of the doc or of one of its attributes. -/
def Tells (d : Doc) (t : Text) : Prop := ∃ u ∈ d.descriptions, t <:+: u

theorem tells_iff {d : Doc} {t : Text} :
    d.Tells t ↔ t <:+: d.description ∨ ∃ a ∈ d.attributes, t <:+: a.description := by
  simp [Tells, descriptions]

theorem Tells.of_attribute {d : Doc} {t : Text} {a : Attribute} (ha : a ∈ d.attributes)
    (h : t <:+: a.description) : d.Tells t := tells_iff.mpr (.inr ⟨a, ha, h⟩)

theorem Tells.globalsAsFields {d : Doc} {t : Text} (h : d.Tells t) : d.globalsAsFields.Tells t := by
  obtain h | ⟨a, ha, h⟩ := tells_iff.mp h
  · exact tells_iff.mpr (.inl h)
  · refine .of_attribute (List.mem_map_of_mem ha) ?_
    cases a <;> exact h

theorem Tells.withTable {d : Doc} {t : Text} (h : d.Tells t) : d.withTable.Tells t := by
  unfold Doc.withTable
  split
  · exact h
  · split
    · obtain h | ⟨a, ha, h⟩ := tells_iff.mp h
      · exact tells_iff.mpr (.inl h)
      · exact .of_attribute (List.mem_append_left _ ha) h
    · exact h

section Moves
variable {t : Text} (ht : IsTight t)
include ht

section Split
variable {enums : List Text} {d : Doc}

/-- The fields that leave a doc say what they did, and the first of them what the doc did. -/
theorem exists_mem_describeFirst (description : Text) {fs : List (List Text × Field)}
    {p : List Text × Field} (hp : p ∈ fs) (h : t <:+: p.2.description) :
    ∃ q ∈ describeFirst description fs, q.1 = p.1 ∧ t <:+: q.2.description := by
  cases fs with
  | nil => cases hp
  | cons f fs =>
    obtain rfl | hp := List.mem_cons.mp hp
    · exact ⟨_, List.mem_cons_self, rfl, ht.infix_joinParagraphs_right description h⟩
    · exact ⟨p, List.mem_cons_of_mem _ hp, rfl, h⟩

theorem exists_mem_describeFirst_of_description {description : Text}
    {fs : List (List Text × Field)} (hfs : fs ≠ []) (h : t <:+: description) :
    ∃ q ∈ describeFirst description fs, t <:+: q.2.description := by
  cases fs with
  | nil => exact absurd rfl hfs
  | cons f fs => exact ⟨_, List.mem_cons_self, ht.infix_joinParagraphs_left f.2.description h⟩

omit ht in
/-- A field that leaves a doc comes to the doc of its enum. -/
theorem Tells.enumDoc {q : List Text × Field}
    (hq : q ∈ describeFirst d.description (d.enumFields enums)) (h : t <:+: q.2.description) :
    ∃ e ∈ d.enumDocs enums, e.Tells t := by
  refine ⟨d.enumDoc enums q.1, ?_, ?_⟩
  · rw [enumDocs_eq]
    refine List.mem_map_of_mem (List.mem_eraseDups.mpr ?_)
    rw [← fst_describeFirst d.description]
    exact List.mem_map_of_mem hq
  · refine .of_attribute (a := .field q.2) (List.mem_append_left _ (List.mem_map_of_mem ?_)) h
    exact List.mem_map_of_mem (List.mem_filter.mpr ⟨hq, beq_self_eq_true q.1⟩)

/-- A doc is split without a loss. -/
theorem Tells.splitEnumFields (enums : List Text) (h : d.Tells t) :
    ∃ e ∈ d.splitEnumFields enums, e.Tells t := by
  unfold Doc.splitEnumFields
  split
  · exact ⟨d, List.mem_singleton_self d, h⟩
  next hsplit =>
  have hleave : d.enumFields enums ≠ [] := by
    intro hnil
    simp [hnil] at hsplit
  obtain h | ⟨a, ha, h⟩ := tells_iff.mp h
  · obtain ⟨q, hq, htells⟩ := exists_mem_describeFirst_of_description ht hleave h
    obtain ⟨e, he, htells⟩ := Tells.enumDoc hq htells
    exact ⟨e, List.mem_append_right _ he, htells⟩
  by_cases hstay : a ∈ (d.withoutEnumFields enums).attributes
  · have hsome : ¬(d.withoutEnumFields enums).isEmpty = true := by
      intro hempty
      rw [attributes_of_isEmpty hempty] at hstay
      cases hstay
    refine ⟨d.withoutEnumFields enums, List.mem_append_left _ ?_, .of_attribute hstay h⟩
    rw [if_neg hsome]
    exact List.mem_singleton_self _
  · -- only a field that belongs to an enum does not stay
    obtain ⟨f, e, rfl, he⟩ : ∃ f e, a = .field f ∧ f.enum? enums = some e := by
      cases a with
      | field f =>
        cases he : f.enum? enums with
        | some e => exact ⟨f, e, rfl, he⟩
        | none => exact absurd (List.mem_filter.mpr ⟨ha, by simp [Attribute.field?, he]⟩) hstay
      | _ => exact absurd (List.mem_filter.mpr ⟨ha, rfl⟩) hstay
    have hmem : (e, { f with name := f.name.drop e.length }) ∈ d.enumFields enums :=
      List.mem_filterMap.mpr ⟨f, List.mem_filterMap.mpr ⟨_, ha, rfl⟩, by rw [he]; rfl⟩
    obtain ⟨q, hq, -, htells⟩ := exists_mem_describeFirst ht d.description hmem h
    obtain ⟨x, hx, htells⟩ := Tells.enumDoc hq htells
    exact ⟨x, List.mem_append_right _ hx, htells⟩

end Split

section Gather
variable {d e : Doc}

omit ht in
theorem table?_of_not_mem_dropTable {a : Attribute} (ha : a ∈ e.attributes)
    (hdrop : a ∉ e.dropTable) : e.table?.map TableDecl.description = some a.description := by
  rw [dropTable] at hdrop
  rw [table?]
  generalize e.attributes = as at ha hdrop
  induction as with
  | nil => cases ha
  | cons b as ih =>
    cases b with
    | tableDecl u =>
      obtain rfl | ha := List.mem_cons.mp ha
      · rfl
      · rw [List.eraseP_cons_of_pos rfl] at hdrop
        exact absurd ha hdrop
    | _ =>
      rw [List.eraseP_cons_of_neg (by simp [Attribute.kind]), List.mem_cons, not_or] at hdrop
      exact ih ((List.mem_cons.mp ha).resolve_left hdrop.1) hdrop.2

theorem Tells.absorb_left (h : d.Tells t) (e : Doc) : (d.absorb e).Tells t := by
  obtain h | ⟨a, ha, h⟩ := tells_iff.mp h
  · exact tells_iff.mpr (.inl (ht.infix_joinParagraphs_left _ (ht.infix_joinParagraphs_left _ h)))
  · exact .of_attribute (List.mem_append_left _ ha) h

/-- The table of a doc that is taken in is dropped, but not what it says. -/
theorem Tells.absorb_right (d : Doc) (h : e.Tells t) : (d.absorb e).Tells t := by
  obtain h | ⟨a, ha, h⟩ := tells_iff.mp h
  · exact tells_iff.mpr (.inl (ht.infix_joinParagraphs_left _ (ht.infix_joinParagraphs_right _ h)))
  by_cases hdrop : a ∈ e.dropTable
  · exact .of_attribute (List.mem_append_right _ hdrop) h
  · refine tells_iff.mpr (.inl (ht.infix_joinParagraphs_right _ ?_))
    rw [table?_of_not_mem_dropTable ha hdrop]
    exact h

theorem Tells.foldl_absorb {es : List Doc} (h : d.Tells t ∨ ∃ e ∈ es, e.Tells t) :
    (es.foldl absorb d).Tells t := by
  induction es generalizing d with
  | nil =>
    obtain h | ⟨e, he, -⟩ := h
    · exact h
    · cases he
  | cons x es ih =>
    apply ih
    obtain h | ⟨e, he, h⟩ := h
    · exact .inl (h.absorb_left ht x)
    · obtain rfl | he := List.mem_cons.mp he
      · exact .inl (Tells.absorb_right ht d h)
      · exact .inr ⟨e, he, h⟩

/-- What a doc says is said when it has been brought together with others. -/
theorem Gathers.exists_tells {ds rs : List Doc} (h : Gathers ds rs) (hd : d ∈ ds)
    (htells : d.Tells t) : ∃ r ∈ rs, r.Tells t := by
  induction h with
  | nil => cases hd
  | alone _ _ ih =>
    obtain rfl | hd := List.mem_cons.mp hd
    · exact ⟨d, List.mem_cons_self, htells⟩
    · obtain ⟨r, hr, htells⟩ := ih hd
      exact ⟨r, List.mem_cons_of_mem _ hr, htells⟩
  | @table first ds rs key _ _ ih =>
    obtain rfl | hd := List.mem_cons.mp hd
    · exact ⟨_, List.mem_cons_self, Tells.foldl_absorb ht (.inl htells)⟩
    by_cases hkey : d.tableKey? = some key
    · have hmem : d ∈ ds.filter (·.tableKey? = some key) :=
        List.mem_filter.mpr ⟨hd, by simpa using hkey⟩
      exact ⟨_, List.mem_cons_self, Tells.foldl_absorb ht (.inr ⟨d, hmem, htells⟩)⟩
    · obtain ⟨r, hr, htells⟩ := ih (List.mem_filter.mpr ⟨hd, by simpa using hkey⟩)
      exact ⟨r, List.mem_cons_of_mem _ hr, htells⟩

end Gather

/-- Of several enums the first says what all of them did. -/
theorem exists_mem_mergeEnums {as : List Attribute} {a : Attribute} (ha : a ∈ as)
    (h : t <:+: a.description) : ∃ b ∈ Attribute.mergeEnums as, t <:+: b.description := by
  fun_induction Attribute.mergeEnums as with
  | case1 => cases ha
  | case2 e rest =>
    obtain rfl | ha := List.mem_cons.mp ha
    · exact ⟨_, List.mem_cons_self, ht.infix_foldl_joinParagraphs EnumDecl.description (.inl h)⟩
    cases a with
    | enumDecl e' =>
      have hmem : e' ∈ rest.filterMap Attribute.enum? := List.mem_filterMap.mpr ⟨_, ha, rfl⟩
      exact ⟨_, List.mem_cons_self,
        ht.infix_foldl_joinParagraphs EnumDecl.description (.inr ⟨e', hmem, h⟩)⟩
    | _ => exact ⟨_, List.mem_cons_of_mem _ (List.mem_filter.mpr ⟨ha, rfl⟩), h⟩
  | case3 b rest _ ih =>
    obtain rfl | ha := List.mem_cons.mp ha
    · exact ⟨_, List.mem_cons_self, h⟩
    · obtain ⟨b', hb', h⟩ := ih ha
      exact ⟨b', List.mem_cons_of_mem _ hb', h⟩

theorem Tells.mergeEnums {d : Doc} (h : d.Tells t) : d.mergeEnums.Tells t := by
  obtain h | ⟨a, ha, h⟩ := tells_iff.mp h
  · exact tells_iff.mpr (.inl h)
  · obtain ⟨b, hb, h⟩ := exists_mem_mergeEnums ht ha h
    exact .of_attribute hb h

end Moves

end Doc

namespace Library

/--
Every description that holds something is found again, apart from white space around it, inside of
a description of the docs that have been brought together.
-/
theorem description_infix_merged (ds : List Doc) (t : Text) (ht : t ∈ ds.flatMap Doc.descriptions)
    (hw : isWhite t = false) :
    ∃ u ∈ (merged ds).flatMap Doc.descriptions, Text.trim t <:+: u := by
  have htight := Text.isTight_trim hw
  obtain ⟨d, hd, ht⟩ := List.mem_flatMap.mp ht
  have htells : d.Tells (Text.trim t) := ⟨t, ht, Text.trim_infix t⟩
  obtain ⟨e, he, htells⟩ := htells.globalsAsFields.withTable.splitEnumFields htight
    (Doc.enumNames (tabled ds))
  have hfold : e ∈ Doc.foldIntoEnums (tabled ds) :=
    List.mem_flatMap.mpr ⟨_, List.mem_map_of_mem hd, he⟩
  obtain ⟨r, hr, htells⟩ := (Doc.gathers_mergeByTable _).exists_tells htight hfold htells
  obtain ⟨u, hu, hinfix⟩ := htells.mergeEnums htight
  exact ⟨u, List.mem_flatMap.mpr ⟨_, List.mem_map_of_mem hr, hu⟩, hinfix⟩

/-- The description of a doc that is split up, with a field that goes to its enum. -/
theorem description_infix_merged_split : ∃ (ds : List Doc) (t : Text),
    ds = [{ attributes := [.enumDecl ⟨[['E']], " Numbers.\n"⟩] },
      { description := "  The first.\n"
        attributes := [.field ⟨[.name ['E'], .name ['X']], none, " One.\n"⟩] }] ∧
    t = "  The first.\n" ∧ t ∈ ds.flatMap Doc.descriptions ∧ isWhite t = false ∧
    ∃ u ∈ (merged ds).flatMap Doc.descriptions, "The first.".toList <:+: u := by
  obtain ⟨ds, hds⟩ : ∃ ds : List Doc,
      ds = [{ attributes := [.enumDecl ⟨[['E']], " Numbers.\n"⟩] },
        { description := "  The first.\n"
          attributes := [.field ⟨[.name ['E'], .name ['X']], none, " One.\n"⟩] }] := ⟨_, rfl⟩
  obtain ⟨t, ht⟩ : ∃ t : Text, t = "  The first.\n" := ⟨_, rfl⟩
  have hmem : t ∈ ds.flatMap Doc.descriptions := by
    rw [hds, ht]
    decide +kernel
  have hw : isWhite t = false := by
    rw [ht]
    decide +kernel
  have htrim : Text.trim t = "The first.".toList := by
    rw [ht]
    decide +kernel
  obtain ⟨u, hu, hinfix⟩ := description_infix_merged ds t hmem hw
  rw [htrim] at hinfix
  exact ⟨ds, t, hds, ht, hmem, hw, u, hu, hinfix⟩

end Library

end LuaStubs
