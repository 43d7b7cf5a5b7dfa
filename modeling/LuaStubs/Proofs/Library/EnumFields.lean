import LuaStubs.Proofs.Library.Naming
import LuaStubs.Proofs.Library.Shape
import Mathlib.Data.List.Pairwise

namespace LuaStubs

/-- The names `e` in front of a field have been cut off. -/
def Field.Shortened (e : List Text) (f g : Field) : Prop :=
  g.type = f.type ∧ f.name = e.map .name ++ g.name ∧ g.name ≠ []

namespace Doc

/-- An enum of this name is declared on the doc. -/
def carriesEnum (e : List Text) (d : Doc) : Bool :=
  (d.attributes.filterMap Attribute.enum?).any (·.name == e)

/-- The doc declares no table, and its first class or enum is the enum `e`. -/
def DeclaresFirst (e : List Text) (d : Doc) : Prop :=
  d.has .tableDecl = false ∧
    d.attributes.findSome? Attribute.impliedTable? = some ⟨e, false, []⟩

section Carries
variable {e : List Text}

theorem carriesEnum_iff {d : Doc} :
    d.carriesEnum e = true ↔ ∃ enum, Attribute.enumDecl enum ∈ d.attributes ∧ enum.name = e := by
  rw [carriesEnum, List.any_eq_true]
  constructor
  · rintro ⟨enum, henum, hname⟩
    obtain ⟨a, ha, hae⟩ := List.mem_filterMap.mp henum
    cases a with
    | enumDecl enum' =>
      obtain rfl := Option.some.inj hae
      exact ⟨enum', ha, by simpa using hname⟩
    | _ => cases hae
  · rintro ⟨enum, ha, rfl⟩
    exact ⟨enum, List.mem_filterMap.mpr ⟨_, ha, rfl⟩, by simp⟩

theorem carriesEnum_foldl_absorb (d : Doc) (es : List Doc) :
    (es.foldl absorb d).carriesEnum e = (d :: es).any (carriesEnum e) := by
  have henums := contents_foldl_absorb (g := fun d => d.attributes.filterMap Attribute.enum?)
    (filterMap_absorb fun _ => rfl) d es
  rw [carriesEnum, henums, List.any_append, List.any_flatMap, List.any_cons]
  rfl

theorem not_carriesEnum_enumDoc (enums names : List Text) (d : Doc) :
    ¬(d.enumDoc enums names).carriesEnum e = true := by
  rw [carriesEnum_iff]
  rintro ⟨enum, ha, -⟩
  obtain ha | ha := List.mem_append.mp ha
  · obtain ⟨f, -, hf⟩ := List.mem_map.mp ha
    cases hf
  · cases List.mem_singleton.mp ha

end Carries

section First
variable {e : List Text} {d : Doc}

theorem DeclaresFirst.globalsAsFields (h : d.DeclaresFirst e) :
    d.globalsAsFields.DeclaresFirst e := by
  obtain ⟨hnone, himplied⟩ := h
  constructor
  · rw [has_eq_false_iff] at hnone ⊢
    intro a ha
    obtain ⟨b, hb, rfl⟩ := List.mem_map.mp ha
    have hkind := hnone b hb
    cases b with
    | global f => simp [Attribute.globalAsField, Attribute.kind]
    | _ => exact hkind
  · have hsame : Attribute.impliedTable? ∘ Attribute.globalAsField = Attribute.impliedTable? := by
      funext a
      cases a <;> rfl
    rw [Doc.globalsAsFields, List.findSome?_map, hsame, himplied]

/-- The table that the doc gets is that of its enum. -/
theorem DeclaresFirst.withTable (h : d.DeclaresFirst e) :
    d.withTable.tableKey? = some (dottedName e) ∧ d.withTable.carriesEnum e = true := by
  obtain ⟨hnone, himplied⟩ := h
  have htable : d.withTable =
      { d with attributes := d.attributes ++ [.tableDecl ⟨e, false, []⟩] } := by
    simp [Doc.withTable, hnone, himplied]
  rw [htable]
  constructor
  · have hbefore : d.attributes.findSome? Attribute.table? = none :=
      Option.map_eq_none_iff.mp (tableKey?_eq_none hnone)
    rw [tableKey?, table?, List.findSome?_append, hbefore]
    rfl
  · obtain ⟨a, ha, hfirst⟩ := List.exists_of_findSome?_eq_some himplied
    cases a with
    | enumDecl enum =>
      have hname : enum.name = e := congrArg TableDecl.name (Option.some.inj hfirst)
      exact carriesEnum_iff.mpr ⟨enum, List.mem_append_left _ ha, hname⟩
    | classDecl c => cases congrArg TableDecl.isLocal (Option.some.inj hfirst)
    | _ => cases hfirst

end First

section Fold
variable {ds : List Doc} {d : Doc}

theorem mem_foldIntoEnums_of_has (hd : d ∈ ds) (h : d.has .tableDecl = true) :
    d ∈ foldIntoEnums ds := by
  refine List.mem_flatMap.mpr ⟨d, hd, ?_⟩
  simp [splitEnumFields, h]

/-- A doc with a table and an enum is not one that brings fields. -/
theorem mem_of_mem_foldIntoEnums {e : List Text} {key : Text} (hd : d ∈ foldIntoEnums ds)
    (hkey : d.tableKey? = some key) (he : d.carriesEnum e = true) : d ∈ ds := by
  obtain ⟨d₀, hd₀, hd⟩ := List.mem_flatMap.mp hd
  obtain rfl | ⟨hnone, rfl | ⟨names, -, rfl⟩⟩ := of_mem_splitEnumFields hd
  · exact hd₀
  · have hrest : (d₀.withoutEnumFields (enumNames ds)).has .tableDecl = false :=
      has_eq_false_of_sublist List.filter_sublist hnone
    rw [tableKey?_eq_none hrest] at hkey
    cases hkey
  · exact absurd he (not_carriesEnum_enumDoc _ _ _)

theorem forall₂_shortened_enumDoc (enums e : List Text) (d : Doc) :
    List.Forall₂ (Field.Shortened e) (d.fields.filter (·.enum? enums = some e))
      (d.enumDoc enums e).fields := by
  have hfields : d.fields.zipIdx.map Prod.fst = d.fields := List.zipIdx_map_fst 0 d.fields
  have hleave : List.Forall₂ (fun o g => LeavesAs enums o (e, g)) _ _ := forall₂_enumDoc hfields e
  have hnumbered : d.fields.filter (·.enum? enums = some e) =
      (d.fields.zipIdx.filter fun o => o.1.enum? enums = some e).map Prod.fst := by
    conv_lhs => rw [← hfields, List.filter_map]
    rfl
  rw [hnumbered, List.forall₂_map_left_iff]
  refine hleave.imp ?_
  rintro o g ⟨henum, htype, hname⟩
  obtain ⟨-, hsplit, hrest⟩ := Field.name_of_enum? henum
  rw [← hname] at hsplit hrest
  exact ⟨htype, hsplit, hrest⟩

end Fold

end Doc

namespace Library

/-- Docs brought together by table, with fields at the tables of their enums. -/
def gathered (ds : List Doc) : List Doc := Doc.mergeByTable (Doc.foldIntoEnums (tabled ds))

/-- The enum `e` is declared on a doc of the table that is named like it. -/
def Housed (ds : List Doc) (e : List Text) : Prop :=
  ∃ d ∈ tabled ds, d.tableKey? = some (dottedName e) ∧ d.carriesEnum e = true

/-- The field `f` of the doc `d` has the enum `e` in front of its name and no table around it. -/
structure Leaves (ds : List Doc) (d : Doc) (f : Field) (e : List Text) : Prop where
  doc : d ∈ tabled ds
  table : d.has .tableDecl = false
  field : f ∈ d.fields
  enum : f.enum? (Doc.enumNames (tabled ds)) = some e

/-- The docs of the table `key` before they are brought together. -/
def ofTable (ds : List Doc) (key : Text) : List Doc :=
  (Doc.foldIntoEnums (tabled ds)).filter (·.tableKey? = some key)

/--
The doc `m` has the fields of `d` that belong to the enum `e`. It is the only doc of its table and
has the fields of all docs of this table, one of which brings those of `d`.
-/
structure BroughtTo (ds : List Doc) (d : Doc) (e : List Text) (m : Doc) : Prop where
  mem : m ∈ gathered ds
  table : m.tableKey? = some (dottedName e)
  only : ∀ m' ∈ gathered ds, m'.tableKey? = some (dottedName e) → m' = m
  fields : ∃ before donor after, ofTable ds (dottedName e) = before ++ donor :: after ∧
    List.Forall₂ (Field.Shortened e)
      (d.fields.filter (·.enum? (Doc.enumNames (tabled ds)) = some e)) donor.fields ∧
    m.fields = before.flatMap Doc.fields ++ (donor.fields ++ after.flatMap Doc.fields)

section Gathered
variable {ds : List Doc}

/-- The doc that all docs of one table have become. -/
theorem exists_mem_gathered {key : Text} {x : Doc} (hx : x ∈ ofTable ds key) :
    ∃ m ∈ gathered ds, m.tableKey? = some key ∧
      m.fields = (ofTable ds key).flatMap Doc.fields ∧
      ∀ e, m.carriesEnum e = (ofTable ds key).any (Doc.carriesEnum e) := by
  cases hall : ofTable ds key with
  | nil =>
    rw [hall] at hx
    cases hx
  | cons d es =>
    have hd : d ∈ ofTable ds key := by
      rw [hall]
      exact List.mem_cons_self
    have hkey : d.tableKey? = some key := by simpa using (List.mem_filter.mp hd).2
    refine ⟨es.foldl Doc.absorb d, (Doc.gathers_mergeByTable _).mem_of_filter hall,
      Doc.tableKey?_foldl_absorb hkey es, ?_, fun e => Doc.carriesEnum_foldl_absorb d es⟩
    rw [Doc.contents_foldl_absorb Doc.fields_absorb]
    rfl

theorem eq_of_mem_gathered {m m' : Doc} {key : Text} (hm : m ∈ gathered ds) (hm' : m' ∈ gathered ds)
    (hkey : m.tableKey? = some key) (hkey' : m'.tableKey? = some key) : m' = m := by
  have hsymm : Std.Symm fun x y : Doc => ∀ key, x.tableKey? = some key → y.tableKey? ≠ some key :=
    ⟨fun _ _ h key hy hx => h key hx hy⟩
  have hpairwise := (Doc.gathers_mergeByTable (Doc.foldIntoEnums (tabled ds))).pairwise_tableKey?
  by_contra hne
  exact hpairwise.forall hm hm' (Ne.symm hne) key hkey hkey'

theorem any_carriesEnum_ofTable (e : List Text) :
    (ofTable ds (dottedName e)).any (Doc.carriesEnum e) = true ↔ Housed ds e := by
  rw [List.any_eq_true]
  constructor
  · rintro ⟨x, hx, hcarries⟩
    obtain ⟨hfolded, hkey⟩ := List.mem_filter.mp hx
    have hkey : x.tableKey? = some (dottedName e) := by simpa using hkey
    exact ⟨x, Doc.mem_of_mem_foldIntoEnums hfolded hkey hcarries, hkey, hcarries⟩
  · rintro ⟨x, hx, hkey, hcarries⟩
    have hfolded := Doc.mem_foldIntoEnums_of_has hx (Doc.has_table_of_tableKey? hkey)
    exact ⟨x, List.mem_filter.mpr ⟨hfolded, by simpa using hkey⟩, hcarries⟩

theorem Leaves.exists_broughtTo {d : Doc} {f : Field} {e : List Text} (h : Leaves ds d f e) :
    ∃ m, BroughtTo ds d e m ∧ (m.carriesEnum e = true ↔ Housed ds e) := by
  have henum : e ∈ d.fieldEnums (Doc.enumNames (tabled ds)) :=
    Doc.mem_fieldEnums.mpr ⟨f, h.field, h.enum⟩
  have hdonor : d.enumDoc (Doc.enumNames (tabled ds)) e ∈ ofTable ds (dottedName e) := by
    refine List.mem_filter.mpr ⟨List.mem_flatMap.mpr ⟨d, h.doc, ?_⟩, ?_⟩
    · exact Doc.enumDoc_mem_splitEnumFields h.table henum
    · rw [Doc.enumDoc, Doc.tableKey?_bringing]
      exact decide_eq_true rfl
  obtain ⟨m, hm, hkey, hfields, hcarries⟩ := exists_mem_gathered hdonor
  obtain ⟨before, after, hall⟩ := List.append_of_mem hdonor
  refine ⟨m, ⟨hm, hkey, fun m' hm' => eq_of_mem_gathered hm hm' hkey, before, _, after, hall,
    Doc.forall₂_shortened_enumDoc _ e d, ?_⟩, ?_⟩
  · rw [hfields, hall, List.flatMap_append, List.flatMap_cons]
  · rw [hcarries, any_carriesEnum_ofTable]

/-- An enum stays with the table of its doc. -/
theorem exists_gathered_carriesEnum {e : List Text} {d : Doc} (hd : d ∈ tabled ds)
    (htable : d.has .tableDecl = true) (he : d.carriesEnum e = true) :
    ∃ m ∈ gathered ds, m.carriesEnum e = true := by
  obtain ⟨key, hkey⟩ := Doc.exists_tableKey?_of_has htable
  have hmem : d ∈ ofTable ds key :=
    List.mem_filter.mpr ⟨Doc.mem_foldIntoEnums_of_has hd htable, by simpa using hkey⟩
  obtain ⟨m, hm, -, -, hcarries⟩ := exists_mem_gathered hmem
  refine ⟨m, hm, ?_⟩
  rw [hcarries]
  exact List.any_eq_true.mpr ⟨d, hmem, he⟩

theorem housed_of_declaresFirst {e : List Text} {d : Doc} (hd : d ∈ ds) (h : d.DeclaresFirst e) :
    Housed ds e := by
  obtain ⟨hkey, hcarries⟩ := h.globalsAsFields.withTable
  exact ⟨d.globalsAsFields.withTable, List.mem_map_of_mem hd, hkey, hcarries⟩

end Gathered

/--
A field with an enum in front of its name comes to the one doc of the table that is named like the
enum. That doc carries the enum exactly when the enum was declared on a doc of this table, as it is
where it comes first on a doc without a table; otherwise another doc carries it.
-/
theorem fields_brought_to_enum (files : List (Text × Text)) (d : Doc) (f : Field) (e : List Text)
    (h : Leaves (SourceFile.docsOf files) d f e) :
    (∃ m, BroughtTo (SourceFile.docsOf files) d e m ∧
      (m.carriesEnum e = true ↔ Housed (SourceFile.docsOf files) e)) ∧
    (∃ m ∈ gathered (SourceFile.docsOf files), m.carriesEnum e = true) ∧
    ((∃ d₀ ∈ SourceFile.docsOf files, d₀.DeclaresFirst e) →
      Housed (SourceFile.docsOf files) e) := by
  have hnamed := wellNamed_docsOf files
  obtain ⟨d', hd', enum, henum, hname⟩ := Doc.exists_enum_of_enum? hnamed.tabled
    (hnamed.plain_tabled d h.doc f h.field) h.enum
  have hcarries : d'.carriesEnum e = true := Doc.carriesEnum_iff.mpr ⟨enum, henum, hname⟩
  have htable : d'.has .tableDecl = true := by
    obtain ⟨d₀, hd₀, rfl⟩ := List.mem_map.mp hd'
    have hfresh := Doc.fresh_tabled (SourceFile.declarations_of_mem_docsOf hd₀)
    exact hfresh.table (.inr (Doc.has_iff.mpr ⟨_, henum, rfl⟩))
  refine ⟨h.exists_broughtTo, exists_gathered_carriesEnum hd' htable hcarries, ?_⟩
  rintro ⟨d₀, hd₀, hfirst⟩
  exact housed_of_declaresFirst hd₀ hfirst

/-- The field may come before the enum. -/
theorem fields_brought_to_enum_early : ∃ (files : List (Text × Text)) (d : Doc) (f : Field),
    files = [("a.c".toList, "/*** @field Colors.RED 1 */ /*** @enum Colors */".toList)] ∧
    f.name = [.name "Colors".toList, .name "RED".toList] ∧
    Leaves (SourceFile.docsOf files) d f ["Colors"] ∧
    ∃ m, BroughtTo (SourceFile.docsOf files) d ["Colors"] m ∧ m.carriesEnum ["Colors"] = true := by
  obtain ⟨files, hfiles⟩ : ∃ files : List (Text × Text), files =
    [("a.c".toList, "/*** @field Colors.RED 1 */ /*** @enum Colors */".toList)] := ⟨_, rfl⟩
  let f : Field := ⟨[.name "Colors", .name "RED"], some (.literal ['1']), ['\n']⟩
  let d : Doc := { attributes := [.field f], path := some "a.c", start := ⟨1, 1⟩, stop := ⟨1, 28⟩ }
  let d₀ : Doc :=
    { attributes := [.enumDecl ⟨["Colors"], ['\n']⟩], path := some "a.c"
      start := ⟨1, 29⟩, stop := ⟨1, 49⟩ }
  have hleaves : Leaves (SourceFile.docsOf files) d f ["Colors"] := by
    rw [hfiles]
    exact ⟨by decide +kernel, by decide, List.mem_singleton_self f, by decide +kernel⟩
  have hfirst : d₀ ∈ SourceFile.docsOf files ∧ d₀.DeclaresFirst ["Colors"] := by
    rw [hfiles]
    exact ⟨by decide +kernel, by decide, rfl⟩
  obtain ⟨⟨m, hm, hcarries⟩, -, hhoused⟩ := fields_brought_to_enum files d f ["Colors"] hleaves
  exact ⟨files, d, f, hfiles, rfl, hleaves, m, hm, hcarries.mpr (hhoused ⟨d₀, hfirst⟩)⟩

/-- If the doc of an enum declares a table of another name, fields of the enum do not come to it. -/
theorem not_forall_field_on_enum : ¬∀ (files : List (Text × Text)) (d : Doc) (f : Field)
    (e : List Text), Leaves (SourceFile.docsOf files) d f e →
      ∃ m ∈ gathered (SourceFile.docsOf files), m.carriesEnum e = true ∧
        ∃ g ∈ m.fields, Field.Shortened e f g := by
  intro hall
  let files : List (Text × Text) :=
    [("a.c", "/*** @enum Colors\n * @table palette */\n/*** @field Colors.RED 1 */")]
  let f : Field := ⟨[.name "Colors", .name "RED"], some (.literal ['1']), ['\n']⟩
  let d : Doc := { attributes := [.field f], path := some "a.c", start := ⟨3, 1⟩, stop := ⟨3, 28⟩ }
  have hleaves : Leaves (SourceFile.docsOf files) d f ["Colors"] :=
    ⟨by decide +kernel, by decide, List.mem_singleton_self f, by decide +kernel⟩
  have hnone : ∀ m ∈ gathered (SourceFile.docsOf files), m.carriesEnum ["Colors"] = true →
      m.fields = [] := by
    decide +kernel
  obtain ⟨m, hm, hcarries, g, hg, -⟩ := hall files d f ["Colors"] hleaves
  rw [hnone m hm hcarries] at hg
  cases hg

end Library

end LuaStubs
