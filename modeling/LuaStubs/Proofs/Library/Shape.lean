import LuaStubs.Proofs.Library.Independence

namespace LuaStubs

namespace Doc

/-- A doc before anything is declared. -/
structure Fresh (d : Doc) : Prop extends Grounded d where
  declarations : d.declarations = []

theorem kind_of_impliedTable? {a : Attribute} :
    a.impliedTable?.isSome = true ↔ a.kind = .classDecl ∨ a.kind = .enumDecl := by
  cases a <;> simp [Attribute.impliedTable?, Attribute.kind]

theorem fresh_tabled {d : Doc} (h : d.declarations = []) : d.globalsAsFields.withTable.Fresh := by
  have hglobal : ∀ a ∈ d.globalsAsFields.attributes, a.kind ≠ .global := by
    intro a ha
    obtain ⟨b, -, rfl⟩ := List.mem_map.mp ha
    cases b <;> simp [Attribute.globalAsField, Attribute.kind]
  unfold withTable
  split
  · next ht => exact ⟨⟨fun _ => ht, has_eq_false_iff.mpr hglobal⟩, h⟩
  · split
    · next t _ =>
      refine ⟨⟨fun _ => has_iff.mpr ⟨.tableDecl t, by simp, rfl⟩, ?_⟩, h⟩
      rw [has_eq_false_iff]
      intro a ha
      obtain ha | ha := List.mem_append.mp ha
      · exact hglobal a ha
      · rw [List.mem_singleton.mp ha]
        simp [Attribute.kind]
    · next hnone =>
      refine ⟨⟨?_, has_eq_false_iff.mpr hglobal⟩, h⟩
      have hkind : ∀ a ∈ d.globalsAsFields.attributes,
          ¬(a.kind = .classDecl ∨ a.kind = .enumDecl) := by
        intro a ha hk
        have himplied := kind_of_impliedTable?.mpr hk
        rw [List.findSome?_eq_none_iff.mp hnone a ha] at himplied
        cases himplied
      rintro (hk | hk) <;> obtain ⟨a, ha, hk⟩ := has_iff.mp hk
      · exact absurd (Or.inl hk) (hkind a ha)
      · exact absurd (Or.inr hk) (hkind a ha)

theorem fresh_of_mem_splitEnumFields {enums : List Text} {d e : Doc} (h : d.Fresh)
    (he : e ∈ d.splitEnumFields enums) : e.Fresh := by
  obtain rfl | ⟨hnone, rfl | ⟨names, -, rfl⟩⟩ := of_mem_splitEnumFields he
  · exact h
  · have hsub : (d.withoutEnumFields enums).attributes.Sublist d.attributes :=
      List.filter_sublist
    refine ⟨⟨?_, has_eq_false_of_sublist hsub h.global⟩, h.declarations⟩
    -- a doc that is split has no table, so it is not that of a class or an enum
    intro hk
    rw [h.table (hk.imp (has_of_sublist hsub) (has_of_sublist hsub))] at hnone
    cases hnone
  · refine ⟨⟨fun _ => has_iff.mpr ⟨.tableDecl ⟨names, false, []⟩, ?_, rfl⟩, ?_⟩, rfl⟩
    · simp [enumDoc, bringing]
    rw [has_eq_false_iff]
    intro a ha
    obtain ha | ha := List.mem_append.mp ha
    · obtain ⟨f, -, rfl⟩ := List.mem_map.mp ha
      simp [Attribute.kind]
    · rw [List.mem_singleton.mp ha]
      simp [Attribute.kind]

theorem has_table_of_tableKey? {d : Doc} {key : Text} (h : d.tableKey? = some key) :
    d.has .tableDecl = true := by
  obtain ⟨t, ht, -⟩ := Option.map_eq_some_iff.mp h
  obtain ⟨a, ha, hat⟩ := List.exists_of_findSome?_eq_some ht
  cases a with
  | tableDecl u => exact has_iff.mpr ⟨_, ha, rfl⟩
  | _ => cases hat

theorem Fresh.absorb {d e : Doc} {key : Text} (hkey : d.tableKey? = some key) (hd : d.Fresh)
    (he : e.Fresh) : (d.absorb e).Fresh := by
  refine ⟨⟨fun _ => ?_, ?_⟩, hd.declarations⟩
  · obtain ⟨a, ha, hk⟩ := has_iff.mp (has_table_of_tableKey? hkey)
    exact has_iff.mpr ⟨a, List.mem_append_left _ ha, hk⟩
  · rw [has_eq_false_iff]
    intro a ha
    obtain ha | ha := List.mem_append.mp ha
    · exact has_eq_false_iff.mp hd.global a ha
    · exact has_eq_false_iff.mp he.global a (List.mem_of_mem_eraseP ha)

theorem Fresh.mergeEnums {d : Doc} (h : d.Fresh) : d.mergeEnums.Fresh := by
  refine ⟨⟨?_, ?_⟩, h.declarations⟩
  · rw [has_mergeEnums, has_mergeEnums, has_mergeEnums]
    exact h.table
  · rw [has_mergeEnums]
    exact h.global

/-- What a doc with declarations looks like, by the doc `m` that it was made of. -/
structure Shaped (m d : Doc) : Prop where
  table : d.has .tableDecl = false
  function : d.has .functionDecl = false
  global : d.has .global = false
  enum : d.attributes.countP (·.kind == .enumDecl) ≤ 1
  field : d.has .field = true → d.has .classDecl = true
  count : d.declarations.length = m.attributes.countP Attribute.declares +
    if m.has .field && !m.has .tableDecl then 1 else 0
  declared : d.has .classDecl = true ∨ d.has .enumDecl = true → d.declarations ≠ []

theorem Fresh.shaped_declare {m : Doc} (h : m.Fresh)
    (henum : m.attributes.countP (·.kind == .enumDecl) ≤ 1) :
    Shaped m m.assignFields.declare := by
  have hground := h.toGrounded.assignFields
  have hsub := sublist_declare m.assignFields
  have hgone {k : AttributeKind} (hk : k = .tableDecl ∨ k = .functionDecl) :
      m.assignFields.declare.has k = false := by
    rw [has_eq_false_iff]
    rintro a ha rfl
    have hdeclares := not_declares_of_mem_declare ha
    obtain hk | hk := hk <;> rw [Attribute.declares, hk] at hdeclares <;> cases hdeclares
  have hcount : m.assignFields.declare.declarations.length =
      m.attributes.countP Attribute.declares +
        if m.has .field && !m.has .tableDecl then 1 else 0 := by
    rw [hground.length_declare, length_assignFields, countP_assignFields, h.declarations]
    simp [Nat.add_comm]
  refine ⟨hgone (Or.inl rfl), hgone (Or.inr rfl), has_eq_false_of_sublist hsub hground.global, ?_,
    ?_, hcount, ?_⟩
  · refine (hsub.countP_le).trans (Nat.le_trans ?_ henum)
    rw [attributes_assignFields]
    split
    · exact Nat.le_refl _
    · exact List.filter_sublist.countP_le
  · intro hf
    exact has_class_of_has_field hf (has_table_of_has_field m (has_of_sublist hsub hf))
  · intro hk hnil
    -- the table that the class or the enum has is one of the declarations
    have ht := hground.table (hk.imp (has_of_sublist hsub) (has_of_sublist hsub))
    rw [has_assignFields m (by decide)] at ht
    obtain ⟨a, ha, hkind⟩ := has_iff.mp ht
    have hpos : 0 < m.attributes.countP Attribute.declares :=
      List.countP_pos_iff.mpr ⟨a, ha, by simp [Attribute.declares, hkind]⟩
    rw [hnil] at hcount
    simp at hcount
    omega

end Doc

namespace Library

theorem fresh_merged {ds : List Doc} (h : ∀ d ∈ ds, d.declarations = []) :
    ∀ m ∈ merged ds, m.Fresh := by
  have hfold : ∀ e ∈ Doc.foldIntoEnums (tabled ds), e.Fresh := by
    intro e he
    obtain ⟨d, hd, he⟩ := List.mem_flatMap.mp he
    obtain ⟨d₀, hd₀, rfl⟩ := List.mem_map.mp hd
    exact Doc.fresh_of_mem_splitEnumFields (Doc.fresh_tabled (h d₀ hd₀)) he
  intro m hm
  obtain ⟨e, he, rfl⟩ := List.mem_map.mp hm
  exact (Doc.forall_mem_mergeByTable (fun d e key => Doc.Fresh.absorb) hfold e he).mergeEnums

theorem linkDoc_eq (repo : Option Text) (d : Doc) :
    (linkDoc repo d).attributes = d.attributes ∧
    (linkDoc repo d).declarations = d.declarations ∧
    (linkDoc repo d).path = d.path ∧ (linkDoc repo d).start = d.start := by
  unfold linkDoc
  split <;> exact ⟨rfl, rfl, rfl, rfl⟩

/-- A link has no part in the shape of a doc. -/
theorem shaped_linkDoc {m d : Doc} (repo : Option Text) (h : Doc.Shaped m d) :
    Doc.Shaped m (linkDoc repo d) := by
  obtain ⟨hattributes, hdeclarations, -, -⟩ := linkDoc_eq repo d
  have hhas (k : AttributeKind) : (linkDoc repo d).has k = d.has k := by
    rw [Doc.has, hattributes]
    rfl
  constructor <;> simp only [hhas, hattributes, hdeclarations]
  · exact h.table
  · exact h.function
  · exact h.global
  · exact h.enum
  · exact h.field
  · exact h.count
  · exact h.declared

/-- The warning is about the declarations of the doc. -/
def Reports (w : Warning) (d : Doc) : Prop :=
  ∃ attributes, w = .conflictingDeclarations d.path d.start attributes d.declarations

/-- A doc with two declarations is not dropped, and there is one warning for it. -/
theorem forall₂_conflicts (repo : Option Text) (ps : List Doc) :
    List.Forall₂ Reports (ps.filterMap Doc.conflict?)
      ((((ps.map Doc.declare).filter (!·.isEmpty)).map (linkDoc repo)).filter
        (2 ≤ ·.declarations.length)) := by
  induction ps with
  | nil => exact .nil
  | cons p ps ih =>
    obtain ⟨-, hdeclarations, hpath, hstart⟩ := linkDoc_eq repo p.declare
    by_cases hmany : 2 ≤ p.declare.declarations.length
    · have hshown : p.declare.isEmpty = false := by
        cases hd : p.declare.declarations with
        | nil => simp [hd] at hmany
        | cons lua luas => simp [Doc.isEmpty, hd]
      have hwarn : p.conflict? = some (.conflictingDeclarations p.path p.start
          (p.attributes.map Attribute.text) p.declare.declarations) := if_pos hmany
      simp only [List.map_cons, List.filterMap_cons, hwarn, List.filter_cons, hshown,
        Bool.not_false, if_true, hdeclarations, hmany, decide_true]
      refine .cons ⟨p.attributes.map Attribute.text, ?_⟩ ih
      rw [hdeclarations, hpath, hstart, (Doc.place_declare p).1, (Doc.place_declare p).2]
    · have hnone : p.conflict? = none := if_neg hmany
      rw [List.filterMap_cons_none hnone, List.map_cons, List.filter_cons]
      split
      · rw [List.map_cons, List.filter_cons, if_neg (by simpa [hdeclarations] using hmany)]
        exact ih
      · exact ih

/--
The docs of a library have been made of docs that were brought together, and have the shape that
this gives them. The warnings are about those with two declarations or more, one for each and in
their order.
-/
theorem process_shape (repo : Option Text) (ds : List Doc) (h : ∀ d ∈ ds, d.declarations = []) :
    (∀ d ∈ process repo ds, ∃ m ∈ merged ds,
      d = linkDoc repo m.assignFields.declare ∧ Doc.Shaped m d) ∧
    List.Forall₂ Reports (Event.warnings (events repo ds))
      ((process repo ds).filter (2 ≤ ·.declarations.length)) := by
  constructor
  · intro d hd
    obtain ⟨e, he, rfl⟩ := List.mem_map.mp hd
    obtain ⟨p, hp, rfl⟩ := List.mem_map.mp (List.mem_filter.mp he).1
    obtain ⟨m, hm, rfl⟩ := List.mem_map.mp hp
    have henum : m.attributes.countP (·.kind == .enumDecl) ≤ 1 := by
      obtain ⟨e, -, rfl⟩ := List.mem_map.mp hm
      rw [Doc.mergeEnums, Doc.countP_enums_mergeEnums]
      exact Nat.min_le_left _ _
    exact ⟨m, hm, rfl, shaped_linkDoc repo ((fresh_merged h m hm).shaped_declare henum)⟩
  · rw [warnings_events]
    exact forall₂_conflicts repo (prepared ds)

/-- A class with a field, and a doc that declares the same table twice beside a function. -/
theorem process_shape_equal_tables : ∃ ds : List Doc,
    ds = [{ attributes := [.classDecl ⟨['C'], []⟩, .field ⟨[.name ['x']], none, []⟩] },
      { attributes := [.tableDecl ⟨[['T']], false, []⟩, .functionDecl ⟨[['f']], false, []⟩,
          .field ⟨[.name ['y']], none, []⟩, .tableDecl ⟨[['T']], false, []⟩] }] ∧
    (∀ d ∈ ds, d.declarations = []) ∧
    (process none ds).map (·.declarations.length) = [1, 3] ∧
    (∀ d ∈ process none ds, ∃ m ∈ merged ds,
      d = linkDoc none m.assignFields.declare ∧ Doc.Shaped m d) ∧
    List.Forall₂ Reports (Event.warnings (events none ds))
      ((process none ds).filter (2 ≤ ·.declarations.length)) := by
  obtain ⟨ds, hds⟩ : ∃ ds : List Doc,
    ds = [{ attributes := [.classDecl ⟨['C'], []⟩, .field ⟨[.name ['x']], none, []⟩] },
      { attributes := [.tableDecl ⟨[['T']], false, []⟩, .functionDecl ⟨[['f']], false, []⟩,
          .field ⟨[.name ['y']], none, []⟩, .tableDecl ⟨[['T']], false, []⟩] }] := ⟨_, rfl⟩
  have h : ∀ d ∈ ds, d.declarations = [] := by simp [hds]
  have hcount : (process none ds).map (·.declarations.length) = [1, 3] := by
    rw [hds]
    decide +kernel
  exact ⟨ds, hds, h, hcount, process_shape none ds h⟩

end Library

end LuaStubs
