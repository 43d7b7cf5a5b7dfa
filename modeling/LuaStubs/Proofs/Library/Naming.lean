import LuaStubs.Proofs.Library.Conservation
import LuaStubs.Proofs.Lua.Path

namespace LuaStubs

/-- What an attribute declares, other than a function, is named by a path. -/
def Attribute.IsNamed : Attribute → Prop
  | .classDecl c => Lua.IsPath c.tablePath
  | .tableDecl t => Lua.IsPath t.name
  | .enumDecl e => Lua.IsPath e.name
  | _ => True

theorem Attribute.isNamed_of_read {tag body : Text} {pos : Position} {r : AttributeReading}
    (h : read tag body pos = .ok r) : r.value.IsNamed := by
  have hfield (name rest : Text) (wrap : Field → Attribute) (hwrap : ∀ g, (wrap g).IsNamed) :
      (readField tag name rest pos wrap).value.IsNamed := by
    obtain ⟨g, hvalue, -⟩ := readField_reads tag name rest pos wrap
    rw [hvalue]
    exact hwrap g
  unfold read at h
  split at h
  · obtain rfl := Except.ok.inj h
    trivial
  next kind _ =>
  split at h
  · obtain rfl := Except.ok.inj h
    trivial
  next name rest _ _ =>
  cases kind with
  | fieldTag =>
    obtain rfl := Except.ok.inj h
    exact hfield name rest .field fun _ => trivial
  | globalTag =>
    obtain rfl := Except.ok.inj h
    exact hfield name rest .global fun _ => trivial
  | paramTag =>
    obtain rfl := Except.ok.inj h
    trivial
  | classTag | tableTag | enumTag =>
    simp only [readNamed] at h
    split at h
    · next hdotted =>
      obtain rfl := Except.ok.inj h
      exact Lua.isPath_splitOn hdotted
    · cases h
  | functionTag =>
    simp only [readNamed] at h
    split at h
    · obtain rfl := Except.ok.inj h
      trivial
    · cases h

namespace Doc

def IsNamed (d : Doc) : Prop := ∀ a ∈ d.attributes, a.IsNamed

theorem IsNamed.of_sublist {d e : Doc} (hd : d.IsNamed) (h : e.attributes.Sublist d.attributes) :
    e.IsNamed := fun a ha => hd a (h.subset ha)

theorem IsNamed.globalsAsFields {d : Doc} (h : d.IsNamed) : d.globalsAsFields.IsNamed := by
  intro a ha
  obtain ⟨b, hb, rfl⟩ := List.mem_map.mp ha
  cases b with
  | global f => trivial
  | _ => exact h _ hb

theorem IsNamed.withTable {d : Doc} (h : d.IsNamed) : d.withTable.IsNamed := by
  unfold Doc.withTable
  split
  · exact h
  · split
    · next t ht =>
      intro a ha
      obtain ha | ha := List.mem_append.mp ha
      · exact h a ha
      · obtain rfl := List.mem_singleton.mp ha
        obtain ⟨b, hb, hbt⟩ := List.exists_of_findSome?_eq_some ht
        have hnamed := h b hb
        cases b with
        | classDecl c =>
          obtain rfl := Option.some.inj hbt
          exact hnamed
        | enumDecl e =>
          obtain rfl := Option.some.inj hbt
          exact hnamed
        | _ => cases hbt
    · exact h

theorem IsNamed.absorb {d e : Doc} (hd : d.IsNamed) (he : e.IsNamed) : (d.absorb e).IsNamed := by
  intro a ha
  obtain ha | ha := List.mem_append.mp ha
  · exact hd a ha
  · exact he a (List.mem_of_mem_eraseP ha)

theorem IsNamed.mergeEnums {d : Doc} (h : d.IsNamed) : d.mergeEnums.IsNamed := by
  have hmerge (as : List Attribute) (has : ∀ a ∈ as, a.IsNamed) :
      ∀ a ∈ Attribute.mergeEnums as, a.IsNamed := by
    fun_induction Attribute.mergeEnums as with
    | case1 => exact has
    | case2 e rest =>
      rw [List.forall_mem_cons] at has ⊢
      exact ⟨has.1, fun a ha => has.2 a (List.mem_of_mem_filter ha)⟩
    | case3 a rest _ ih =>
      rw [List.forall_mem_cons] at has ⊢
      exact ⟨has.1, ih has.2⟩
  exact hmerge d.attributes h

theorem IsNamed.assignFields {d : Doc} (h : d.IsNamed) : d.assignFields.IsNamed := by
  apply h.of_sublist
  rw [attributes_assignFields]
  split
  · exact List.Sublist.refl _
  · exact List.filter_sublist

/-- The names that are cut off a field are those of an enum, one by one. -/
theorem exists_enum_of_enum? {ds : List Doc} (hds : ∀ d ∈ ds, d.IsNamed) {f : Field}
    (hf : f.name.Plain) {names : List Text} (h : f.enum? (enumNames ds) = some names) :
    ∃ d ∈ ds, ∃ e, Attribute.enumDecl e ∈ d.attributes ∧ e.name = names := by
  obtain ⟨d, hd, e, he, hname⟩ := mem_enumNames.mp (dottedName_mem_of_enumPrefix? h)
  have hpath : Lua.IsPath e.name := hds d hd _ he
  refine ⟨d, hd, e, he, ?_⟩
  exact dottedName_inj hpath.1 (Field.name_of_enum? h).1 hpath.not_dot_mem
    (Field.not_dot_mem_enum? hf h) hname

theorem isNamed_of_mem_foldIntoEnums {ds : List Doc} (hds : ∀ d ∈ ds, d.IsNamed)
    (hplain : ∀ d ∈ ds, ∀ f ∈ d.fields, f.name.Plain) {e : Doc} (he : e ∈ foldIntoEnums ds) :
    e.IsNamed := by
  obtain ⟨d, hd, he⟩ := List.mem_flatMap.mp he
  obtain rfl | ⟨-, rfl | ⟨names, hnames, rfl⟩⟩ := of_mem_splitEnumFields he
  · exact hds e hd
  · exact (hds d hd).of_sublist List.filter_sublist
  · obtain ⟨f, hf, hfe⟩ := mem_fieldEnums.mp hnames
    obtain ⟨d', hd', enum, henum, rfl⟩ := exists_enum_of_enum? hds (hplain d hd f hf) hfe
    have hpath : Lua.IsPath enum.name := hds d' hd' _ henum
    intro a ha
    obtain ha | ha := List.mem_append.mp ha
    · obtain ⟨g, -, rfl⟩ := List.mem_map.mp ha
      trivial
    · rw [List.mem_singleton.mp ha]
      exact hpath

end Doc

namespace Library

/-- Docs as they are read: their declarations have names, and fields are named by words. -/
structure WellNamed (ds : List Doc) : Prop where
  named : ∀ d ∈ ds, d.IsNamed
  plain : ∀ d ∈ ds, ∀ f ∈ d.given, f.name.Plain

theorem wellNamed_docsOf (files : List (Text × Text)) : WellNamed (SourceFile.docsOf files) := by
  constructor
  · intro d hd a ha
    obtain ⟨tag, body, pos, r, hread, rfl⟩ := SourceFile.exists_read_of_mem_docsOf hd ha
    exact Attribute.isNamed_of_read hread
  · intro d hd f hf
    obtain ⟨a, ha, hfa⟩ := List.mem_filterMap.mp hf
    obtain ⟨tag, body, pos, r, hread, rfl⟩ := SourceFile.exists_read_of_mem_docsOf hd ha
    exact Attribute.plain_of_read hread hfa

section WellNamed
variable {ds : List Doc} (h : WellNamed ds)
include h

theorem WellNamed.tabled : ∀ d ∈ tabled ds, d.IsNamed := by
  intro d hd
  obtain ⟨d₀, hd₀, rfl⟩ := List.mem_map.mp hd
  exact (h.named d₀ hd₀).globalsAsFields.withTable

theorem WellNamed.plain_tabled : ∀ d ∈ Library.tabled ds, ∀ f ∈ d.fields, f.name.Plain := by
  intro d hd f hf
  obtain ⟨d₀, hd₀, rfl⟩ := List.mem_map.mp hd
  rw [Doc.fields_tabled] at hf
  exact h.plain d₀ hd₀ f hf

theorem WellNamed.prepared : ∀ p ∈ prepared ds, p.IsNamed := by
  have hfolded : ∀ e ∈ Doc.foldIntoEnums (Library.tabled ds), e.IsNamed :=
    fun e he => Doc.isNamed_of_mem_foldIntoEnums h.tabled h.plain_tabled he
  have hgathered : ∀ e ∈ Doc.mergeByTable (Doc.foldIntoEnums (Library.tabled ds)), e.IsNamed :=
    Doc.forall_mem_mergeByTable (fun _ _ _ _ => Doc.IsNamed.absorb) hfolded
  intro p hp
  obtain ⟨m, hm, rfl⟩ := List.mem_map.mp hp
  obtain ⟨e, he, rfl⟩ := List.mem_map.mp hm
  exact (hgathered e he).mergeEnums.assignFields

end WellNamed

end Library

end LuaStubs
