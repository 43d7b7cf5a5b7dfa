import LuaStubs.Proofs.Doc.Declarations
import LuaStubs.Proofs.FieldPath
import LuaStubs.Proofs.Text.Parts
import LuaStubs.Doc.Enums
import LuaStubs.Doc.Tables

namespace LuaStubs

theorem dottedName_inj {ms ns : List Text} (hm : ms ≠ []) (hn : ns ≠ []) (hms : ∀ n ∈ ms, '.' ∉ n)
    (hns : ∀ n ∈ ns, '.' ∉ n) (h : dottedName ms = dottedName ns) : ms = ns := by
  rw [← List.splitOn_intercalate '.' hms hm, ← List.splitOn_intercalate '.' hns hn]
  exact congrArg (List.splitOn '.') h

theorem enumPrefix?_eq_some {enums names e : List Text} {n : Nat}
    (h : enumPrefix? enums names n = some e) : ∃ m, 0 < m ∧ m ≤ n ∧ e = names.take m := by
  fun_induction enumPrefix? enums names n with
  | case1 => cases h
  | case2 n _ => exact ⟨n + 1, by omega, Nat.le_refl _, (Option.some.inj h).symm⟩
  | case3 n _ ih =>
    obtain ⟨m, hpos, hle, he⟩ := ih h
    exact ⟨m, hpos, by omega, he⟩

theorem dottedName_mem_of_enumPrefix? {enums names e : List Text} {n : Nat}
    (h : enumPrefix? enums names n = some e) : dottedName e ∈ enums := by
  fun_induction enumPrefix? enums names n with
  | case1 => cases h
  | case2 n hn =>
    obtain rfl := Option.some.inj h
    simpa using hn
  | case3 n _ ih => exact ih h

/-- No longer names are passed over. -/
theorem exists_enumPrefix? {enums names : List Text} {m n : Nat} (hpos : 0 < m) (hm : m ≤ n)
    (h : dottedName (names.take m) ∈ enums) :
    ∃ e, enumPrefix? enums names n = some e ∧ (names.take m).length ≤ e.length := by
  fun_induction enumPrefix? enums names n with
  | case1 => omega
  | case2 n _ =>
    refine ⟨_, rfl, ?_⟩
    rw [List.length_take, List.length_take]
    omega
  | case3 n hn ih =>
    have hne : m ≠ n + 1 := by
      rintro rfl
      exact hn (by simpa using h)
    exact ih (by omega)

/-- The name of its enum is cut off the name of a field, and something remains. -/
theorem Field.name_of_enum? {enums e : List Text} {f : Field} (h : f.enum? enums = some e) :
    e ≠ [] ∧ f.name = e.map .name ++ f.name.drop e.length ∧ f.name.drop e.length ≠ [] := by
  obtain ⟨m, hpos, hle, rfl⟩ := enumPrefix?_eq_some h
  have hfront : m ≤ f.name.frontNames.length := by omega
  have hname : m < f.name.length := by omega
  have hlen : (f.name.frontNames.take m).length = m := by
    rw [List.length_take, Nat.min_eq_left hfront]
  refine ⟨?_, ?_, ?_⟩
  · rw [← List.length_pos_iff, hlen]
    exact hpos
  · rw [hlen, ← FieldPath.take_eq_map_frontNames hfront, List.take_append_drop]
  · rw [← List.length_pos_iff, hlen, List.length_drop]
    omega

theorem Field.not_dot_mem_enum? {enums e : List Text} {f : Field} (hf : f.name.Plain)
    (h : f.enum? enums = some e) : ∀ n ∈ e, '.' ∉ n := by
  obtain ⟨hne, hname, hrest⟩ := Field.name_of_enum? h
  obtain hshort | hplain := hf
  · -- the enum takes one key at least and leaves one
    rw [hname, List.length_append, List.length_map] at hshort
    have he := List.length_pos_iff.mpr hne
    have hr := List.length_pos_iff.mpr hrest
    omega
  · intro n hn
    apply hplain
    rw [hname]
    exact List.mem_append_left _ (List.mem_map_of_mem hn)

namespace Doc

theorem mem_enumNames {ds : List Doc} {n : Text} :
    n ∈ enumNames ds ↔
      ∃ d ∈ ds, ∃ e, Attribute.enumDecl e ∈ d.attributes ∧ dottedName e.name = n := by
  have henum (a : Attribute) (e : EnumDecl) : a.enum? = some e ↔ a = .enumDecl e := by
    cases a <;> simp [Attribute.enum?]
  simp [enumNames, henum]

theorem tableKey?_eq_head? (d : Doc) :
    d.tableKey? = (d.attributes.filterMap Attribute.table?).head?.map
      fun t => dottedName t.name := by
  rw [tableKey?, table?, List.head?_filterMap]

theorem tableKey?_eq_none {d : Doc} (h : d.has .tableDecl = false) : d.tableKey? = none := by
  have hnone : d.table? = none := by
    rw [table?, List.findSome?_eq_none_iff]
    intro a ha
    have hk := has_eq_false_iff.mp h a ha
    cases a with
    | tableDecl t => exact absurd rfl hk
    | _ => rfl
  rw [tableKey?, hnone]
  rfl

theorem exists_tableKey?_of_has {d : Doc} (h : d.has .tableDecl = true) :
    ∃ key, d.tableKey? = some key := by
  cases hkey : d.tableKey? with
  | some key => exact ⟨key, rfl⟩
  | none =>
    obtain ⟨a, ha, hkind⟩ := has_iff.mp h
    have hnone := List.findSome?_eq_none_iff.mp (Option.map_eq_none_iff.mp hkey) a ha
    cases a with
    | tableDecl t => cases hnone
    | _ => cases hkind

section Split
variable (enums : List Text) (d : Doc)

theorem fields_withoutEnumFields :
    (d.withoutEnumFields enums).fields = d.fields.filter fun f => (f.enum? enums).isNone := by
  rw [fields, fields, withoutEnumFields, List.filterMap_filter, List.filter_filterMap]
  congr 1
  funext a
  cases a with
  | field f =>
    simp only [Attribute.field?]
    rfl
  | _ => rfl

theorem fields_bringing (e : List Text) (fs : List Field) : (d.bringing e fs).fields = fs := by
  have h : Attribute.field? ∘ Attribute.field = some := rfl
  rw [fields, bringing, List.filterMap_append, List.filterMap_map, h, List.filterMap_some]
  exact List.append_nil fs

theorem tableKey?_bringing (e : List Text) (fs : List Field) :
    (d.bringing e fs).tableKey? = some (dottedName e) := by
  have h : Attribute.table? ∘ Attribute.field = fun _ => none := rfl
  rw [tableKey?_eq_head?, bringing, List.filterMap_append, List.filterMap_map, h]
  simp [Attribute.table?]

theorem fst_describeFirst (description : Text) (fs : List (List Text × Field)) :
    (describeFirst description fs).map Prod.fst = fs.map Prod.fst := by
  cases fs <;> rfl

/-- The enums that fields of a doc belong to, each once. -/
def fieldEnums : List (List Text) := ((d.enumFields enums).map Prod.fst).eraseDups

/-- The doc that brings the fields of `d` to the table of the enum `e`. -/
def enumDoc (e : List Text) : Doc :=
  d.bringing e (((describeFirst d.description (d.enumFields enums)).filter fun p =>
    p.1 == e).map Prod.snd)

theorem enumDocs_eq : d.enumDocs enums = (d.fieldEnums enums).map (d.enumDoc enums) := by
  rw [enumDocs, fst_describeFirst]
  rfl

theorem mem_fieldEnums {enums : List Text} {d : Doc} {e : List Text} :
    e ∈ d.fieldEnums enums ↔ ∃ f ∈ d.fields, f.enum? enums = some e := by
  rw [fieldEnums, List.mem_eraseDups, List.mem_map]
  constructor
  · rintro ⟨p, hp, rfl⟩
    obtain ⟨f, hf, hfp⟩ := List.mem_filterMap.mp hp
    obtain ⟨e, he, rfl⟩ := Option.map_eq_some_iff.mp hfp
    exact ⟨f, hf, he⟩
  · rintro ⟨f, hf, he⟩
    refine ⟨(e, { f with name := f.name.drop e.length }), List.mem_filterMap.mpr ⟨f, hf, ?_⟩, rfl⟩
    rw [he]
    rfl

/-- A doc is left whole, or falls apart into what remains of it and a doc for each enum. -/
theorem of_mem_splitEnumFields {enums : List Text} {d x : Doc} (h : x ∈ d.splitEnumFields enums) :
    x = d ∨ d.has .tableDecl = false ∧
      (x = d.withoutEnumFields enums ∨ ∃ e ∈ d.fieldEnums enums, x = d.enumDoc enums e) := by
  unfold splitEnumFields at h
  split at h
  · exact .inl (List.mem_singleton.mp h)
  next hsplit =>
  simp only [Bool.or_eq_true, not_or, Bool.not_eq_true] at hsplit
  refine .inr ⟨hsplit.1, ?_⟩
  obtain h | h := List.mem_append.mp h
  · split at h
    · cases h
    · exact .inl (List.mem_singleton.mp h)
  · rw [enumDocs_eq] at h
    obtain ⟨e, he, rfl⟩ := List.mem_map.mp h
    exact .inr ⟨e, he, rfl⟩

theorem enumDoc_mem_splitEnumFields {enums e : List Text} {d : Doc} (hd : d.has .tableDecl = false)
    (he : e ∈ d.fieldEnums enums) : d.enumDoc enums e ∈ d.splitEnumFields enums := by
  have hfields : (d.enumFields enums).isEmpty = false := by
    obtain ⟨p, hp, -⟩ := List.mem_map.mp (List.mem_eraseDups.mp he)
    exact List.isEmpty_eq_false_iff_exists_mem.mpr ⟨p, hp⟩
  rw [splitEnumFields, hd, hfields, if_neg (by simp), enumDocs_eq]
  exact List.mem_append_right _ (List.mem_map_of_mem he)

theorem attributes_of_isEmpty {d : Doc} (h : d.isEmpty = true) : d.attributes = [] := by
  simp only [isEmpty, Bool.and_eq_true] at h
  exact List.isEmpty_iff.mp h.2

/-- What is neither a field nor a table stays with the doc that is split. -/
theorem filterMap_splitEnumFields {α : Type} {f : Attribute → Option α}
    (ht : ∀ t, f (.tableDecl t) = none) (hf : ∀ g, f (.field g) = none) :
    (d.splitEnumFields enums).flatMap (·.attributes.filterMap f) = d.attributes.filterMap f := by
  have hrest : (d.withoutEnumFields enums).attributes.filterMap f = d.attributes.filterMap f := by
    rw [withoutEnumFields, List.filterMap_filter]
    congr 1
    funext a
    cases a with
    | field g =>
      rw [hf g]
      exact ite_self none
    | _ => rfl
  have hbrought : (d.enumDocs enums).flatMap (·.attributes.filterMap f) = [] := by
    rw [List.flatMap_eq_nil_iff]
    intro e he
    obtain ⟨name, -, rfl⟩ := List.mem_map.mp he
    rw [List.filterMap_eq_nil_iff]
    intro a ha
    obtain ha | ha := List.mem_append.mp ha
    · obtain ⟨g, -, rfl⟩ := List.mem_map.mp ha
      exact hf g
    · rw [List.mem_singleton.mp ha]
      exact ht _
  unfold splitEnumFields
  split
  · exact List.append_nil _
  · rw [List.flatMap_append, hbrought, List.append_nil, ← hrest]
    split
    · next hempty => rw [attributes_of_isEmpty hempty]; rfl
    · exact List.append_nil _

end Split

end Doc

end LuaStubs
