import LuaStubs.Library
import Mathlib.Data.List.Basic

namespace LuaStubs.Doc

/-- A doc keeps its table when it takes in another. -/
theorem tableKey?_absorb {d e : Doc} {key : Text} (h : d.tableKey? = some key) :
    (d.absorb e).tableKey? = some key := by
  obtain ⟨t, ht, hkey⟩ := Option.map_eq_some_iff.mp h
  have happ : (d.absorb e).table? = some t := by
    have hfound : d.attributes.findSome? Attribute.table? = some t := ht
    rw [table?, absorb, List.findSome?_append, hfound]
    rfl
  rw [tableKey?, happ]
  exact congrArg some hkey

theorem place?_eq_none {key : Text} {e : Doc} {rs : List Doc}
    (h : ∀ r ∈ rs, r.tableKey? ≠ some key) : place? key e rs = none := by
  induction rs with
  | nil => rfl
  | cons r rs ih =>
    rw [place?, if_neg (h r (by simp)), ih fun r' hr' => h r' (List.mem_cons_of_mem r hr')]
    rfl

/-- Docs of other tables have no part in where a doc is placed. -/
theorem place?_append {key : Text} {e : Doc} (ds : List Doc) {rs : List Doc}
    (h : ∀ r ∈ rs, r.tableKey? ≠ some key) :
    place? key e (ds ++ rs) = (place? key e ds).map (· ++ rs) := by
  induction ds with
  | nil => exact place?_eq_none h
  | cons d ds ih =>
    rw [List.cons_append, place?, place?]
    split
    · rfl
    · rw [ih, Option.map_map, Option.map_map]
      rfl

theorem addDoc_append {d : Doc} (ds : List Doc) {rs : List Doc}
    (h : ∀ r ∈ rs, ∀ key, d.tableKey? = some key → r.tableKey? ≠ some key) :
    addDoc (ds ++ rs) d = addDoc ds d ++ rs := by
  unfold addDoc
  cases hd : d.tableKey? with
  | none => rfl
  | some key =>
    simp only [place?_append ds fun r hr => h r hr key hd]
    cases place? key d ds <;> rfl

theorem foldl_addDoc_append {es : List Doc} (ds : List Doc) {rs : List Doc}
    (h : ∀ r ∈ rs, ∀ e ∈ es, ∀ key, e.tableKey? = some key → r.tableKey? ≠ some key) :
    es.foldl addDoc (ds ++ rs) = es.foldl addDoc ds ++ rs := by
  induction es generalizing ds with
  | nil => rfl
  | cons e es ih =>
    rw [List.foldl_cons, List.foldl_cons, addDoc_append ds fun r hr => h r hr e (by simp)]
    exact ih _ fun r hr e' he' => h r hr e' (List.mem_cons_of_mem e he')

section Invariant
variable {P : Doc → Prop}
  (habsorb : ∀ d e key, d.tableKey? = some key → P d → P e → P (d.absorb e))
include habsorb

theorem forall_mem_place? {key : Text} {e : Doc} {ds rs : List Doc} (h : place? key e ds = some rs)
    (he : P e) (hds : ∀ d ∈ ds, P d) : ∀ r ∈ rs, P r := by
  induction ds generalizing rs with
  | nil => cases h
  | cons d ds ih =>
    rw [List.forall_mem_cons] at hds
    unfold place? at h
    split at h
    · next hd =>
      obtain rfl := Option.some.inj h
      exact List.forall_mem_cons.mpr ⟨habsorb d e key hd hds.1 he, hds.2⟩
    · obtain ⟨rs, hrs, rfl⟩ := Option.map_eq_some_iff.mp h
      exact List.forall_mem_cons.mpr ⟨hds.1, ih hrs hds.2⟩

theorem forall_mem_addDoc {d : Doc} {ds : List Doc} (hd : P d) (hds : ∀ e ∈ ds, P e) :
    ∀ r ∈ addDoc ds d, P r := by
  have hcons : ∀ r ∈ d :: ds, P r := List.forall_mem_cons.mpr ⟨hd, hds⟩
  unfold addDoc
  split
  · next key _ =>
    cases hp : place? key d ds with
    | none => exact hcons
    | some rs => exact forall_mem_place? habsorb hp hd hds
  · exact hcons

/-- What all docs have and a doc keeps when it takes in another, all docs of the result have. -/
theorem forall_mem_mergeByTable {ds : List Doc} (hds : ∀ d ∈ ds, P d) :
    ∀ r ∈ mergeByTable ds, P r := by
  have run (es : List Doc) (rs : List Doc) (hes : ∀ e ∈ es, P e) (hrs : ∀ r ∈ rs, P r) :
      ∀ r ∈ es.foldl addDoc rs, P r := by
    induction es generalizing rs with
    | nil => exact hrs
    | cons e es ih =>
      rw [List.forall_mem_cons] at hes
      exact ih (addDoc rs e) hes.2 (forall_mem_addDoc habsorb hes.1 hrs)
  intro r hr
  exact run ds [] hds (by simp) r (List.mem_reverse.mp hr)

end Invariant

/-- Bringing docs together makes no new tables. -/
theorem tableKey?_of_mem_mergeByTable {ds : List Doc} {r : Doc} {k : Text}
    (hr : r ∈ mergeByTable ds) (hk : r.tableKey? = some k) : ∃ d ∈ ds, d.tableKey? = some k := by
  have h : ∀ r ∈ mergeByTable ds, ∀ k, r.tableKey? = some k → ∃ d ∈ ds, d.tableKey? = some k := by
    apply forall_mem_mergeByTable
    · intro d e key hd hold _ k hk
      rw [tableKey?_absorb hd] at hk
      exact hold k (hd.trans hk)
    · intro d hd k hk
      exact ⟨d, hd, hk⟩
  exact h r hr k hk

/-- Collections without a common table are brought together apart. -/
theorem mergeByTable_append {ds es : List Doc}
    (h : ∀ d ∈ ds, ∀ e ∈ es, ∀ key, d.tableKey? = some key → e.tableKey? ≠ some key) :
    mergeByTable (ds ++ es) = mergeByTable ds ++ mergeByTable es := by
  -- docs are gathered in reverse, so those of the first collection stand last
  have hapart : es.foldl addDoc ([] ++ ds.foldl addDoc []) =
      es.foldl addDoc [] ++ ds.foldl addDoc [] := by
    apply foldl_addDoc_append
    intro r hr e he key hkey hk
    obtain ⟨d, hd, hkd⟩ := tableKey?_of_mem_mergeByTable (List.mem_reverse.mpr hr) hk
    exact h d hd e he key hkd hkey
  rw [List.nil_append] at hapart
  rw [mergeByTable, List.foldl_append, hapart, List.reverse_append]
  rfl

section Enums
variable {enums enums' : List Text} {d : Doc}

/-- A doc is split by the enums that its fields are named after, and by nothing else of them. -/
theorem splitEnumFields_congr
    (h : d.has .tableDecl = false → ∀ f ∈ d.fields, f.enum? enums' = f.enum? enums) :
    d.splitEnumFields enums' = d.splitEnumFields enums := by
  by_cases ht : d.has .tableDecl = true
  · rw [splitEnumFields, splitEnumFields, ht]
    rfl
  have h := h (by simpa using ht)
  have hfields : d.enumFields enums' = d.enumFields enums := by
    unfold enumFields
    apply List.filterMap_congr
    intro f hf
    rw [h f hf]
  have hwithout : d.withoutEnumFields enums' = d.withoutEnumFields enums := by
    unfold withoutEnumFields
    congr 1
    apply List.filter_congr
    intro a ha
    cases hf : a.field? with
    | none => rfl
    | some f => simp only [h f (List.mem_filterMap.mpr ⟨a, ha, hf⟩)]
  rw [splitEnumFields, splitEnumFields, enumDocs, enumDocs, hfields, hwithout]

theorem foldIntoEnums_append {ds es : List Doc}
    (hd : ∀ d ∈ ds, d.has .tableDecl = false →
      ∀ f ∈ d.fields, f.enum? (enumNames (ds ++ es)) = f.enum? (enumNames ds))
    (he : ∀ e ∈ es, e.has .tableDecl = false →
      ∀ f ∈ e.fields, f.enum? (enumNames (ds ++ es)) = f.enum? (enumNames es)) :
    foldIntoEnums (ds ++ es) = foldIntoEnums ds ++ foldIntoEnums es := by
  have hds : ds.flatMap (splitEnumFields (enumNames (ds ++ es))) = foldIntoEnums ds :=
    List.flatMap_congr fun d hmem => splitEnumFields_congr (hd d hmem)
  have hes : es.flatMap (splitEnumFields (enumNames (ds ++ es))) = foldIntoEnums es :=
    List.flatMap_congr fun e hmem => splitEnumFields_congr (he e hmem)
  rw [foldIntoEnums, List.flatMap_append, hds, hes]

theorem filterMap_globalsAsFields {α : Type} (f : Attribute → Option α) (d : Doc) :
    d.globalsAsFields.attributes.filterMap f =
      d.attributes.filterMap fun a => f a.globalAsField := by
  rw [globalsAsFields, List.filterMap_map]
  rfl

theorem filterMap_withTable {α : Type} {f : Attribute → Option α}
    (hf : ∀ t, f (.tableDecl t) = none) (d : Doc) :
    d.withTable.attributes.filterMap f = d.attributes.filterMap f := by
  unfold withTable
  split
  · rfl
  · split
    · next t _ =>
      rw [List.filterMap_append, List.filterMap_cons_none (hf t)]
      exact List.append_nil _
    · rfl

theorem enums_tabled (d : Doc) :
    d.globalsAsFields.withTable.attributes.filterMap Attribute.enum? =
      d.attributes.filterMap Attribute.enum? := by
  have hglobal : (fun a : Attribute => a.globalAsField.enum?) = Attribute.enum? := by
    funext a
    cases a <;> rfl
  rw [filterMap_withTable fun _ => rfl, filterMap_globalsAsFields, hglobal]

/-- Tables and globals have no part in which enums there are. -/
theorem enumNames_tabled (ds : List Doc) : enumNames (Library.tabled ds) = enumNames ds := by
  unfold enumNames Library.tabled
  simp only [List.flatMap_map, enums_tabled]

/-- All attributes but the enums stay, in order. -/
theorem others_mergeEnums (as : List Attribute) :
    (Attribute.mergeEnums as).filter (·.kind != .enumDecl) = as.filter (·.kind != .enumDecl) := by
  fun_induction Attribute.mergeEnums as with
  | case1 => rfl
  | case2 e rest =>
    change (rest.filter (·.kind != .enumDecl)).filter _ = rest.filter _
    rw [List.filter_filter]
    simp
  | case3 a rest _ ih => rw [List.filter_cons, List.filter_cons, ih]

theorem filterMap_mergeEnums {α : Type} {f : Attribute → Option α}
    (hf : ∀ e, f (.enumDecl e) = none) (as : List Attribute) :
    (Attribute.mergeEnums as).filterMap f = as.filterMap f := by
  have hothers (bs : List Attribute) :
      (bs.filter (·.kind != .enumDecl)).filterMap f = bs.filterMap f := by
    rw [List.filterMap_filter]
    congr 1
    funext a
    cases a with
    | enumDecl e => exact (hf e).symm
    | _ => rfl
  rw [← hothers, others_mergeEnums, hothers]

theorem countP_enums_mergeEnums (as : List Attribute) :
    (Attribute.mergeEnums as).countP (·.kind == .enumDecl) =
      min 1 (as.countP (·.kind == .enumDecl)) := by
  fun_induction Attribute.mergeEnums as with
  | case1 => rfl
  | case2 e rest =>
    have hnone : (rest.filter (·.kind != .enumDecl)).countP (·.kind == .enumDecl) = 0 := by
      rw [List.countP_eq_zero]
      intro a ha
      simpa using (List.mem_filter.mp ha).2
    rw [List.countP_cons_of_pos rfl, List.countP_cons_of_pos rfl, hnone]
    omega
  | case3 a rest ha ih =>
    have hkind : (a.kind == .enumDecl) = false := by
      cases a with
      | enumDecl e => exact absurd rfl (ha e)
      | _ => rfl
    rw [List.countP_cons, List.countP_cons, ih, hkind]
    rfl

theorem has_mergeEnums (d : Doc) (k : AttributeKind) : d.mergeEnums.has k = d.has k := by
  by_cases hk : k = .enumDecl
  · subst hk
    have hcount := countP_enums_mergeEnums d.attributes
    rw [Bool.eq_iff_iff, has, has, List.any_eq_true, List.any_eq_true, ← List.countP_pos_iff,
      ← List.countP_pos_iff]
    change 0 < (Attribute.mergeEnums d.attributes).countP (·.kind == .enumDecl) ↔ _
    omega
  · have hany (as : List Attribute) : as.any (·.kind == k) =
        (as.filter (·.kind != .enumDecl)).any (·.kind == k) := by
      rw [List.any_filter]
      congr 1
      funext a
      by_cases ha : a.kind = k
      · simp [ha, hk]
      · simp [ha]
    rw [has, has, hany, hany d.attributes, mergeEnums, others_mergeEnums]

end Enums

end LuaStubs.Doc
