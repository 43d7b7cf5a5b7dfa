import LuaStubs.Doc.Declarations
import LuaStubs.Doc.Fields
import Mathlib.Data.List.Basic

namespace LuaStubs

/-- Tables and functions are declared and leave the doc. -/
def Attribute.declares (a : Attribute) : Bool := a.kind == .tableDecl || a.kind == .functionDecl

/-- What an attribute can be declared as; which fields and parameters it has depends on the doc. -/
inductive Attribute.DeclaredAs : Attribute → Text → Prop
  | table (t : TableDecl) (fields : List Field) :
      DeclaredAs (.tableDecl t) (Lua.tableStub t.isLocal t.name fields)
  | function (f : FunctionDecl) (params : List Param) : DeclaredAs (.functionDecl f) (f.stub params)
  | classDecl (c : ClassDecl) : DeclaredAs (.classDecl c) (Lua.tableStub true c.tablePath [])
  | enumDecl (e : EnumDecl) : DeclaredAs (.enumDecl e) (Lua.tableStub false e.name [])
  | global (f : Field) : DeclaredAs (.global f) (f.assignment [])

namespace Doc

theorem has_iff {d : Doc} {k : AttributeKind} :
    d.has k = true ↔ ∃ a ∈ d.attributes, a.kind = k := by
  simp [has]

theorem has_eq_false_iff {d : Doc} {k : AttributeKind} :
    d.has k = false ↔ ∀ a ∈ d.attributes, a.kind ≠ k := by
  simp [has]

theorem has_of_sublist {d e : Doc} (h : d.attributes.Sublist e.attributes) {k : AttributeKind}
    (hk : d.has k = true) : e.has k = true := by
  obtain ⟨a, ha, hk⟩ := has_iff.mp hk
  exact has_iff.mpr ⟨a, h.subset ha, hk⟩

theorem has_eq_false_of_sublist {d e : Doc} (h : d.attributes.Sublist e.attributes)
    {k : AttributeKind} (hk : e.has k = false) : d.has k = false :=
  has_eq_false_iff.mpr fun a ha => has_eq_false_iff.mp hk a (h.subset ha)

theorem attributes_remove (d : Doc) (a : Attribute) :
    (d.remove a).2.attributes = d.attributes.erase a := by
  unfold remove
  split
  · rfl
  · next h => exact (List.erase_of_not_mem h).symm

theorem declarations_remove (d : Doc) (a : Attribute) :
    (d.remove a).2.declarations = d.declarations := by
  unfold remove
  split <;> rfl

theorem has_consume {d : Doc} {a : Attribute} {k : AttributeKind} (h : a.kind ≠ k) :
    (d.consume a).has k = d.has k := by
  have hmem (b : Attribute) (hb : b.kind = k) : b ∈ d.attributes.erase a ↔ b ∈ d.attributes := by
    apply List.mem_erase_of_ne
    rintro rfl
    exact h hb
  rw [Bool.eq_iff_iff, has_iff, has_iff]
  change (∃ b ∈ (d.remove a).2.attributes, b.kind = k) ↔ _
  rw [attributes_remove]
  exact exists_congr fun b => and_congr_left (hmem b)

/-- A table takes the fields along unless there is a class. -/
theorem attributes_declareTable (d : Doc) (t : TableDecl) :
    (d.declareTable t).attributes =
      if d.has .classDecl then d.attributes.erase (.tableDecl t)
      else (d.attributes.erase (.tableDecl t)).filter (·.kind != .field) := by
  have hclass : (d.consume (.tableDecl t)).has .classDecl = d.has .classDecl :=
    has_consume (by simp [Attribute.kind])
  unfold declareTable
  simp only [hclass]
  rw [← attributes_remove]
  split <;> rfl

theorem declarations_declareTable (d : Doc) (t : TableDecl) : ∃ fields,
    (d.declareTable t).declarations =
      d.declarations ++ [Lua.tableStub t.isLocal t.name fields] := by
  have hconsume : (d.consume (.tableDecl t)).declarations = d.declarations :=
    declarations_remove d (.tableDecl t)
  unfold declareTable
  dsimp only
  split
  · exact ⟨[], congrArg (· ++ _) hconsume⟩
  · exact ⟨(d.consume (.tableDecl t)).fields, congrArg (· ++ _) hconsume⟩

section Step
variable (hadTable : Bool) (d : Doc) (a : Attribute)

/-- Declarations are added behind those there are. -/
theorem declarations_declareAttribute :
    ∃ luas, (d.declareAttribute hadTable a).declarations = d.declarations ++ luas ∧
      ∀ lua ∈ luas, a.DeclaredAs lua := by
  have hnone : ∃ luas, d.declarations = d.declarations ++ luas ∧ ∀ lua ∈ luas, a.DeclaredAs lua :=
    ⟨[], by simp, by simp⟩
  cases a with
  | tableDecl t =>
    obtain ⟨fields, hfields⟩ := declarations_declareTable d t
    exact ⟨_, hfields, by simpa using .table t fields⟩
  | functionDecl f =>
    have hconsume : (d.consume (.functionDecl f)).declarations = d.declarations :=
      declarations_remove d (.functionDecl f)
    exact ⟨_, congrArg (· ++ _) hconsume, by simpa using .function f _⟩
  | global f =>
    have hremove := declarations_remove d (.global f)
    exact ⟨_, congrArg (· ++ _) hremove, by simpa using .global f⟩
  | classDecl c =>
    cases hadTable with
    | true => exact hnone
    | false => exact ⟨_, rfl, by simpa using .classDecl c⟩
  | enumDecl e =>
    cases hadTable with
    | true => exact hnone
    | false => exact ⟨_, rfl, by simpa using .enumDecl e⟩
  | field | param | other => exact hnone

theorem sublist_declareAttribute :
    (d.declareAttribute hadTable a).attributes.Sublist d.attributes := by
  cases a with
  | tableDecl t =>
    change (d.declareTable t).attributes.Sublist d.attributes
    rw [attributes_declareTable]
    split
    · exact List.erase_sublist
    · exact List.filter_sublist.trans List.erase_sublist
  | functionDecl f =>
    change (d.remove (.functionDecl f)).2.attributes.Sublist d.attributes
    rw [attributes_remove]
    exact List.erase_sublist
  | global f =>
    change (d.remove (.global f)).2.attributes.Sublist d.attributes
    rw [attributes_remove]
    exact List.erase_sublist
  | classDecl c => cases hadTable <;> exact List.Sublist.refl _
  | enumDecl e => cases hadTable <;> exact List.Sublist.refl _
  | field f => exact List.Sublist.refl _
  | param p => exact List.Sublist.refl _
  | other o => exact List.Sublist.refl _

/-- What is declared leaves the doc once. -/
theorem sublist_erase_declareAttribute (h : a.declares = true) :
    (d.declareAttribute hadTable a).attributes.Sublist (d.attributes.erase a) := by
  cases a with
  | tableDecl t =>
    change (d.declareTable t).attributes.Sublist _
    rw [attributes_declareTable]
    split
    · exact List.Sublist.refl _
    · exact List.filter_sublist
  | functionDecl f =>
    change (d.remove (.functionDecl f)).2.attributes.Sublist _
    rw [attributes_remove]
  | _ => cases h

/-- A class stays. -/
theorem has_class_declareAttribute :
    (d.declareAttribute hadTable a).has .classDecl = d.has .classDecl := by
  cases a with
  | tableDecl t =>
    rw [Bool.eq_iff_iff]
    constructor
    · exact has_of_sublist (sublist_declareAttribute hadTable d (.tableDecl t))
    · intro h
      have hkeep : (d.declareTable t).attributes = (d.consume (.tableDecl t)).attributes := by
        rw [attributes_declareTable, if_pos h, ← attributes_remove]
        rfl
      change (d.declareTable t).has .classDecl = true
      rw [has, hkeep, ← has, has_consume (by simp [Attribute.kind]), h]
  | functionDecl f => exact has_consume (by simp [Attribute.kind])
  | global f => exact has_consume (by simp [Attribute.kind])
  | classDecl c => cases hadTable <;> rfl
  | enumDecl e => cases hadTable <;> rfl
  | field f => rfl
  | param p => rfl
  | other o => rfl

/-- Without globals, and with a table for every class and enum, only tables and functions count. -/
theorem length_declareAttribute (hglobal : a.kind ≠ .global)
    (htable : a.kind = .classDecl ∨ a.kind = .enumDecl → hadTable = true) :
    (d.declareAttribute hadTable a).declarations.length =
      d.declarations.length + if a.declares then 1 else 0 := by
  cases a with
  | tableDecl t =>
    have hadd : (d.declareTable t).declarations.length =
        (d.remove (.tableDecl t)).2.declarations.length + 1 := by
      unfold declareTable
      dsimp only
      split <;> exact List.length_append
    rw [declarations_remove] at hadd
    exact hadd
  | functionDecl f =>
    have hadd : (d.declareFunction f).declarations.length =
        (d.remove (.functionDecl f)).2.declarations.length + 1 := List.length_append
    rw [declarations_remove] at hadd
    exact hadd
  | global f => exact absurd rfl hglobal
  | classDecl c =>
    rw [htable (Or.inl rfl)]
    rfl
  | enumDecl e =>
    rw [htable (Or.inr rfl)]
    rfl
  | field f => rfl
  | param p => rfl
  | other o => rfl

theorem place_declareAttribute :
    (d.declareAttribute hadTable a).path = d.path ∧
    (d.declareAttribute hadTable a).start = d.start := by
  have hremove (b : Attribute) : (d.remove b).2.path = d.path ∧ (d.remove b).2.start = d.start := by
    unfold remove
    split <;> exact ⟨rfl, rfl⟩
  cases a with
  | tableDecl t =>
    change (d.declareTable t).path = d.path ∧ (d.declareTable t).start = d.start
    unfold declareTable
    dsimp only
    split <;> exact hremove (.tableDecl t)
  | functionDecl f => exact hremove (.functionDecl f)
  | global f => exact hremove (.global f)
  | classDecl c => cases hadTable <;> exact ⟨rfl, rfl⟩
  | enumDecl e => cases hadTable <;> exact ⟨rfl, rfl⟩
  | field f => exact ⟨rfl, rfl⟩
  | param p => exact ⟨rfl, rfl⟩
  | other o => exact ⟨rfl, rfl⟩

end Step

section Run
variable (hadTable : Bool) (as : List Attribute) (d : Doc)

theorem declarations_foldl_declare :
    ∃ luas, (as.foldl (declareAttribute hadTable) d).declarations = d.declarations ++ luas ∧
      ∀ lua ∈ luas, ∃ a ∈ as, a.DeclaredAs lua := by
  induction as generalizing d with
  | nil => exact ⟨[], by simp, by simp⟩
  | cons a as ih =>
    obtain ⟨first, hfirst, hstep⟩ := declarations_declareAttribute hadTable d a
    obtain ⟨rest, hrest, hrun⟩ := ih (d.declareAttribute hadTable a)
    refine ⟨first ++ rest, ?_, ?_⟩
    · rw [List.foldl_cons, hrest, hfirst, List.append_assoc]
    · intro lua hl
      obtain hl | hl := List.mem_append.mp hl
      · exact ⟨a, List.mem_cons_self, hstep lua hl⟩
      · obtain ⟨b, hb, hlua⟩ := hrun lua hl
        exact ⟨b, List.mem_cons_of_mem a hb, hlua⟩

theorem sublist_foldl_declare :
    (as.foldl (declareAttribute hadTable) d).attributes.Sublist d.attributes := by
  induction as generalizing d with
  | nil => exact List.Sublist.refl _
  | cons a as ih => exact (ih _).trans (sublist_declareAttribute hadTable d a)

/-- Equal tables or functions leave the doc one by one. -/
theorem count_foldl_declare {x : Attribute} (hx : x.declares = true) :
    (as.foldl (declareAttribute hadTable) d).attributes.count x ≤
      d.attributes.count x - as.count x := by
  induction as generalizing d with
  | nil => exact Nat.le_refl _
  | cons a as ih =>
    have hrest := ih (d.declareAttribute hadTable a)
    rw [List.foldl_cons]
    by_cases hax : a = x
    · subst hax
      have hstep := (sublist_erase_declareAttribute hadTable d a hx).count_le a
      rw [List.count_erase_self] at hstep
      rw [List.count_cons_self]
      omega
    · have hstep := (sublist_declareAttribute hadTable d a).count_le x
      rw [List.count_cons_of_ne hax]
      omega

theorem has_class_foldl_declare :
    (as.foldl (declareAttribute hadTable) d).has .classDecl = d.has .classDecl := by
  induction as generalizing d with
  | nil => rfl
  | cons a as ih => exact (ih _).trans (has_class_declareAttribute hadTable d a)

/-- Outside of a class no field is left after a table. -/
theorem no_field_foldl_declare (hclass : d.has .classDecl = false)
    (htable : ∃ a ∈ as, a.kind = .tableDecl) :
    (as.foldl (declareAttribute hadTable) d).has .field = false := by
  induction as generalizing d with
  | nil =>
    obtain ⟨a, ha, -⟩ := htable
    cases ha
  | cons a as ih =>
    rw [List.foldl_cons]
    obtain ⟨b, hb, hkind⟩ := htable
    obtain rfl | hb := List.mem_cons.mp hb
    · obtain ⟨t, rfl⟩ : ∃ t, b = .tableDecl t := by
        cases b with
        | tableDecl t => exact ⟨t, rfl⟩
        | _ => cases hkind
      rw [has_eq_false_iff]
      intro x hx
      have hx' := (sublist_foldl_declare hadTable as _).subset hx
      change x ∈ (d.declareTable t).attributes at hx'
      rw [attributes_declareTable, hclass] at hx'
      simpa using (List.mem_filter.mp hx').2
    · refine ih _ ?_ ⟨b, hb, hkind⟩
      rw [has_class_declareAttribute, hclass]

theorem length_foldl_declare (hglobal : ∀ a ∈ as, a.kind ≠ .global)
    (htable : ∀ a ∈ as, a.kind = .classDecl ∨ a.kind = .enumDecl → hadTable = true) :
    (as.foldl (declareAttribute hadTable) d).declarations.length =
      d.declarations.length + as.countP Attribute.declares := by
  induction as generalizing d with
  | nil => rfl
  | cons a as ih =>
    rw [List.forall_mem_cons] at hglobal htable
    rw [List.foldl_cons, ih _ hglobal.2 htable.2,
      length_declareAttribute hadTable d a hglobal.1 htable.1, List.countP_cons]
    omega

theorem place_foldl_declare :
    (as.foldl (declareAttribute hadTable) d).path = d.path ∧
    (as.foldl (declareAttribute hadTable) d).start = d.start := by
  induction as generalizing d with
  | nil => exact ⟨rfl, rfl⟩
  | cons a as ih =>
    obtain ⟨hpath, hstart⟩ := ih (d.declareAttribute hadTable a)
    obtain ⟨hpath', hstart'⟩ := place_declareAttribute hadTable d a
    exact ⟨hpath.trans hpath', hstart.trans hstart'⟩

end Run

theorem sublist_declare (d : Doc) : d.declare.attributes.Sublist d.attributes :=
  sublist_foldl_declare (d.has .tableDecl) d.attributes d

theorem place_declare (d : Doc) : d.declare.path = d.path ∧ d.declare.start = d.start :=
  place_foldl_declare (d.has .tableDecl) d.attributes d

/-- A class or an enum has a table, and globals are fields by now. -/
structure Grounded (d : Doc) : Prop where
  table : d.has .classDecl = true ∨ d.has .enumDecl = true → d.has .tableDecl = true
  global : d.has .global = false

section Declare
variable {d : Doc}

theorem declaredAs_of_mem_declare {lua : Text} (h : lua ∈ d.declare.declarations) :
    lua ∈ d.declarations ∨ ∃ a ∈ d.attributes, a.DeclaredAs lua := by
  obtain ⟨luas, hluas, hdeclared⟩ :=
    declarations_foldl_declare (d.has .tableDecl) d.attributes d
  rw [declare, hluas] at h
  exact (List.mem_append.mp h).imp_right (hdeclared lua)

/-- No table and no function is left. -/
theorem not_declares_of_mem_declare {a : Attribute} (h : a ∈ d.declare.attributes) :
    a.declares = false := by
  by_contra hdeclares
  have hcount := count_foldl_declare (d.has .tableDecl) d.attributes d
    (x := a) (by simpa using hdeclares)
  have hpos : 0 < d.declare.attributes.count a := List.count_pos_iff.mpr h
  rw [Nat.sub_self] at hcount
  exact absurd hcount (Nat.not_le_of_lt hpos)

/-- A field is left only with a class, or without a table to take it. -/
theorem has_class_of_has_field (h : d.declare.has .field = true) (ht : d.has .tableDecl = true) :
    d.declare.has .classDecl = true := by
  have hkeep : d.declare.has .classDecl = d.has .classDecl :=
    has_class_foldl_declare (d.has .tableDecl) d.attributes d
  rw [hkeep]
  by_contra hclass
  have hnone : d.declare.has .field = false :=
    no_field_foldl_declare _ d.attributes d (by simpa using hclass) (has_iff.mp ht)
  rw [hnone] at h
  cases h

theorem Grounded.length_declare (h : d.Grounded) :
    d.declare.declarations.length =
      d.declarations.length + d.attributes.countP Attribute.declares := by
  apply length_foldl_declare
  · exact has_eq_false_iff.mp h.global
  · intro a ha hkind
    apply h.table
    exact hkind.imp (fun hk => has_iff.mpr ⟨a, ha, hk⟩) (fun hk => has_iff.mpr ⟨a, ha, hk⟩)

end Declare

section Fields

theorem isEmpty_fields (d : Doc) : d.fields.isEmpty = !d.has .field := by
  have hnone (a : Attribute) : a.field? = none ↔ a.kind ≠ .field := by
    cases a <;> simp [Attribute.field?, Attribute.kind]
  rw [Bool.eq_iff_iff, List.isEmpty_iff, Bool.not_eq_true', has_eq_false_iff, fields,
    List.filterMap_eq_nil_iff]
  exact forall₂_congr fun a _ => hnone a

/-- Fields stay only with a table. -/
theorem attributes_assignFields (d : Doc) :
    d.assignFields.attributes =
      if d.has .tableDecl then d.attributes else d.attributes.filter (·.kind != .field) := by
  unfold assignFields
  rw [isEmpty_fields]
  by_cases ht : d.has .tableDecl = true
  · simp [ht]
  · by_cases hf : d.has .field = true
    · simp [ht, hf, takeFields, take]
    · have hkinds := has_eq_false_iff.mp (by simpa using hf)
      have hall : d.attributes.filter (·.kind != .field) = d.attributes := by
        rw [List.filter_eq_self]
        intro a ha
        simpa using hkinds a ha
      simp [hf, hall]

theorem length_assignFields (d : Doc) :
    d.assignFields.declarations.length =
      d.declarations.length + if d.has .field && !d.has .tableDecl then 1 else 0 := by
  unfold assignFields
  rw [isEmpty_fields]
  cases d.has .tableDecl with
  | true => simp
  | false =>
    cases d.has .field with
    | true => simp
    | false => simp

theorem has_assignFields (d : Doc) {k : AttributeKind} (hk : k ≠ .field) :
    d.assignFields.has k = d.has k := by
  rw [has, has, attributes_assignFields]
  split
  · rfl
  · rw [List.any_filter]
    congr 1
    funext a
    by_cases ha : a.kind = k
    · simp [ha, hk]
    · simp [ha]

theorem countP_assignFields (d : Doc) :
    d.assignFields.attributes.countP Attribute.declares =
      d.attributes.countP Attribute.declares := by
  rw [attributes_assignFields]
  split
  · rfl
  · rw [List.countP_filter]
    apply List.countP_congr
    intro a _
    cases a <;> simp [Attribute.declares, Attribute.kind]

theorem has_table_of_has_field (d : Doc) (h : d.assignFields.has .field = true) :
    d.assignFields.has .tableDecl = true := by
  rw [has_assignFields d (by decide)]
  by_contra ht
  obtain ⟨a, ha, hk⟩ := has_iff.mp h
  rw [attributes_assignFields, if_neg ht] at ha
  simpa [hk] using (List.mem_filter.mp ha).2

theorem Grounded.assignFields {d : Doc} (h : d.Grounded) : d.assignFields.Grounded := by
  constructor
  · rw [has_assignFields d (by decide), has_assignFields d (by decide),
      has_assignFields d (by decide)]
    exact h.table
  · rw [has_assignFields d (by decide)]
    exact h.global

end Fields

end Doc

end LuaStubs
