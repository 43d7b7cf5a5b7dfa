import LuaStubs.Proofs.Library.Naming
import LuaStubs.Proofs.Library.Shape

namespace LuaStubs

namespace Doc

/-- The first of some attributes that leaves a doc with a declaration. -/
def openingFrom? (hadTable : Bool) : List Attribute → Doc → Option Attribute
  | [], _ => none
  | a :: as, d =>
    if (d.declareAttribute hadTable a).declarations = [] then
      openingFrom? hadTable as (d.declareAttribute hadTable a)
    else some a

/-- The attribute that the first declaration of a doc is made from, if there was none before. -/
def opening? (d : Doc) : Option Attribute :=
  if d.declarations = [] then openingFrom? (d.has .tableDecl) d.attributes d else none

section Opening
variable {hadTable : Bool} {d : Doc}

theorem openingFrom?_eq_some {as : List Attribute} {a : Attribute} (hd : d.declarations = [])
    (h : openingFrom? hadTable as d = some a) : ∃ front back, as = front ++ a :: back ∧
      (front.foldl (declareAttribute hadTable) d).declarations = [] := by
  induction as generalizing d with
  | nil => cases h
  | cons b as ih =>
    rw [openingFrom?] at h
    split at h
    · next hnone =>
      obtain ⟨front, back, rfl, hfront⟩ := ih hnone h
      exact ⟨b :: front, back, rfl, hfront⟩
    · cases h
      exact ⟨[], as, rfl, hd⟩

theorem openingFrom?_eq_none {as : List Attribute} (hd : d.declarations = [])
    (h : openingFrom? hadTable as d = none) :
    (as.foldl (declareAttribute hadTable) d).declarations = [] := by
  induction as generalizing d with
  | nil => exact hd
  | cons b as ih =>
    rw [openingFrom?] at h
    split at h
    · next hnone => exact ih hnone h
    · cases h

theorem prefix_foldl_declare (hadTable : Bool) (as : List Attribute) (d : Doc) :
    d.declarations <+: (as.foldl (declareAttribute hadTable) d).declarations := by
  obtain ⟨luas, hluas, -⟩ := declarations_foldl_declare hadTable as d
  exact ⟨luas, hluas.symm⟩

/-- If no attribute makes the first declaration, it is the one that there was before. -/
theorem head?_of_opening?_eq_none (h : d.opening? = none) :
    d.declare.declarations.head? = d.declarations.head? := by
  by_cases hd : d.declarations = []
  · rw [opening?, if_pos hd] at h
    rw [declare, openingFrom?_eq_none hd h, hd]
  · obtain ⟨rest, hrest⟩ := prefix_foldl_declare (d.has .tableDecl) d.attributes d
    rw [declare, ← hrest, List.head?_append_of_ne_nil _ hd]

section Table
variable {t : TableDecl}

theorem exists_front_of_opening? (h : d.opening? = some (.tableDecl t)) :
    ∃ front back, d.attributes = front ++ .tableDecl t :: back ∧ d.declarations = [] ∧
      (front.foldl (declareAttribute (d.has .tableDecl)) d).declarations = [] := by
  unfold opening? at h
  split at h
  · next hd =>
    obtain ⟨front, back, hattributes, hfront⟩ := openingFrom?_eq_some hd h
    exact ⟨front, back, hattributes, hd, hfront⟩
  · cases h

theorem head?_of_opening? (h : d.opening? = some (.tableDecl t)) :
    ∃ fields, d.declare.declarations.head? = some (Lua.tableStub t.isLocal t.name fields) := by
  obtain ⟨front, back, hattributes, -, hfront⟩ := exists_front_of_opening? h
  generalize hadTable : d.has .tableDecl = had at hfront
  obtain ⟨fields, hfields⟩ := declarations_declareTable (front.foldl (declareAttribute had) d) t
  have hdeclare : d.declare = back.foldl (declareAttribute had)
      ((front.foldl (declareAttribute had) d).declareTable t) := by
    rw [declare, hattributes, hadTable, List.foldl_append]
    rfl
  obtain ⟨rest, hrest⟩ := prefix_foldl_declare had back
    ((front.foldl (declareAttribute had) d).declareTable t)
  refine ⟨fields, ?_⟩
  rw [hdeclare, ← hrest, hfields, hfront]
  rfl

/-- No table stands before the one that is declared first, since it would have been declared. -/
theorem Grounded.table?_of_opening? (hd : d.Grounded) (h : d.opening? = some (.tableDecl t)) :
    d.table? = some t := by
  obtain ⟨front, back, hattributes, hnone, hfront⟩ := exists_front_of_opening? h
  have hsub : ∀ a ∈ front, a ∈ d.attributes := by
    intro a ha
    rw [hattributes]
    exact List.mem_append_left _ ha
  have hlength := length_foldl_declare (d.has .tableDecl) front d
    (fun a ha => has_eq_false_iff.mp hd.global a (hsub a ha))
    (fun a ha hkind => hd.table (hkind.imp (fun hk => has_iff.mpr ⟨a, hsub a ha, hk⟩)
      (fun hk => has_iff.mpr ⟨a, hsub a ha, hk⟩)))
  have hcount : front.countP Attribute.declares = 0 := by
    rw [hfront, List.length_nil] at hlength
    omega
  have hbefore : front.findSome? Attribute.table? = none := by
    rw [List.findSome?_eq_none_iff]
    intro a ha
    have hdeclares := List.countP_eq_zero.mp hcount a ha
    cases a with
    | tableDecl u => exact absurd rfl hdeclares
    | _ => rfl
  rw [table?, hattributes, List.findSome?_append, hbefore]
  rfl

end Table

theorem tableKey?_assignFields (d : Doc) : d.assignFields.tableKey? = d.tableKey? := by
  by_cases ht : d.has .tableDecl = true
  · have hsame : d.assignFields = d := by simp [assignFields, ht]
    rw [hsame]
  · have hnone : d.has .tableDecl = false := by simpa using ht
    have hnone' : d.assignFields.has .tableDecl = false := by
      rw [has_assignFields d (by decide), hnone]
    rw [tableKey?_eq_none hnone, tableKey?_eq_none hnone']

end Opening

end Doc

namespace Library

/-- The docs that a library shows, before their attributes are declared. -/
def shown (ds : List Doc) : List Doc := (prepared ds).filter fun p => !p.declare.isEmpty

/-- A doc `d` of a library, and what its first declaration is made from. -/
structure Opens (repo : Option Text) (p d : Doc) : Prop where
  made : d = linkDoc repo p.declare
  table : ∀ t, p.opening? = some (.tableDecl t) →
    ∃ fields, d.declarations.head? = some (Lua.tableStub t.isLocal t.name fields)
  none : p.opening? = none → d.declarations.head? = p.declarations.head?

/-- Both docs open with tables, and these have the same name as it is written. -/
def SharesName (p q : Doc) : Prop := ∃ t u, p.opening? = some (.tableDecl t) ∧
  q.opening? = some (.tableDecl u) ∧ Lua.pathExpr t.name = Lua.pathExpr u.name

section Shown
variable {ds : List Doc}

theorem opens_process (repo : Option Text) (ds : List Doc) :
    List.Forall₂ (Opens repo) (shown ds) (process repo ds) := by
  have hprocess : process repo ds = (shown ds).map fun p => linkDoc repo p.declare := by
    rw [process, shown, List.filter_map, List.map_map]
    rfl
  rw [hprocess, List.forall₂_map_right_iff, List.forall₂_same]
  intro p _
  have hdeclarations : (linkDoc repo p.declare).declarations = p.declare.declarations :=
    (linkDoc_eq repo p.declare).2.1
  refine ⟨rfl, ?_, ?_⟩
  · intro t ht
    rw [hdeclarations]
    exact Doc.head?_of_opening? ht
  · intro hnone
    rw [hdeclarations]
    exact Doc.head?_of_opening?_eq_none hnone

theorem grounded_of_mem_shown (h : ∀ d ∈ ds, d.declarations = []) {p : Doc} (hp : p ∈ shown ds) :
    p.Grounded := by
  obtain ⟨m, hm, rfl⟩ := List.mem_map.mp (List.mem_of_mem_filter hp)
  exact (fresh_merged h m hm).toGrounded.assignFields

/-- No two docs that are shown are of the same table. -/
theorem pairwise_shown (ds : List Doc) :
    (shown ds).Pairwise fun p q => ∀ key, p.tableKey? = some key → q.tableKey? ≠ some key := by
  apply List.Pairwise.filter
  rw [prepared, merged, List.map_map, List.pairwise_map]
  apply (Doc.gathers_mergeByTable _).pairwise_tableKey?.imp
  intro d e h
  simpa only [Function.comp_apply, Doc.tableKey?_assignFields, Doc.tableKey?_mergeEnums] using h

end Shown

/--
No two docs of a library open with tables of one name, be they local or not, and different paths
are never written as the same name.
-/
theorem process_declares_once (repo : Option Text) (files : List (Text × Text)) :
    List.Forall₂ (Opens repo) (shown (SourceFile.docsOf files))
      (process repo (SourceFile.docsOf files)) ∧
    (shown (SourceFile.docsOf files)).Pairwise (fun p q => ¬SharesName p q) ∧
    ∀ ms ns : List Text, (∀ m ∈ ms, Lua.isIdent m = true) → (∀ n ∈ ns, Lua.isIdent n = true) →
      Lua.pathExpr ms = Lua.pathExpr ns → ms = ns := by
  have hfresh : ∀ d ∈ SourceFile.docsOf files, d.declarations = [] :=
    fun _ hd => SourceFile.declarations_of_mem_docsOf hd
  have hnamed := (wellNamed_docsOf files).prepared
  -- the table that a doc opens with is the one that it was gathered by
  have hkey : ∀ p ∈ shown (SourceFile.docsOf files), ∀ t, p.opening? = some (.tableDecl t) →
      p.tableKey? = some (dottedName t.name) ∧ Lua.IsPath t.name := by
    intro p hp t ht
    have htable := (grounded_of_mem_shown hfresh hp).table?_of_opening? ht
    obtain ⟨front, back, hattributes, -⟩ := Doc.exists_front_of_opening? ht
    constructor
    · rw [Doc.tableKey?, htable]
      rfl
    · exact hnamed p (List.mem_of_mem_filter hp) (.tableDecl t) (by simp [hattributes])
  refine ⟨opens_process repo _, ?_, fun _ _ hm hn h => Lua.pathExpr_injective hm hn h⟩
  apply (pairwise_shown _).imp_of_mem
  rintro p q hp hq hne ⟨t, u, ht, hu, hname⟩
  obtain ⟨htkey, htpath⟩ := hkey p hp t ht
  obtain ⟨hukey, hupath⟩ := hkey q hq u hu
  have hsame : t.name = u.name := Lua.pathExpr_injective htpath.2 hupath.2 hname
  rw [← hsame] at hukey
  exact hne _ htkey hukey

/-- A table under a reserved word that two files declare, between them a local class. -/
theorem process_declares_once_reserved : ∃ files : List (Text × Text),
    files = [("a.c".toList, "/*** @table a.end */".toList),
      ("b.c".toList, "/*** @class a */ /***\n * @table a.end\n * @field x 1\n */".toList)] ∧
    (shown (SourceFile.docsOf files)).map Doc.opening? =
      [some (.tableDecl ⟨[['a'], "end"], false, ['\n']⟩),
        some (.tableDecl ⟨[['a']], true, []⟩)] ∧
    (process none (SourceFile.docsOf files)).map Doc.declarations =
      [["a[\"end\"] = \x7b\n\tx = 1\n\x7d".toList], ["local a = \x7b\x7d".toList]] ∧
    (shown (SourceFile.docsOf files)).Pairwise (fun p q => ¬SharesName p q) := by
  obtain ⟨files, hfiles⟩ : ∃ files : List (Text × Text),
    files = [("a.c".toList, "/*** @table a.end */".toList),
      ("b.c".toList, "/*** @class a */ /***\n * @table a.end\n * @field x 1\n */".toList)] :=
    ⟨_, rfl⟩
  refine ⟨files, hfiles, ?_, ?_, (process_declares_once none files).2.1⟩
  · rw [hfiles]
    decide +kernel
  · rw [hfiles]
    decide +kernel

end Library

end LuaStubs
