import LuaStubs.Proofs.Doc.Grouping

namespace LuaStubs.Doc

/-- None of the docs before is of the same table. -/
def isNew (before : List Doc) (d : Doc) : Bool :=
  d.tableKey?.all fun key => before.all (·.tableKey? ≠ some key)

/-- The doc at a place has no table, or it is the first of its table. -/
def leads (ds : List Doc) (i : Nat) : Bool := ds[i]?.all (isNew (ds.take i))

/-- The docs of a table after a place. -/
def followers (ds : List Doc) (i : Nat) (key : Text) : List Doc :=
  (ds.drop (i + 1)).filter (·.tableKey? = some key)

/-- What is said in a doc of a table: its description, then that of the table. -/
def remarks (d : Doc) : List Text :=
  [d.description, (d.table?.map TableDecl.description).getD []]

/-- What becomes of the doc at a place that leads. -/
inductive Becomes (ds : List Doc) (i : Nat) : Doc → Prop
  | alone {d : Doc} (hd : ds[i]? = some d) (hkey : d.tableKey? = none) : Becomes ds i d
  | group {d : Doc} {key : Text} (hd : ds[i]? = some d) (hkey : d.tableKey? = some key) :
      Becomes ds i { d with
        description :=
          ((followers ds i key).flatMap remarks).foldl Text.joinParagraphs d.description
        attributes := d.attributes ++ (followers ds i key).flatMap dropTable }

theorem foldl_absorb_eq (d : Doc) (es : List Doc) :
    es.foldl absorb d = { d with
      description := (es.flatMap remarks).foldl Text.joinParagraphs d.description
      attributes := d.attributes ++ es.flatMap dropTable } := by
  induction es generalizing d with
  | nil => simp
  | cons e es ih =>
    rw [List.foldl_cons, ih]
    simp [absorb, remarks]

section New
variable {before : List Doc} {d e : Doc}

theorem isNew_of_none (before : List Doc) (h : d.tableKey? = none) : isNew before d = true := by
  rw [isNew, h]
  rfl

theorem isNew_of_some {key : Text} (h : d.tableKey? = some key) :
    isNew before d = true ↔ ∀ e ∈ before, e.tableKey? ≠ some key := by
  simp [isNew, h]

theorem isNew_concat : isNew (before ++ [d]) e = true ↔
    isNew before e = true ∧ ∀ key, e.tableKey? = some key → d.tableKey? ≠ some key := by
  cases he : e.tableKey? with
  | none => simp [isNew_of_none _ he]
  | some key =>
    rw [isNew_of_some he, isNew_of_some he, List.forall_mem_append]
    simp

/-- A doc of a table that was met makes no other doc less new. -/
theorem isNew_concat_of_met (hd : isNew before d = false) :
    isNew (before ++ [d]) e = isNew before e := by
  rw [Bool.eq_iff_iff, isNew_concat, and_iff_left_iff_imp]
  intro he key hkey hsame
  rw [isNew_of_some hkey, ← isNew_of_some hsame, hd] at he
  cases he

end New

section Groups
variable {before ds : List Doc} {d : Doc}

theorem leads_length (before ds : List Doc) (d : Doc) :
    leads (before ++ d :: ds) before.length = isNew before d := by
  simp [leads]

theorem becomes_alone (hd : d.tableKey? = none) :
    Becomes (before ++ d :: ds) before.length d :=
  .alone (by simp) hd

theorem becomes_group {key : Text} (hd : d.tableKey? = some key) :
    Becomes (before ++ d :: ds) before.length
      ((ds.filter (·.tableKey? = some key)).foldl absorb d) := by
  have hfollowers : followers (before ++ d :: ds) before.length key =
      ds.filter (·.tableKey? = some key) := by
    simp [followers]
  have hgroup : Becomes (before ++ d :: ds) before.length _ := .group (by simp) hd
  rwa [hfollowers, ← foldl_absorb_eq] at hgroup

/-- The docs of a table that was not met are all new. -/
theorem filter_new_of_key {key : Text} (hd : d.tableKey? = some key) (hnew : isNew before d = true)
    (ds : List Doc) : (ds.filter (isNew before)).filter (·.tableKey? = some key) =
      ds.filter (·.tableKey? = some key) := by
  rw [List.filter_filter]
  apply List.filter_congr
  intro e _
  by_cases he : e.tableKey? = some key
  · have hsame : isNew before e = true := by
      rw [isNew_of_some hd] at hnew
      rwa [isNew_of_some he]
    simp [he, hsame]
  · simp [he]

theorem filter_new_of_ne {key : Text} (hd : d.tableKey? = some key) (ds : List Doc) :
    (ds.filter (isNew before)).filter (·.tableKey? ≠ some key) =
      ds.filter (isNew (before ++ [d])) := by
  rw [List.filter_filter]
  apply List.filter_congr
  intro e _
  have hne : (∀ k, e.tableKey? = some k → d.tableKey? ≠ some k) ↔ e.tableKey? ≠ some key := by
    rw [hd]
    constructor
    · intro h he
      exact h key he rfl
    · intro h k hk hkey
      exact h (hk.trans hkey.symm)
  rw [Bool.eq_iff_iff, isNew_concat, hne]
  simp [and_comm]

/--
From a place on, the docs that lead are those that remain. The induction is on the docs from there
on; the tables met before count as well.
-/
theorem forall₂_becomes (before ds : List Doc) :
    List.Forall₂ (Becomes (before ++ ds))
      ((List.range' before.length ds.length).filter (leads (before ++ ds)))
      (mergeByTable (ds.filter (isNew before))) := by
  induction ds generalizing before with
  | nil => exact .nil
  | cons d ds ih =>
    have hrest := ih (before ++ [d])
    rw [List.append_assoc, List.singleton_append, List.length_append,
      List.length_singleton] at hrest
    rw [List.length_cons, List.range'_succ]
    cases hnew : isNew before d with
    | false =>
      have hsame : ds.filter (isNew (before ++ [d])) = ds.filter (isNew before) :=
        List.filter_congr fun e _ => isNew_concat_of_met hnew
      rw [hsame] at hrest
      rw [List.filter_cons_of_neg (by simp [leads_length, hnew]),
        List.filter_cons_of_neg (by simp [hnew])]
      exact hrest
    | true =>
      rw [List.filter_cons_of_pos (by simp [leads_length, hnew]), List.filter_cons_of_pos hnew]
      cases hkey : d.tableKey? with
      | none =>
        have hsame : ds.filter (isNew (before ++ [d])) = ds.filter (isNew before) := by
          apply List.filter_congr
          intro e _
          rw [Bool.eq_iff_iff, isNew_concat, hkey]
          simp
        rw [hsame] at hrest
        rw [mergeByTable_cons_none _ hkey]
        exact .cons (becomes_alone hkey) hrest
      | some key =>
        rw [mergeByTable_cons_some _ hkey, filter_new_of_key hkey hnew, filter_new_of_ne hkey]
        exact .cons (becomes_group hkey) hrest

/-- Docs of different tables stay as they are. -/
theorem mergeByTable_eq_self
    (h : ds.Pairwise fun d e => ∀ key, d.tableKey? = some key → e.tableKey? ≠ some key) :
    mergeByTable ds = ds := by
  induction h with
  | nil => rfl
  | @cons d ds hd _ ih =>
    cases hkey : d.tableKey? with
    | none => rw [mergeByTable_cons_none ds hkey, ih]
    | some key =>
      have hnone : ds.filter (·.tableKey? = some key) = [] := by
        rw [List.filter_eq_nil_iff]
        intro e he
        simpa using hd e he key hkey
      have hall : ds.filter (·.tableKey? ≠ some key) = ds := by
        rw [List.filter_eq_self]
        intro e he
        simpa using hd e he key hkey
      rw [mergeByTable_cons_some ds hkey, hnone, hall, ih]
      rfl

end Groups

/--
What remains are the docs that lead, in order, each with all that the docs of its table hold. No two
of them are of the same table, so merging them again changes nothing.
-/
theorem mergeByTable_groups (ds : List Doc) :
    List.Forall₂ (Becomes ds) ((List.range ds.length).filter (leads ds)) (mergeByTable ds) ∧
    (mergeByTable ds).Pairwise
      (fun d e => ∀ key, d.tableKey? = some key → e.tableKey? ≠ some key) ∧
    mergeByTable (mergeByTable ds) = mergeByTable ds := by
  have hapart := (gathers_mergeByTable ds).pairwise_tableKey?
  refine ⟨?_, hapart, mergeByTable_eq_self hapart⟩
  have hnew : ds.filter (isNew []) = ds := by
    rw [List.filter_eq_self]
    intro d _
    cases hkey : d.tableKey? with
    | none => exact isNew_of_none [] hkey
    | some key => exact (isNew_of_some hkey).mpr (by simp)
  have hgroups := forall₂_becomes [] ds
  rwa [hnew, List.nil_append, List.length_nil, ← List.range_eq_range'] at hgroups

end LuaStubs.Doc
