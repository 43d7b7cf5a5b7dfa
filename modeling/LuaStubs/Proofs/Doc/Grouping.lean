import LuaStubs.Proofs.Doc.Merge
import Mathlib.Data.List.Perm.Basic

namespace LuaStubs.Doc

theorem place?_concat {key : Text} {d e : Doc} {rs : List Doc} (hd : d.tableKey? = some key)
    (h : ∀ r ∈ rs, r.tableKey? ≠ some key) :
    place? key e (rs ++ [d]) = some (rs ++ [d.absorb e]) := by
  induction rs with
  | nil => exact if_pos hd
  | cons r rs ih =>
    rw [List.forall_mem_cons] at h
    rw [List.cons_append, place?, if_neg h.1, ih h.2]
    rfl

theorem forall_mem_addDoc_of_ne {key : Text} {e : Doc} {rs : List Doc} (he : e.tableKey? ≠ some key)
    (h : ∀ r ∈ rs, r.tableKey? ≠ some key) : ∀ r ∈ addDoc rs e, r.tableKey? ≠ some key := by
  apply forall_mem_addDoc _ he h
  intro d e key' hd hne _
  rw [tableKey?_absorb hd]
  rwa [hd] at hne

/-- Along the whole run the doc met first stays last, and takes in what belongs to its table. -/
theorem foldl_addDoc_concat {key : Text} {d : Doc} {rs : List Doc} (es : List Doc)
    (hd : d.tableKey? = some key) (h : ∀ r ∈ rs, r.tableKey? ≠ some key) :
    es.foldl addDoc (rs ++ [d]) =
      (es.filter (·.tableKey? ≠ some key)).foldl addDoc rs ++
        [(es.filter (·.tableKey? = some key)).foldl absorb d] := by
  induction es generalizing d rs with
  | nil => rfl
  | cons e es ih =>
    by_cases he : e.tableKey? = some key
    · have hadd : addDoc (rs ++ [d]) e = rs ++ [d.absorb e] := by
        simp only [addDoc, he, place?_concat hd h, Option.getD_some]
      rw [List.foldl_cons, hadd, ih (tableKey?_absorb hd) h]
      simp [he]
    · have hadd : addDoc (rs ++ [d]) e = addDoc rs e ++ [d] := by
        apply addDoc_append
        intro r hr k hk
        rw [List.mem_singleton.mp hr, hd, ← hk]
        exact Ne.symm he
      rw [List.foldl_cons, hadd, ih hd (forall_mem_addDoc_of_ne he h)]
      simp [he]

theorem mergeByTable_cons_none {d : Doc} (ds : List Doc) (hd : d.tableKey? = none) :
    mergeByTable (d :: ds) = d :: mergeByTable ds := by
  have hone : mergeByTable [d] = [d] := by simp [mergeByTable, addDoc, hd]
  rw [← List.singleton_append, mergeByTable_append, hone]
  · rfl
  · intro e he _ _ key hkey
    rw [List.mem_singleton.mp he, hd] at hkey
    cases hkey

theorem mergeByTable_cons_some {d : Doc} {key : Text} (ds : List Doc)
    (hd : d.tableKey? = some key) :
    mergeByTable (d :: ds) = (ds.filter (·.tableKey? = some key)).foldl absorb d ::
      mergeByTable (ds.filter (·.tableKey? ≠ some key)) := by
  have hone : addDoc [] d = [] ++ [d] := by simp [addDoc, hd, place?]
  rw [mergeByTable, List.foldl_cons, hone, foldl_addDoc_concat ds hd (by simp), List.reverse_append]
  rfl

theorem tableKey?_foldl_absorb {d : Doc} {key : Text} (hd : d.tableKey? = some key)
    (es : List Doc) :
    (es.foldl absorb d).tableKey? = some key := by
  induction es generalizing d with
  | nil => exact hd
  | cons e es ih => exact ih (tableKey?_absorb hd)

/-- Docs brought together by table, one doc of the result after another. -/
inductive Gathers : List Doc → List Doc → Prop
  | nil : Gathers [] []
  /-- A doc without a table stays as it is. -/
  | alone {d : Doc} {ds rs : List Doc} (hd : d.tableKey? = none) (h : Gathers ds rs) :
      Gathers (d :: ds) (d :: rs)
  /-- The first doc of a table takes in the others. -/
  | table {d : Doc} {ds rs : List Doc} {key : Text} (hd : d.tableKey? = some key)
      (h : Gathers (ds.filter (·.tableKey? ≠ some key)) rs) :
      Gathers (d :: ds) ((ds.filter (·.tableKey? = some key)).foldl absorb d :: rs)

theorem gathers_mergeByTable (ds : List Doc) : Gathers ds (mergeByTable ds) := by
  -- on the number of docs: those that go on after a doc with a table are only some of the rest
  induction hn : ds.length using Nat.strongRecOn generalizing ds with
  | ind n ih =>
    subst hn
    cases ds with
    | nil => exact .nil
    | cons d ds =>
      cases hd : d.tableKey? with
      | none =>
        rw [mergeByTable_cons_none ds hd]
        exact .alone hd (ih ds.length (by simp) ds rfl)
      | some key =>
        rw [mergeByTable_cons_some ds hd]
        exact .table hd (ih _ (Nat.lt_succ_of_le (List.length_filter_le _ _)) _ rfl)

theorem Gathers.tableKey?_ne {ds rs : List Doc} (h : Gathers ds rs) {key : Text}
    (hds : ∀ d ∈ ds, d.tableKey? ≠ some key) : ∀ r ∈ rs, r.tableKey? ≠ some key := by
  induction h with
  | nil => exact hds
  | alone _ _ ih =>
    rw [List.forall_mem_cons] at hds ⊢
    exact ⟨hds.1, ih hds.2⟩
  | @table d ds rs key' hd _ ih =>
    rw [List.forall_mem_cons] at hds ⊢
    refine ⟨?_, ih fun e he => hds.2 e (List.mem_of_mem_filter he)⟩
    rw [tableKey?_foldl_absorb hd, ← hd]
    exact hds.1

/-- No two docs that remain are of the same table. -/
theorem Gathers.pairwise_tableKey? {ds rs : List Doc} (h : Gathers ds rs) :
    rs.Pairwise fun d e => ∀ key, d.tableKey? = some key → e.tableKey? ≠ some key := by
  induction h with
  | nil => exact .nil
  | alone hd _ ih =>
    refine .cons ?_ ih
    intro e _ key hkey
    rw [hd] at hkey
    cases hkey
  | @table d ds rs key hd hrest ih =>
    refine .cons ?_ ih
    intro e he key' hkey'
    rw [tableKey?_foldl_absorb hd] at hkey'
    obtain rfl := Option.some.inj hkey'
    exact hrest.tableKey?_ne (by simp) e he

/-- All docs of one table have become one. -/
theorem Gathers.mem_of_filter {ds rs : List Doc} (h : Gathers ds rs) {key : Text} {d : Doc}
    {es : List Doc} (hkey : ds.filter (·.tableKey? = some key) = d :: es) :
    es.foldl absorb d ∈ rs := by
  induction h with
  | nil => cases hkey
  | alone hd' _ ih =>
    rw [List.filter_cons_of_neg (by simp [hd'])] at hkey
    exact List.mem_cons_of_mem _ (ih hkey)
  | @table d' ds rs key' hd' _ ih =>
    by_cases hk : key' = key
    · subst hk
      rw [List.filter_cons_of_pos (by simp [hd'])] at hkey
      obtain ⟨rfl, rfl⟩ := List.cons.inj hkey
      exact List.mem_cons_self
    · rw [List.filter_cons_of_neg (by simpa [hd'] using hk)] at hkey
      refine List.mem_cons_of_mem _ (ih ?_)
      rw [List.filter_filter, ← hkey]
      apply List.filter_congr
      intro e _
      by_cases he : e.tableKey? = some key
      · simpa [he] using Ne.symm hk
      · simp [he]

/-- A doc that is taken in loses its table and nothing else. -/
theorem filterMap_dropTable {α : Type} {f : Attribute → Option α}
    (hf : ∀ t, f (.tableDecl t) = none) (d : Doc) :
    d.dropTable.filterMap f = d.attributes.filterMap f := by
  unfold dropTable
  induction d.attributes with
  | nil => rfl
  | cons a as ih =>
    by_cases ha : a.kind = .tableDecl
    · cases a with
      | tableDecl t => rw [List.eraseP_cons_of_pos rfl, List.filterMap_cons_none (hf t)]
      | _ => cases ha
    · rw [List.eraseP_cons_of_neg (by simpa using ha), List.filterMap_cons, List.filterMap_cons, ih]

theorem filterMap_absorb {α : Type} {f : Attribute → Option α} (hf : ∀ t, f (.tableDecl t) = none)
    (d e : Doc) : (d.absorb e).attributes.filterMap f =
      d.attributes.filterMap f ++ e.attributes.filterMap f := by
  rw [absorb, List.filterMap_append, filterMap_dropTable hf]

theorem fields_absorb (d e : Doc) : (d.absorb e).fields = d.fields ++ e.fields :=
  filterMap_absorb (fun _ => rfl) d e

/-- What elements with a key and those without it hold, they hold together. -/
theorem perm_flatMap_filter {α β : Type} (k : α → Option Text) (key : Text) (g : α → List β)
    (l : List α) : ((l.filter (k · = some key)).flatMap g ++
      (l.filter (k · ≠ some key)).flatMap g).Perm (l.flatMap g) := by
  have hpart : (l.filter (k · = some key) ++ l.filter (k · ≠ some key)).Perm l := by
    simpa using List.filter_append_perm (fun a => decide (k a = some key)) l
  rw [← List.flatMap_append]
  exact hpart.flatMap_right g

section Contents
variable {α : Type} {g : Doc → List α} (hg : ∀ d e, g (d.absorb e) = g d ++ g e)
include hg

theorem contents_foldl_absorb (d : Doc) (es : List Doc) :
    g (es.foldl absorb d) = g d ++ es.flatMap g := by
  induction es generalizing d with
  | nil => simp
  | cons e es ih => rw [List.foldl_cons, ih, hg, List.append_assoc, List.flatMap_cons]

/-- What docs hold and put together when they meet is neither lost nor doubled. -/
theorem Gathers.perm_contents {ds rs : List Doc} (h : Gathers ds rs) :
    (rs.flatMap g).Perm (ds.flatMap g) := by
  induction h with
  | nil => exact .refl _
  | alone _ _ ih => exact ih.append_left _
  | @table d ds rs key hd _ ih =>
    rw [List.flatMap_cons, List.flatMap_cons, contents_foldl_absorb hg, List.append_assoc]
    exact ((ih.append_left _).trans (perm_flatMap_filter tableKey? key g ds)).append_left (g d)

end Contents

end LuaStubs.Doc
