import LuaStubs.Proofs.Attribute.Parts
import LuaStubs.Proofs.Doc.Tracing
import LuaStubs.Proofs.SourceFile
import Mathlib.Data.Fin.SuccPred
import Mathlib.Data.List.NodupEquivFin

namespace LuaStubs

/-- An attribute that has no part in bringing docs together. -/
def Attribute.isKept : Attribute → Bool
  | .classDecl _ | .functionDecl _ | .param _ | .other _ => true
  | .tableDecl _ | .enumDecl _ | .field _ | .global _ => false

/-- The field that an attribute gives, as a field or as a global. -/
def Attribute.given? : Attribute → Option Field
  | .field f | .global f => some f
  | _ => none

/-- The names of fields and globals are spelled by words. -/
theorem Attribute.exists_word_of_read {tag body : Text} {pos : Position} {r : AttributeReading}
    {f : Field} (h : read tag body pos = .ok r) (hf : r.value.given? = some f) :
    ∃ word, word ≠ [] ∧ (∀ c ∈ word, Text.isSpace c = false) ∧ f.name = FieldPath.ofWord word := by
  have hvalue : r.value = .field f ∨ r.value = .global f := by
    generalize r.value = a at hf
    cases a with
    | field g => exact .inl (congrArg _ (Option.some.inj hf))
    | global g => exact .inr (congrArg _ (Option.some.inj hf))
    | _ => cases hf
  obtain ⟨kind, lead, word, rest, hk, -, hcuts, hreads⟩ := read_field h hvalue
  exact ⟨word, hcuts.ne_nil, hcuts.visible hk, hreads.name⟩

theorem Attribute.plain_of_read {tag body : Text} {pos : Position} {r : AttributeReading}
    {f : Field} (h : read tag body pos = .ok r) (hf : r.value.given? = some f) : f.name.Plain := by
  obtain ⟨word, -, -, hname⟩ := exists_word_of_read h hf
  rw [hname]
  exact FieldPath.plain_ofWord word

namespace Doc

def kept (d : Doc) : List Attribute := d.attributes.filter Attribute.isKept

def given (d : Doc) : List Field := d.attributes.filterMap Attribute.given?

theorem kept_eq (d : Doc) : d.kept = d.attributes.filterMap (Option.guard Attribute.isKept) := by
  rw [kept, List.filterMap_eq_filter]

theorem kept_tabled (d : Doc) : d.globalsAsFields.withTable.kept = d.kept := by
  have hglobal : (fun a : Attribute => Option.guard Attribute.isKept a.globalAsField) =
      Option.guard Attribute.isKept := by
    funext a
    cases a <;> rfl
  rw [kept_eq, kept_eq, filterMap_withTable fun _ => rfl, filterMap_globalsAsFields, hglobal]

theorem fields_tabled (d : Doc) : d.globalsAsFields.withTable.fields = d.given := by
  have hglobal : (fun a : Attribute => a.globalAsField.field?) = Attribute.given? := by
    funext a
    cases a <;> rfl
  rw [fields, filterMap_withTable fun _ => rfl, filterMap_globalsAsFields, hglobal, given]

theorem kept_absorb (d e : Doc) : (d.absorb e).kept = d.kept ++ e.kept := by
  rw [kept_eq, kept_eq, kept_eq, filterMap_absorb fun _ => rfl]

theorem kept_mergeEnums (d : Doc) : d.mergeEnums.kept = d.kept := by
  rw [kept_eq, kept_eq, mergeEnums, filterMap_mergeEnums fun _ => rfl]

theorem kept_splitEnumFields (enums : List Text) (d : Doc) :
    (d.splitEnumFields enums).flatMap kept = d.kept := by
  rw [kept_eq, ← filterMap_splitEnumFields enums d (fun _ => rfl) fun _ => rfl]
  exact List.flatMap_congr fun e _ => kept_eq e

end Doc

namespace Library

theorem perm_kept_merged (ds : List Doc) :
    ((merged ds).flatMap Doc.kept).Perm (ds.flatMap Doc.kept) := by
  have hfold : (Doc.foldIntoEnums (tabled ds)).flatMap Doc.kept = ds.flatMap Doc.kept := by
    rw [Doc.foldIntoEnums, List.flatMap_assoc, tabled, List.flatMap_map]
    simp only [Doc.kept_splitEnumFields, Doc.kept_tabled]
  rw [merged, List.flatMap_map]
  simp only [Doc.kept_mergeEnums]
  rw [← hfold]
  exact (Doc.gathers_mergeByTable _).perm_contents Doc.kept_absorb

/-- A field of one of several docs, with the doc and its place among them. -/
structure Holding where
  place : Nat
  doc : Doc
  field : Field

/-- The fields of all docs, one doc after another. -/
def holdings (ds : List Doc) : List Holding :=
  ds.zipIdx.flatMap fun (d, place) => d.fields.map (Holding.mk place d)

/--
What docs hold is found again when they have been brought together: the attributes that have no
part in it, and every field. A field may have lost the name of its table, and the fields of one doc
stand in the order in which they were given.
-/
structure Conserves (ds ms : List Doc) : Prop where
  kept : (ms.flatMap Doc.kept).Perm (ds.flatMap Doc.kept)
  fields : ∃ move : Fin (ds.flatMap Doc.given).length ≃ Fin (holdings ms).length,
    (∀ i, Field.BecomesOn ((holdings ms).get (move i)).doc.tableKey?
      ((ds.flatMap Doc.given).get i) ((holdings ms).get (move i)).field) ∧
    ∀ i j, i < j → ((holdings ms).get (move i)).place = ((holdings ms).get (move j)).place →
      move i < move j

theorem pairwise_zipIdx {α : Type} (l : List α) (k : Nat) : (l.zipIdx k).Pairwise (·.2 < ·.2) := by
  have h : ((l.zipIdx k).map Prod.snd).Pairwise (· < ·) := by
    rw [List.zipIdx_map_snd]
    exact List.pairwise_lt_range'
  exact List.pairwise_map.mp h

/-- Numbered elements that are paired off with others, each once, are sent to their partners. -/
theorem exists_equiv_of_perm_zipIdx {α β : Type} {xs : List α} {ys : List β}
    {ps : List ((α × Nat) × β)} (hxs : (ps.map Prod.fst).Perm xs.zipIdx)
    (hys : ps.map Prod.snd = ys) : ∃ move : Fin xs.length ≃ Fin ys.length,
      ∀ i, ps[(move i).val]? = some ((xs.get i, i.val), ys.get (move i)) := by
  have hnumbers : (ps.map fun p => p.1.2).Perm (List.range xs.length) := by
    have h := hxs.map Prod.snd
    rwa [List.map_map, List.zipIdx_map_snd, ← List.range_eq_range'] at h
  have hnodup : (ps.map fun p => p.1.2).Nodup := hnumbers.nodup_iff.mpr List.nodup_range
  have hmem (n : Nat) : n < xs.length ↔ n ∈ ps.map fun p => p.1.2 := by
    rw [hnumbers.mem_iff, List.mem_range]
  have hlen : (ps.map fun p => p.1.2).length = ys.length := by
    rw [← hys, List.length_map, List.length_map]
  obtain ⟨move, hmove⟩ : ∃ move : Fin xs.length ≃ Fin (ps.map fun p => p.1.2).length,
      ∀ i, (ps.map fun p => p.1.2).get (move i) = i.val := by
    refine ⟨Fin.equivSubtype.trans ((Equiv.subtypeEquivRight hmem).trans
      (hnodup.getEquiv _).symm), fun i => ?_⟩
    exact congrArg Subtype.val
      ((hnodup.getEquiv _).apply_symm_apply ⟨i.val, (hmem i.val).mp i.isLt⟩)
  refine ⟨move.trans (finCongr hlen), fun i => ?_⟩
  have hk : (move i).val < ps.length := by simpa using (move i).isLt
  have hnumber : ps[(move i).val].1.2 = i.val := by simpa using hmove i
  have hnumbered : ps[(move i).val].1 ∈ xs.zipIdx :=
    hxs.mem_iff.mp (List.mem_map_of_mem (List.getElem_mem hk))
  have hvalue : xs[i.val]? = some ps[(move i).val].1.1 := by
    rw [← hnumber]
    exact List.mk_mem_zipIdx_iff_getElem?.mp hnumbered
  have hfst : ps[(move i).val].1 = (xs.get i, i.val) := by
    rw [List.getElem?_eq_getElem i.isLt] at hvalue
    exact Prod.ext (Option.some.inj hvalue).symm hnumber
  have hsnd : ps[(move i).val].2 = ys.get (finCongr hlen (move i)) := by
    subst hys
    simp
  rw [Equiv.trans_apply, ← hfst, ← hsnd]
  exact List.getElem?_eq_getElem hk

/-- The fields of docs, each with the field that it was at first. -/
def pairs (k : Nat) (ts : List (List Doc.Origin × Doc)) : List (Doc.Origin × Holding) :=
  (ts.zipIdx k).flatMap fun (t, place) =>
    (t.1.zip t.2.fields).map fun (o, f) => (o, Holding.mk place t.2 f)

section Pairs
variable {ts : List (List Doc.Origin × Doc)}

theorem pairs_cons (k : Nat) (t : List Doc.Origin × Doc) :
    pairs k (t :: ts) = (t.1.zip t.2.fields).map (fun (o, f) => (o, Holding.mk k t.2 f)) ++
      pairs (k + 1) ts := rfl

theorem fst_pairs (h : ∀ t ∈ ts, Doc.Traced t.1 t.2) (k : Nat) :
    (pairs k ts).map Prod.fst = ts.flatMap Prod.fst := by
  induction ts generalizing k with
  | nil => rfl
  | cons t ts ih =>
    rw [List.forall_mem_cons] at h
    have hfirst : (t.1.zip t.2.fields).map Prod.fst = t.1 :=
      List.map_fst_zip (Nat.le_of_eq h.1.fields.length_eq)
    rw [pairs_cons, List.map_append, ih h.2, List.map_map, List.flatMap_cons]
    exact congrArg (· ++ _) hfirst

theorem snd_pairs (h : ∀ t ∈ ts, Doc.Traced t.1 t.2) (k : Nat) :
    (pairs k ts).map Prod.snd = ((ts.map Prod.snd).zipIdx k).flatMap fun (d, place) =>
      d.fields.map (Holding.mk place d) := by
  induction ts generalizing k with
  | nil => rfl
  | cons t ts ih =>
    rw [List.forall_mem_cons] at h
    have hfirst : (t.1.zip t.2.fields).map Prod.snd = t.2.fields :=
      List.map_snd_zip (Nat.le_of_eq h.1.fields.length_eq.symm)
    rw [pairs_cons, List.map_append, ih h.2, List.map_map]
    refine congrArg (· ++ _) ?_
    calc (t.1.zip t.2.fields).map (Prod.snd ∘ fun (o, f) => (o, Holding.mk k t.2 f))
      _ = ((t.1.zip t.2.fields).map Prod.snd).map (Holding.mk k t.2) := by
        rw [List.map_map]
        rfl
      _ = t.2.fields.map (Holding.mk k t.2) := by rw [hfirst]

theorem becomesOn_of_mem_pairs (h : ∀ t ∈ ts, Doc.Traced t.1 t.2) {k : Nat}
    {p : Doc.Origin × Holding} (hp : p ∈ pairs k ts) :
    Field.BecomesOn p.2.doc.tableKey? p.1.1 p.2.field := by
  obtain ⟨⟨t, place⟩, ht, hp⟩ := List.mem_flatMap.mp hp
  obtain ⟨⟨o, f⟩, hof, rfl⟩ := List.mem_map.mp hp
  have htraced := h t (List.fst_mem_of_mem_zipIdx ht)
  exact (List.forall₂_iff_zip.mp htraced.fields).2 hof

/-- On each doc the fields stand by the numbers that they had. -/
theorem pairwise_pairs (h : ∀ t ∈ ts, Doc.Traced t.1 t.2) (k : Nat) :
    (pairs k ts).Pairwise fun p q => p.2.place = q.2.place → p.1.2 < q.1.2 := by
  unfold pairs
  rw [List.pairwise_flatMap]
  constructor
  · rintro ⟨t, place⟩ ht
    have htraced := h t (List.fst_mem_of_mem_zipIdx ht)
    have hsorted := htraced.sorted
    rw [← List.map_fst_zip (Nat.le_of_eq htraced.fields.length_eq), List.pairwise_map] at hsorted
    rw [List.pairwise_map]
    refine hsorted.imp ?_
    rintro ⟨o, f⟩ ⟨o', f'⟩ hlt _
    exact hlt
  · refine (pairwise_zipIdx ts k).imp ?_
    rintro ⟨t, place⟩ ⟨t', place'⟩ hlt p hp q hq hplace
    obtain ⟨_, -, rfl⟩ := List.mem_map.mp hp
    obtain ⟨_, -, rfl⟩ := List.mem_map.mp hq
    exact absurd hplace (Nat.ne_of_lt hlt)

end Pairs

/-- At first every field has its own place in the order of all. -/
theorem exists_numbering (ds : List Doc) (k : Nat) : ∃ ts : List (List Doc.Origin × Doc),
    ts.map Prod.snd = ds ∧ (∀ t ∈ ts, t.1.map Prod.fst = t.2.fields) ∧
      ts.flatMap Prod.fst = (ds.flatMap Doc.fields).zipIdx k := by
  induction ds generalizing k with
  | nil => exact ⟨[], rfl, by simp, rfl⟩
  | cons d ds ih =>
    obtain ⟨ts, hdocs, hfields, hnumbers⟩ := ih (k + d.fields.length)
    refine ⟨(d.fields.zipIdx k, d) :: ts, congrArg (d :: ·) hdocs,
      List.forall_mem_cons.mpr ⟨List.zipIdx_map_fst k d.fields, hfields⟩, ?_⟩
    rw [List.flatMap_cons, List.flatMap_cons, List.zipIdx_append, hnumbers]

theorem exists_tracks_merged {ds : List Doc} (h : ∀ d ∈ ds, ∀ f ∈ d.given, f.name.Plain) :
    ∃ ts, Doc.Tracks (ds.flatMap Doc.given).zipIdx (merged ds) ts := by
  have hgiven : (tabled ds).flatMap Doc.fields = ds.flatMap Doc.given := by
    rw [tabled, List.flatMap_map]
    exact List.flatMap_congr fun d _ => Doc.fields_tabled d
  obtain ⟨ts, hdocs, hfields, hnumbers⟩ := exists_numbering (tabled ds) 0
  have hsorted := pairwise_zipIdx ((tabled ds).flatMap Doc.fields) 0
  rw [← hnumbers] at hsorted
  have hplain : ∀ t ∈ ts, ∀ f ∈ t.2.fields, f.name.Plain := by
    intro t ht f hf
    have hmem : t.2 ∈ tabled ds := hdocs ▸ List.mem_map_of_mem ht
    obtain ⟨d, hd, hdt⟩ := List.mem_map.mp hmem
    rw [← hdt, Doc.fields_tabled] at hf
    exact h d hd f hf
  obtain ⟨us, hus, hordered⟩ := Doc.exists_tracks_flatMap_splitEnumFields
    (Doc.enumNames (tabled ds)) hfields hsorted hplain
  rw [hdocs, hnumbers, hgiven] at hus
  obtain ⟨vs, hvs⟩ := (Doc.gathers_mergeByTable _).exists_tracks hus hordered
  exact hvs.exists_mergeEnums

theorem conserves_merged {ds : List Doc} (h : ∀ d ∈ ds, ∀ f ∈ d.given, f.name.Plain) :
    Conserves ds (merged ds) := by
  refine ⟨perm_kept_merged ds, ?_⟩
  obtain ⟨ts, hts⟩ := exists_tracks_merged h
  have hxs : ((pairs 0 ts).map Prod.fst).Perm (ds.flatMap Doc.given).zipIdx := by
    rw [fst_pairs hts.traced]
    exact hts.perm
  have hys : (pairs 0 ts).map Prod.snd = holdings (merged ds) := by
    rw [snd_pairs hts.traced, hts.docs]
    rfl
  obtain ⟨move, hmove⟩ := exists_equiv_of_perm_zipIdx hxs hys
  refine ⟨move, fun i => ?_, fun i j hij hplace => ?_⟩
  · exact becomesOn_of_mem_pairs hts.traced (List.mem_of_getElem? (hmove i))
  · -- were they the other way round, their numbers would be too
    by_contra hle
    have hne : (move i).val ≠ (move j).val := by
      intro heq
      rw [move.injective (Fin.ext heq)] at hij
      exact absurd hij (Fin.lt_irrefl j)
    have hlt : (move j).val < (move i).val := by omega
    obtain ⟨hi, hpi⟩ := List.getElem?_eq_some_iff.mp (hmove i)
    obtain ⟨hj, hpj⟩ := List.getElem?_eq_some_iff.mp (hmove j)
    have hback := List.pairwise_iff_getElem.mp (pairwise_pairs hts.traced 0) _ _ hj hi hlt
    rw [hpi, hpj] at hback
    exact absurd (hback hplace.symm) (Nat.not_lt_of_lt hij)

/-- Bringing the docs of some files together loses nothing of them and keeps the order of fields. -/
theorem conserves_merged_docsOf (files : List (Text × Text)) :
    Conserves (SourceFile.docsOf files) (merged (SourceFile.docsOf files)) := by
  apply conserves_merged
  intro d hd f hf
  obtain ⟨a, ha, hfa⟩ := List.mem_filterMap.mp hf
  obtain ⟨tag, body, pos, r, hread, rfl⟩ := SourceFile.exists_read_of_mem_docsOf hd ha
  exact Attribute.plain_of_read hread hfa

end Library

end LuaStubs
