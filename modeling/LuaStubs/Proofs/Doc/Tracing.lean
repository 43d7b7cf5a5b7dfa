import LuaStubs.Proofs.Doc.Folding
import LuaStubs.Proofs.Doc.Grouping
import Mathlib.Data.List.Forall2

namespace LuaStubs

/-- On a doc of the table `key` a field keeps its name, or loses the name of the table. -/
def Field.BecomesOn (key : Option Text) (f g : Field) : Prop :=
  g.type = f.type ∧
  (g.name = f.name ∨ ∃ names, names ≠ [] ∧ f.name = names.map .name ++ g.name ∧ g.name ≠ [] ∧
    key = some (dottedName names))

namespace Doc

/-- A field as it was at first, and its number. -/
abbrev Origin := Field × Nat

/-- The fields of a doc have been these, and stand in the same order. -/
structure Traced (os : List Origin) (d : Doc) : Prop where
  fields : List.Forall₂ (fun o g => Field.BecomesOn d.tableKey? o.1 g) os d.fields
  sorted : os.Pairwise (·.2 < ·.2)

/-- Docs with the origins of their fields, which are all of `os`. -/
structure Tracks (os : List Origin) (ds : List Doc) (ts : List (List Origin × Doc)) : Prop where
  docs : ts.map Prod.snd = ds
  traced : ∀ t ∈ ts, Traced t.1 t.2
  perm : (ts.flatMap Prod.fst).Perm os

/-- The fields of docs of one table come in the order of the docs. -/
def Precedes (s t : List Origin × Doc) : Prop :=
  ∀ key, s.2.tableKey? = some key → t.2.tableKey? = some key → ∀ o ∈ s.1, ∀ p ∈ t.1, o.2 < p.2

theorem Tracks.append {os ps : List Origin} {ds es : List Doc} {ts us : List (List Origin × Doc)}
    (h : Tracks os ds ts) (h' : Tracks ps es us) : Tracks (os ++ ps) (ds ++ es) (ts ++ us) := by
  refine ⟨?_, ?_, ?_⟩
  · rw [List.map_append, h.docs, h'.docs]
  · intro t ht
    exact (List.mem_append.mp ht).elim (h.traced t) (h'.traced t)
  · rw [List.flatMap_append]
    exact h.perm.append h'.perm

theorem Tracks.of_perm {os ps : List Origin} {ds : List Doc} {ts : List (List Origin × Doc)}
    (h : Tracks os ds ts) (hp : os.Perm ps) : Tracks ps ds ts :=
  ⟨h.docs, h.traced, h.perm.trans hp⟩

theorem Tracks.mem {os : List Origin} {ds : List Doc} {ts : List (List Origin × Doc)}
    (h : Tracks os ds ts) {t : List Origin × Doc} {o : Origin} (ht : t ∈ ts) (ho : o ∈ t.1) :
    o ∈ os :=
  h.perm.mem_iff.mp (List.mem_flatMap.mpr ⟨t, ht, ho⟩)

theorem nodup_eraseDups {α : Type} [BEq α] [LawfulBEq α] (l : List α) : l.eraseDups.Nodup := by
  induction hn : l.length using Nat.strongRecOn generalizing l with
  | ind n ih =>
    subst hn
    cases l with
    | nil => exact List.nodup_nil
    | cons a as =>
      rw [List.eraseDups_cons, List.nodup_cons, List.mem_eraseDups]
      exact ⟨by simp, ih _ (Nat.lt_succ_of_le (List.length_filter_le _ _)) _ rfl⟩

/-- A list falls apart by what its elements are sent to. -/
theorem perm_filter_append_flatMap {α β : Type} [DecidableEq β] (g : α → Option β) {ks : List β}
    (hks : ks.Nodup) {l : List α} (h : ∀ a ∈ l, ∀ b, g a = some b → b ∈ ks) :
    (l.filter (fun a => (g a).isNone) ++ ks.flatMap fun k => l.filter (g · = some k)).Perm l := by
  induction ks generalizing l with
  | nil =>
    have hall : l.filter (fun a => (g a).isNone) = l := by
      rw [List.filter_eq_self]
      intro a ha
      cases hb : g a with
      | none => rfl
      | some b => cases h a ha b hb
    rw [hall]
    exact .of_eq (List.append_nil l)
  | cons k ks ih =>
    rw [List.nodup_cons] at hks
    have hrest := ih hks.2 (l := l.filter fun a => !decide (g a = some k)) fun a ha b hb => by
      rw [List.mem_filter] at ha
      obtain rfl | hb' := List.mem_cons.mp (h a ha.1 b hb)
      · simp [hb] at ha
      · exact hb'
    have hnone : (l.filter fun a => !decide (g a = some k)).filter (fun a => (g a).isNone) =
        l.filter fun a => (g a).isNone := by
      rw [List.filter_filter]
      apply List.filter_congr
      intro a _
      cases g a <;> simp
    have hsome : (ks.flatMap fun k' =>
        (l.filter fun a => !decide (g a = some k)).filter (g · = some k')) =
        ks.flatMap fun k' => l.filter (g · = some k') := by
      apply List.flatMap_congr
      intro k' hk'
      rw [List.filter_filter]
      apply List.filter_congr
      intro a _
      by_cases ha : g a = some k'
      · have hne : k' ≠ k := fun heq => hks.1 (heq ▸ hk')
        simp [ha, hne]
      · simp [ha]
    rw [hnone, hsome] at hrest
    rw [List.flatMap_cons]
    refine List.perm_append_comm_assoc _ _ _ |>.trans ?_
    exact (hrest.append_left _).trans (List.filter_append_perm _ l)

section Split
variable {enums : List Text} {d : Doc} {os : List Origin}

theorem traced_of_eq (hfields : os.map Prod.fst = d.fields) (hsorted : os.Pairwise (·.2 < ·.2)) :
    Traced os d := by
  refine ⟨?_, hsorted⟩
  rw [← hfields, List.forall₂_map_right_iff, List.forall₂_same]
  exact fun o _ => ⟨rfl, .inl rfl⟩

theorem traced_withoutEnumFields (hfields : os.map Prod.fst = d.fields)
    (hsorted : os.Pairwise (·.2 < ·.2)) :
    Traced (os.filter fun o => (o.1.enum? enums).isNone) (d.withoutEnumFields enums) := by
  apply traced_of_eq
  · rw [fields_withoutEnumFields, ← hfields, List.filter_map]
    rfl
  · exact hsorted.filter _

/-- The enum of a field is cut off its name when it leaves. -/
def LeavesAs (enums : List Text) (o : Origin) (p : List Text × Field) : Prop :=
  o.1.enum? enums = some p.1 ∧ p.2.type = o.1.type ∧ p.2.name = o.1.name.drop p.1.length

theorem forall₂_enumFields (hfields : os.map Prod.fst = d.fields) :
    List.Forall₂ (LeavesAs enums) (os.filter fun o => (o.1.enum? enums).isSome)
      (d.enumFields enums) := by
  rw [enumFields, ← hfields, List.filterMap_map]
  clear hfields
  induction os with
  | nil => exact .nil
  | cons o os ih =>
    cases he : o.1.enum? enums with
    | none =>
      rw [List.filter_cons_of_neg (by simp [he]), List.filterMap_cons_none (by simp [he])]
      exact ih
    | some e =>
      rw [List.filter_cons_of_pos (by simp [he]),
        List.filterMap_cons_some (b := (e, { o.1 with name := o.1.name.drop e.length }))
          (by simp [he])]
      exact .cons ⟨he, rfl, rfl⟩ ih

theorem forall₂_describeFirst {os : List Origin} {fs : List (List Text × Field)}
    (description : Text) (h : List.Forall₂ (LeavesAs enums) os fs) :
    List.Forall₂ (LeavesAs enums) os (describeFirst description fs) := by
  cases h with
  | nil => exact .nil
  | cons ho hos => exact .cons ho hos

theorem LeavesAs.becomesOn {o : Origin} {p : List Text × Field} (h : LeavesAs enums o p) :
    Field.BecomesOn (some (dottedName p.1)) o.1 p.2 := by
  obtain ⟨henum, htype, hname⟩ := h
  obtain ⟨hne, happ, hrest⟩ := Field.name_of_enum? henum
  rw [← hname] at happ hrest
  exact ⟨htype, .inr ⟨p.1, hne, happ, hrest, rfl⟩⟩

theorem forall₂_filter_leavesAs {os : List Origin} {fs : List (List Text × Field)}
    (h : List.Forall₂ (LeavesAs enums) os fs) (e : List Text) :
    List.Forall₂ (fun o p => LeavesAs enums o (e, p.2))
      (os.filter fun o => o.1.enum? enums = some e) (fs.filter fun p => p.1 == e) := by
  induction h with
  | nil => exact .nil
  | @cons o p os fs hop _ ih =>
    have henum := hop.1
    by_cases hp : p.1 = e
    · subst hp
      rw [List.filter_cons_of_pos (by simp [henum]), List.filter_cons_of_pos (by simp)]
      exact .cons hop ih
    · rw [List.filter_cons_of_neg (by simpa [henum] using hp),
        List.filter_cons_of_neg (by simpa using hp)]
      exact ih

/-- The fields that a doc brings to an enum, beside what they have been. -/
theorem forall₂_enumDoc (hfields : os.map Prod.fst = d.fields) (e : List Text) :
    List.Forall₂ (fun o g => LeavesAs enums o (e, g)) (os.filter fun o => o.1.enum? enums = some e)
      (d.enumDoc enums e).fields := by
  have hleave : List.Forall₂ (LeavesAs enums) _ _ :=
    forall₂_describeFirst d.description (forall₂_enumFields hfields)
  have hfilter : (os.filter fun o => (o.1.enum? enums).isSome).filter
      (fun o => o.1.enum? enums = some e) = os.filter fun o => o.1.enum? enums = some e := by
    rw [List.filter_filter]
    apply List.filter_congr
    intro o _
    cases o.1.enum? enums <;> simp
  rw [enumDoc, fields_bringing, List.forall₂_map_right_iff, ← hfilter]
  exact forall₂_filter_leavesAs hleave e

theorem traced_enumDoc (hfields : os.map Prod.fst = d.fields) (hsorted : os.Pairwise (·.2 < ·.2))
    (e : List Text) :
    Traced (os.filter fun o => o.1.enum? enums = some e) (d.enumDoc enums e) := by
  refine ⟨?_, hsorted.filter _⟩
  have hkey : (d.enumDoc enums e).tableKey? = some (dottedName e) := tableKey?_bringing d e _
  rw [hkey]
  exact (forall₂_enumDoc hfields e).imp fun _ _ h => h.becomesOn

/-- What remains of a doc, unless that is nothing. -/
theorem exists_tracks_withoutEnumFields (hfields : os.map Prod.fst = d.fields)
    (hsorted : os.Pairwise (·.2 < ·.2)) :
    ∃ ts, Tracks (os.filter fun o => (o.1.enum? enums).isNone)
      (if (d.withoutEnumFields enums).isEmpty then [] else [d.withoutEnumFields enums]) ts := by
  have htraced : Traced (os.filter fun o => (o.1.enum? enums).isNone) _ :=
    traced_withoutEnumFields hfields hsorted
  split
  · next hempty =>
    have hnone := htraced.fields
    rw [fields, attributes_of_isEmpty hempty] at hnone
    rw [List.forall₂_nil_right_iff.mp hnone]
    exact ⟨[], rfl, by simp, .refl _⟩
  · exact ⟨[(_, d.withoutEnumFields enums)], rfl, by simpa using htraced,
      .of_eq (List.append_nil _)⟩

theorem exists_tracks_enumDocs (hfields : os.map Prod.fst = d.fields)
    (hsorted : os.Pairwise (·.2 < ·.2)) (hplain : ∀ f ∈ d.fields, f.name.Plain) :
    ∃ ts, Tracks ((d.fieldEnums enums).flatMap fun e =>
      os.filter fun o => o.1.enum? enums = some e) (d.enumDocs enums) ts ∧
      ts.Pairwise Precedes := by
  refine ⟨(d.fieldEnums enums).map fun e =>
    (os.filter fun o => o.1.enum? enums = some e, d.enumDoc enums e), ⟨?_, ?_, ?_⟩, ?_⟩
  · rw [enumDocs_eq, List.map_map]
    rfl
  · intro t ht
    obtain ⟨e, -, rfl⟩ := List.mem_map.mp ht
    exact traced_enumDoc hfields hsorted e
  · rw [List.flatMap_map]
  · -- the names of enums are different texts, since they have no dots inside
    rw [List.pairwise_map]
    refine (nodup_eraseDups _).imp_of_mem ?_
    intro e e' he he' hne key hkey hkey'
    obtain ⟨f, hf, hfe⟩ := mem_fieldEnums.mp he
    obtain ⟨f', hf', hfe'⟩ := mem_fieldEnums.mp he'
    rw [enumDoc, tableKey?_bringing] at hkey hkey'
    refine absurd ?_ hne
    exact dottedName_inj (Field.name_of_enum? hfe).1 (Field.name_of_enum? hfe').1
      (Field.not_dot_mem_enum? (hplain f hf) hfe) (Field.not_dot_mem_enum? (hplain f' hf') hfe')
      (Option.some.inj (hkey.trans hkey'.symm))

/-- The docs that a doc is split into are of different tables. -/
theorem exists_tracks_splitEnumFields (enums : List Text) (hfields : os.map Prod.fst = d.fields)
    (hsorted : os.Pairwise (·.2 < ·.2)) (hplain : ∀ f ∈ d.fields, f.name.Plain) :
    ∃ ts, Tracks os (d.splitEnumFields enums) ts ∧ ts.Pairwise Precedes := by
  unfold splitEnumFields
  split
  · exact ⟨[(os, d)], ⟨rfl, by simpa using traced_of_eq hfields hsorted,
      .of_eq (List.append_nil os)⟩, List.pairwise_singleton _ _⟩
  next hsplit =>
  obtain ⟨rs, hrs⟩ := exists_tracks_withoutEnumFields hfields hsorted
  obtain ⟨ts, hts, hordered⟩ := exists_tracks_enumDocs hfields hsorted hplain
  have hkey : ∀ r ∈ rs, r.2.tableKey? = none := by
    intro r hr
    have hmem : r.2 ∈ rs.map Prod.snd := List.mem_map_of_mem hr
    rw [hrs.docs] at hmem
    split at hmem
    · cases hmem
    rw [List.mem_singleton.mp hmem]
    simp only [Bool.or_eq_true, not_or, Bool.not_eq_true] at hsplit
    exact tableKey?_eq_none (has_eq_false_of_sublist List.filter_sublist hsplit.1)
  refine ⟨rs ++ ts, (hrs.append hts).of_perm ?_, ?_⟩
  · apply perm_filter_append_flatMap (fun o : Origin => o.1.enum? enums) (nodup_eraseDups _)
    intro o ho e he
    exact mem_fieldEnums.mpr ⟨o.1, hfields ▸ List.mem_map_of_mem ho, he⟩
  · have hvacuous {r} (hr : r ∈ rs) (t) : Precedes r t := by
      intro key hk
      rw [hkey r hr] at hk
      cases hk
    rw [List.pairwise_append]
    exact ⟨List.pairwise_of_forall_mem_list fun r hr t _ => hvacuous hr t, hordered,
      fun r hr t _ => hvacuous hr t⟩

/-- Docs one after another: fields of one table still come in the order of the docs. -/
theorem exists_tracks_flatMap_splitEnumFields (enums : List Text) {ts : List (List Origin × Doc)}
    (hfields : ∀ t ∈ ts, t.1.map Prod.fst = t.2.fields)
    (hsorted : (ts.flatMap Prod.fst).Pairwise (·.2 < ·.2))
    (hplain : ∀ t ∈ ts, ∀ f ∈ t.2.fields, f.name.Plain) :
    ∃ us, Tracks (ts.flatMap Prod.fst) ((ts.map Prod.snd).flatMap (splitEnumFields enums)) us ∧
      us.Pairwise Precedes := by
  induction ts with
  | nil => exact ⟨[], ⟨rfl, by simp, .refl _⟩, .nil⟩
  | cons t ts ih =>
    rw [List.forall_mem_cons] at hfields hplain
    rw [List.flatMap_cons, List.pairwise_append] at hsorted
    obtain ⟨hfirst, hrest, hbetween⟩ := hsorted
    obtain ⟨us, hus, husOrdered⟩ := exists_tracks_splitEnumFields enums hfields.1 hfirst hplain.1
    obtain ⟨vs, hvs, hvsOrdered⟩ := ih hfields.2 hrest hplain.2
    refine ⟨us ++ vs, hus.append hvs, List.pairwise_append.mpr ⟨husOrdered, hvsOrdered, ?_⟩⟩
    intro u hu v hv _ _ _ o ho p hp
    exact hbetween o (hus.mem hu ho) p (hvs.mem hv hp)

end Split

section Gather
variable {ts : List (List Origin × Doc)} {key : Text}

theorem forall₂_flatMap_fields (h : ∀ t ∈ ts, Traced t.1 t.2)
    (hkey : ∀ t ∈ ts, t.2.tableKey? = some key) :
    List.Forall₂ (fun o g => Field.BecomesOn (some key) o.1 g) (ts.flatMap Prod.fst)
      ((ts.map Prod.snd).flatMap fields) := by
  induction ts with
  | nil => exact .nil
  | cons t ts ih =>
    rw [List.forall_mem_cons] at h hkey
    have hfirst := h.1.fields
    rw [hkey.1] at hfirst
    exact List.rel_append hfirst (ih h.2 hkey.2)

/-- The doc that takes in others of its table has their fields after its own. -/
theorem traced_foldl_absorb {t : List Origin × Doc} (h : ∀ s ∈ t :: ts, Traced s.1 s.2)
    (hkey : ∀ s ∈ t :: ts, s.2.tableKey? = some key) (hordered : (t :: ts).Pairwise Precedes) :
    Traced ((t :: ts).flatMap Prod.fst) ((ts.map Prod.snd).foldl absorb t.2) := by
  constructor
  · rw [tableKey?_foldl_absorb (hkey t (by simp)), contents_foldl_absorb fields_absorb]
    exact forall₂_flatMap_fields h hkey
  · rw [List.pairwise_flatMap]
    refine ⟨fun s hs => (h s hs).sorted, hordered.imp_of_mem ?_⟩
    intro s s' hs hs' hprecedes
    exact hprecedes key (hkey s hs) (hkey s' hs')

end Gather

theorem Gathers.exists_tracks {ds rs : List Doc} (h : Gathers ds rs) {os : List Origin}
    {ts : List (List Origin × Doc)} (hts : Tracks os ds ts) (hordered : ts.Pairwise Precedes) :
    ∃ us, Tracks os rs us := by
  induction h generalizing os ts with
  | nil => exact ⟨ts, hts⟩
  | @alone d ds rs hd _ ih =>
    obtain ⟨hdocs, htraced, hperm⟩ := hts
    obtain ⟨t, ts, rfl, rfl, rfl⟩ := List.map_eq_cons_iff.mp hdocs
    rw [List.forall_mem_cons] at htraced
    obtain ⟨us, hus⟩ := ih ⟨rfl, htraced.2, .refl _⟩ hordered.of_cons
    exact ⟨t :: us, congrArg (t.2 :: ·) hus.docs, List.forall_mem_cons.mpr ⟨htraced.1, hus.traced⟩,
      (hus.perm.append_left t.1).trans hperm⟩
  | @table d ds rs key hd _ ih =>
    obtain ⟨hdocs, htraced, hperm⟩ := hts
    obtain ⟨t, ts, rfl, rfl, rfl⟩ := List.map_eq_cons_iff.mp hdocs
    rw [List.forall_mem_cons] at htraced
    have hsame : (ts.filter fun s => s.2.tableKey? = some key).map Prod.snd =
        (ts.map Prod.snd).filter (·.tableKey? = some key) := by
      rw [List.filter_map]
      rfl
    have hother : (ts.filter fun s => s.2.tableKey? ≠ some key).map Prod.snd =
        (ts.map Prod.snd).filter (·.tableKey? ≠ some key) := by
      rw [List.filter_map]
      rfl
    obtain ⟨us, hus⟩ := ih ⟨hother, fun s hs => htraced.2 s (List.mem_of_mem_filter hs), .refl _⟩
      (hordered.of_cons.filter _)
    have hfirst : Traced ((t :: ts.filter fun s => s.2.tableKey? = some key).flatMap Prod.fst)
        (((ts.map Prod.snd).filter (·.tableKey? = some key)).foldl absorb t.2) := by
      rw [← hsame]
      apply traced_foldl_absorb
      · exact List.forall_mem_cons.mpr
          ⟨htraced.1, fun s hs => htraced.2 s (List.mem_of_mem_filter hs)⟩
      · refine List.forall_mem_cons.mpr ⟨hd, fun s hs => ?_⟩
        simpa using (List.mem_filter.mp hs).2
      · exact hordered.sublist (List.filter_sublist.cons_cons t)
    have hall : ((t :: ts.filter fun s => s.2.tableKey? = some key).flatMap Prod.fst ++
        us.flatMap Prod.fst).Perm os := by
      rw [List.flatMap_cons, List.append_assoc]
      refine List.Perm.trans (.append_left t.1 ?_) hperm
      exact (hus.perm.append_left _).trans
        (perm_flatMap_filter (fun s : List Origin × Doc => s.2.tableKey?) key Prod.fst ts)
    exact ⟨(_, _) :: us, congrArg (_ :: ·) hus.docs,
      List.forall_mem_cons.mpr ⟨hfirst, hus.traced⟩, hall⟩

theorem fields_mergeEnums (d : Doc) : d.mergeEnums.fields = d.fields :=
  filterMap_mergeEnums (fun _ => rfl) d.attributes

theorem tableKey?_mergeEnums (d : Doc) : d.mergeEnums.tableKey? = d.tableKey? := by
  rw [tableKey?_eq_head?, tableKey?_eq_head?, mergeEnums, filterMap_mergeEnums fun _ => rfl]

theorem Tracks.exists_mergeEnums {os : List Origin} {ds : List Doc} {ts : List (List Origin × Doc)}
    (h : Tracks os ds ts) : ∃ us, Tracks os (ds.map mergeEnums) us := by
  refine ⟨ts.map fun t => (t.1, t.2.mergeEnums), ?_, ?_, ?_⟩
  · rw [← h.docs, List.map_map, List.map_map]
    rfl
  · intro u hu
    obtain ⟨t, ht, rfl⟩ := List.mem_map.mp hu
    refine ⟨?_, (h.traced t ht).sorted⟩
    rw [fields_mergeEnums, tableKey?_mergeEnums]
    exact (h.traced t ht).fields
  · rw [List.flatMap_map]
    exact h.perm

end Doc

end LuaStubs
