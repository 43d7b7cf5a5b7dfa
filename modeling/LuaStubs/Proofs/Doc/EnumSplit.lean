import LuaStubs.Proofs.Doc.Folding
import Mathlib.Data.List.Forall2
import Mathlib.Data.List.Induction

namespace LuaStubs

namespace Field

/-- Some plain names in front of the keys of a field, but not all of its keys, name an enum. -/
structure Matches (ds : List Doc) (f : Field) (e : List Text) : Prop where
  ne_nil : e ≠ []
  front : ∃ keys, keys ≠ [] ∧ f.name = e.map .name ++ keys
  enum : ∃ d ∈ ds, ∃ enum, Attribute.enumDecl enum ∈ d.attributes ∧
    dottedName enum.name = dottedName e

/-- A field belongs to the enum with the most names. -/
structure BelongsTo (ds : List Doc) (f : Field) (e : List Text) : Prop where
  named : f.Matches ds e
  longest : ∀ e', f.Matches ds e' → e'.length ≤ e.length

/-- A field on its way to an enum loses the names of the enum and nothing else. -/
structure MovesAs (ds : List Doc) (f : Field) (e : List Text) (g : Field) : Prop where
  belongs : f.BelongsTo ds e
  name : f.name = e.map .name ++ g.name
  type : g.type = f.type
  description : g.description = f.description

end Field

namespace Doc

/-- The attributes of a doc part into those that stay and the fields that leave for their enums. -/
inductive Parts (ds : List Doc) :
    List Attribute → List Attribute → List (List Text × Field) → Prop
  | nil : Parts ds [] [] []
  | stays {a : Attribute} {as kept : List Attribute} {leaving : List (List Text × Field)}
      (ha : ∀ f, a = .field f → ∀ e, ¬f.Matches ds e) (h : Parts ds as kept leaving) :
      Parts ds (a :: as) (a :: kept) leaving
  | leaves {f g : Field} {e : List Text} {as kept : List Attribute}
      {leaving : List (List Text × Field)}
      (hf : f.MovesAs ds e g) (h : Parts ds as kept leaving) :
      Parts ds (.field f :: as) kept ((e, g) :: leaving)

/-- The elements of a list, each once and in the order in which they are met first. -/
structure FirstMet {α : Type} [BEq α] (l es : List α) : Prop where
  mem_iff : ∀ a, a ∈ es ↔ a ∈ l
  sorted : es.Pairwise fun a b => l.idxOf a < l.idxOf b

/-- The doc of an enum that fields leave for: those fields in order, then the table. -/
def donor (d : Doc) (leaving : List (List Text × Field)) (e : List Text) : Doc where
  attributes := (leaving.filter (·.1 = e)).map (fun p => .field p.2) ++ [.tableDecl ⟨e, false, []⟩]
  path := d.path
  start := d.start
  stop := d.stop

/-- What a doc is replaced by. The first field that leaves takes the description along. -/
inductive Replaced (ds : List Doc) (d : Doc) : List Doc → Prop
  | whole (h : d.has .tableDecl = true ∨ ∀ f ∈ d.fields, ∀ e, ¬f.Matches ds e) :
      Replaced ds d [d]
  | split {kept : List Attribute} {e : List Text} {g : Field} {later : List (List Text × Field)}
      {enums : List (List Text)} (hd : d.has .tableDecl = false)
      (hparts : Parts ds d.attributes kept ((e, g) :: later))
      (henums : FirstMet (e :: later.map Prod.fst) enums) :
      Replaced ds d
        ((if kept = [] ∧ d.declarations = [] then []
          else [{ d with description := [], attributes := kept }]) ++
        enums.map (d.donor ((e, { g with
          description := Text.joinParagraphs d.description g.description }) :: later)))

theorem firstMet_eraseDups {α : Type} [BEq α] [LawfulBEq α] (l : List α) :
    FirstMet l l.eraseDups := by
  refine ⟨fun a => List.mem_eraseDups, ?_⟩
  induction l using List.reverseRecOn with
  | nil => exact .nil
  | append_singleton l a ih =>
    have hbefore : l.eraseDups.Pairwise fun b c => (l ++ [a]).idxOf b < (l ++ [a]).idxOf c := by
      refine ih.imp_of_mem fun hb hc h => ?_
      rw [List.mem_eraseDups] at hb hc
      rwa [List.idxOf_append_of_mem hb, List.idxOf_append_of_mem hc]
    rw [List.eraseDups_append]
    by_cases ha : a ∈ l
    · simpa [List.removeAll, ha] using hbefore
    · have hlast : ([a].removeAll l).eraseDups = [a] := by
        simp [List.removeAll, ha, List.eraseDups_cons]
      rw [hlast, List.pairwise_append]
      refine ⟨hbefore, List.pairwise_singleton _ a, fun b hb c hc => ?_⟩
      rw [List.mem_eraseDups] at hb
      rw [List.mem_singleton.mp hc, List.idxOf_append_of_mem hb, List.idxOf_append_of_notMem ha]
      exact Nat.lt_of_lt_of_le (List.idxOf_lt_length_iff.mpr hb) (Nat.le_add_right _ _)

end Doc

section Names
variable {ds : List Doc} {f : Field} {e : List Text}

theorem Field.matches_of_enum? (h : f.enum? (Doc.enumNames ds) = some e) : f.Matches ds e := by
  obtain ⟨hne, hname, hkeys⟩ := Field.name_of_enum? h
  exact ⟨hne, ⟨_, hkeys, hname⟩, Doc.mem_enumNames.mp (dottedName_mem_of_enumPrefix? h)⟩

theorem Field.Matches.exists_enum? (h : f.Matches ds e) :
    ∃ e', f.enum? (Doc.enumNames ds) = some e' ∧ e.length ≤ e'.length := by
  obtain ⟨keys, hkeys, hname⟩ := h.front
  have hfront : f.name.frontNames = e ++ FieldPath.frontNames keys := by
    rw [hname, FieldPath.frontNames_append]
  have htake : f.name.frontNames.take e.length = e := by rw [hfront, List.take_left]
  have hbound : e.length ≤ min f.name.frontNames.length (f.name.length - 1) := by
    have hpos := List.length_pos_iff.mpr hkeys
    rw [hfront, hname, List.length_append, List.length_append, List.length_map]
    omega
  have hmem : dottedName (f.name.frontNames.take e.length) ∈ Doc.enumNames ds := by
    rw [htake]
    exact Doc.mem_enumNames.mpr h.enum
  have hfound := exists_enumPrefix? (List.length_pos_iff.mpr h.ne_nil) hbound hmem
  rwa [htake] at hfound

theorem Field.enum?_eq_none_iff :
    f.enum? (Doc.enumNames ds) = none ↔ ∀ e, ¬f.Matches ds e := by
  constructor
  · intro hnone e h
    obtain ⟨e', he', -⟩ := h.exists_enum?
    rw [hnone] at he'
    cases he'
  · intro h
    cases he : f.enum? (Doc.enumNames ds) with
    | none => rfl
    | some e => exact absurd (Field.matches_of_enum? he) (h e)

theorem Field.movesAs_of_enum? (h : f.enum? (Doc.enumNames ds) = some e) :
    f.MovesAs ds e { f with name := f.name.drop e.length } := by
  refine ⟨⟨Field.matches_of_enum? h, fun e' h' => ?_⟩, (Field.name_of_enum? h).2.1, rfl, rfl⟩
  obtain ⟨e'', he'', hle⟩ := h'.exists_enum?
  obtain rfl := Option.some.inj (h.symm.trans he'')
  exact hle

end Names

namespace Doc

/-- The induction is on the attributes, whatever else the doc holds. -/
theorem parts_attributes (ds : List Doc) (d : Doc) (as : List Attribute) :
    Parts ds as ({ d with attributes := as }.withoutEnumFields (enumNames ds)).attributes
      ({ d with attributes := as }.enumFields (enumNames ds)) := by
  induction as with
  | nil => exact .nil
  | cons a as ih =>
    cases a with
    | field f =>
      cases he : f.enum? (enumNames ds) with
      | none =>
        have hstays : ∀ g, Attribute.field f = .field g → ∀ e, ¬g.Matches ds e := by
          rintro g ⟨⟩
          exact Field.enum?_eq_none_iff.mp he
        simpa [withoutEnumFields, enumFields, fields, Attribute.field?, he] using
          Parts.stays hstays ih
      | some e =>
        simpa [withoutEnumFields, enumFields, fields, Attribute.field?, he] using
          Parts.leaves (Field.movesAs_of_enum? he) ih
    | _ => exact .stays (by rintro f ⟨⟩) ih

/-- No field of the doc is to be brought to an enum. -/
def IsSettled (enums : List Text) (d : Doc) : Prop :=
  d.has .tableDecl = true ∨ ∀ f ∈ d.fields, f.enum? enums = none

section Split
variable {enums : List Text} {d : Doc}

theorem isEmpty_enumFields_iff :
    (d.enumFields enums).isEmpty = true ↔ ∀ f ∈ d.fields, f.enum? enums = none := by
  rw [List.isEmpty_iff, enumFields, List.filterMap_eq_nil_iff]
  simp only [Option.map_eq_none_iff]

theorem isEmpty_withoutEnumFields_iff :
    (d.withoutEnumFields enums).isEmpty = true ↔
      (d.withoutEnumFields enums).attributes = [] ∧ d.declarations = [] := by
  simp [isEmpty, withoutEnumFields, Text.isWhite, and_comm]

theorem splitEnumFields_of_isSettled (h : d.IsSettled enums) :
    d.splitEnumFields enums = [d] := by
  rw [IsSettled, ← isEmpty_enumFields_iff] at h
  rw [splitEnumFields, if_pos (by simpa using h)]

theorem splitEnumFields_of_not_isSettled (h : ¬d.IsSettled enums) :
    d.splitEnumFields enums =
      (if (d.withoutEnumFields enums).isEmpty then [] else [d.withoutEnumFields enums]) ++
      (d.fieldEnums enums).map (d.enumDoc enums) := by
  rw [IsSettled, ← isEmpty_enumFields_iff] at h
  rw [splitEnumFields, if_neg (by simpa using h), enumDocs_eq]

/-- A doc that brings fields to an enum has a table, and what remains has lost all such fields. -/
theorem isSettled_of_mem_splitEnumFields {r : Doc} (h : r ∈ d.splitEnumFields enums) :
    r.IsSettled enums := by
  by_cases hd : d.IsSettled enums
  · rw [splitEnumFields_of_isSettled hd] at h
    rwa [List.mem_singleton.mp h]
  rw [splitEnumFields_of_not_isSettled hd] at h
  obtain h | h := List.mem_append.mp h
  · split at h
    · cases h
    · refine .inr fun f hf => ?_
      rw [List.mem_singleton.mp h, fields_withoutEnumFields, List.mem_filter] at hf
      exact Option.isNone_iff_eq_none.mp hf.2
  · obtain ⟨e, -, rfl⟩ := List.mem_map.mp h
    refine .inl (has_iff.mpr ⟨.tableDecl ⟨e, false, []⟩, ?_, rfl⟩)
    exact List.mem_append_right _ (List.mem_singleton_self _)

end Split

theorem enumDoc_eq_donor (enums : List Text) (d : Doc) :
    d.enumDoc enums = d.donor (describeFirst d.description (d.enumFields enums)) := by
  funext e
  simp [enumDoc, donor, bringing, Function.comp_def, beq_eq_decide]

theorem replaced_splitEnumFields (ds : List Doc) (d : Doc) :
    Replaced ds d (d.splitEnumFields (enumNames ds)) := by
  by_cases hd : d.IsSettled (enumNames ds)
  · rw [splitEnumFields_of_isSettled hd]
    exact .whole (hd.imp_right fun h f hf => Field.enum?_eq_none_iff.mp (h f hf))
  have hparts := parts_attributes ds d d.attributes
  have hmet := firstMet_eraseDups ((d.enumFields (enumNames ds)).map Prod.fst)
  rw [splitEnumFields_of_not_isSettled hd, enumDoc_eq_donor, fieldEnums]
  rw [IsSettled, ← isEmpty_enumFields_iff, not_or] at hd
  cases hfields : d.enumFields (enumNames ds) with
  | nil => exact absurd (List.isEmpty_iff.mpr hfields) hd.2
  | cons p later =>
    obtain ⟨e, g⟩ := p
    have hrest := Replaced.split (Bool.eq_false_iff.mpr hd.1) (hfields ▸ hparts)
      (hfields ▸ hmet)
    simp only [isEmpty_withoutEnumFields_iff]
    exact hrest

theorem enumNames_foldIntoEnums (ds : List Doc) : enumNames (foldIntoEnums ds) = enumNames ds := by
  simp only [enumNames, foldIntoEnums, List.flatMap_assoc, List.map_filterMap]
  congr 1
  apply List.flatMap_congr
  intro d _
  exact filterMap_splitEnumFields _ d (fun _ => rfl) (fun _ => rfl)

theorem matches_foldIntoEnums_iff (ds : List Doc) (f : Field) (e : List Text) :
    f.Matches (foldIntoEnums ds) e ↔ f.Matches ds e := by
  have henum : (∃ d ∈ foldIntoEnums ds, ∃ enum, Attribute.enumDecl enum ∈ d.attributes ∧
      dottedName enum.name = dottedName e) ↔
      ∃ d ∈ ds, ∃ enum, Attribute.enumDecl enum ∈ d.attributes ∧
        dottedName enum.name = dottedName e := by
    rw [← mem_enumNames, ← mem_enumNames, enumNames_foldIntoEnums]
  exact ⟨fun h => ⟨h.ne_nil, h.front, henum.mp h.enum⟩,
    fun h => ⟨h.ne_nil, h.front, henum.mpr h.enum⟩⟩

theorem isSettled_of_mem_foldIntoEnums {ds : List Doc} {r : Doc} (h : r ∈ foldIntoEnums ds) :
    r.IsSettled (enumNames ds) := by
  obtain ⟨d, -, hr⟩ := List.mem_flatMap.mp h
  exact isSettled_of_mem_splitEnumFields hr

theorem foldIntoEnums_foldIntoEnums (ds : List Doc) :
    foldIntoEnums (foldIntoEnums ds) = foldIntoEnums ds := by
  calc foldIntoEnums (foldIntoEnums ds)
      = (foldIntoEnums ds).flatMap (splitEnumFields (enumNames ds)) := by
        rw [foldIntoEnums, enumNames_foldIntoEnums]
    _ = (foldIntoEnums ds).flatMap fun r => [r] :=
        List.flatMap_congr fun r hr =>
          splitEnumFields_of_isSettled (isSettled_of_mem_foldIntoEnums hr)
    _ = foldIntoEnums ds := List.flatMap_singleton' _

/--
Each doc is replaced at its place. The enums remain the same, so that a field matches before as
after; but none that matches is left on a doc without a table, and there is nothing to do again.
-/
theorem foldIntoEnums_replaces (ds : List Doc) :
    (∃ parts, List.Forall₂ (Replaced ds) ds parts ∧ foldIntoEnums ds = parts.flatten) ∧
    (∀ f e, Field.Matches (foldIntoEnums ds) f e ↔ f.Matches ds e) ∧
    (∀ d ∈ foldIntoEnums ds, d.has .tableDecl = false → ∀ f ∈ d.fields, ∀ e, ¬f.Matches ds e) ∧
    foldIntoEnums (foldIntoEnums ds) = foldIntoEnums ds := by
  refine ⟨⟨ds.map (splitEnumFields (enumNames ds)), ?_, List.flatMap_def⟩,
    matches_foldIntoEnums_iff ds, fun d hd htable f hf => ?_, foldIntoEnums_foldIntoEnums ds⟩
  · rw [List.forall₂_map_right_iff, List.forall₂_same]
    exact fun d _ => replaced_splitEnumFields ds d
  · obtain h | h := isSettled_of_mem_foldIntoEnums hd
    · rw [htable] at h
      cases h
    · exact Field.enum?_eq_none_iff.mp (h f hf)

end Doc

end LuaStubs
