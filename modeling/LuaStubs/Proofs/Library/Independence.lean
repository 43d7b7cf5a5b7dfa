import LuaStubs.Proofs.Doc.Folding
import LuaStubs.Proofs.Doc.Merge
import LuaStubs.Proofs.Doc.Text

namespace LuaStubs.Library

/-- Among the enums of a larger collection, no field belongs to another enum than before. -/
def KeepsFields (ds others : List Doc) : Prop :=
  ∀ d ∈ tabled ds, d.has .tableDecl = false →
    ∀ f ∈ d.fields, f.enum? (Doc.enumNames others) = f.enum? (Doc.enumNames ds)

/-- No table of the one collection is a table of the other. -/
def SharesNoTable (ds es : List Doc) : Prop :=
  ∀ d ∈ Doc.foldIntoEnums (tabled ds), ∀ e ∈ Doc.foldIntoEnums (tabled es),
    ∀ key ∈ d.tableKey?, key ∉ e.tableKey?

instance (ds others : List Doc) : Decidable (KeepsFields ds others) :=
  inferInstanceAs (Decidable (∀ d ∈ tabled ds, d.has .tableDecl = false →
    ∀ f ∈ d.fields, f.enum? (Doc.enumNames others) = f.enum? (Doc.enumNames ds)))

instance (ds es : List Doc) : Decidable (SharesNoTable ds es) :=
  inferInstanceAs (Decidable (∀ d ∈ Doc.foldIntoEnums (tabled ds),
    ∀ e ∈ Doc.foldIntoEnums (tabled es), ∀ key ∈ d.tableKey?, key ∉ e.tableKey?))

theorem merged_append {ds es : List Doc} (hd : KeepsFields ds (ds ++ es))
    (he : KeepsFields es (ds ++ es)) (ht : SharesNoTable ds es) :
    merged (ds ++ es) = merged ds ++ merged es := by
  have htabled : tabled (ds ++ es) = tabled ds ++ tabled es := List.map_append
  have hnames : Doc.enumNames (tabled ds ++ tabled es) = Doc.enumNames (ds ++ es) := by
    rw [← htabled, Doc.enumNames_tabled]
  have hfold : Doc.foldIntoEnums (tabled ds ++ tabled es) =
      Doc.foldIntoEnums (tabled ds) ++ Doc.foldIntoEnums (tabled es) := by
    apply Doc.foldIntoEnums_append
    · rw [hnames, Doc.enumNames_tabled]
      exact hd
    · rw [hnames, Doc.enumNames_tabled]
      exact he
  rw [merged, htabled, hfold, Doc.mergeByTable_append ht, List.map_append]
  rfl

theorem prepared_append {ds es : List Doc} (hd : KeepsFields ds (ds ++ es))
    (he : KeepsFields es (ds ++ es)) (ht : SharesNoTable ds es) :
    prepared (ds ++ es) = prepared ds ++ prepared es := by
  rw [prepared, merged_append hd he ht, List.map_append]
  rfl

section Declarations
open Doc (Declares)

theorem declares_tabled {d : Doc} (h : d.Declares) : d.globalsAsFields.withTable.Declares := by
  unfold Doc.withTable
  split
  · exact h
  · split <;> exact h

theorem declares_of_mem_splitEnumFields {enums : List Text} {d e : Doc} (h : d.Declares)
    (he : e ∈ d.splitEnumFields enums) : e.Declares := by
  obtain rfl | ⟨-, rfl | ⟨names, -, rfl⟩⟩ := Doc.of_mem_splitEnumFields he
  · exact h
  · exact h
  · intro lua hl
    cases hl

theorem declares_merged {ds : List Doc} (h : ∀ d ∈ ds, d.Declares) :
    ∀ d ∈ merged ds, d.Declares := by
  have hfold : ∀ e ∈ Doc.foldIntoEnums (tabled ds), e.Declares := by
    intro e he
    obtain ⟨d, hd, he⟩ := List.mem_flatMap.mp he
    obtain ⟨d₀, hd₀, rfl⟩ := List.mem_map.mp hd
    exact declares_of_mem_splitEnumFields (declares_tabled (h d₀ hd₀)) he
  intro d hd
  obtain ⟨e, he, rfl⟩ := List.mem_map.mp hd
  exact Doc.forall_mem_mergeByTable (P := Declares) (fun _ _ _ _ hd _ => hd) hfold e he

/-- No declaration in a library is white. -/
theorem declares_process (repo : Option Text) {ds : List Doc} (h : ∀ d ∈ ds, d.Declares) :
    ∀ d ∈ process repo ds, d.Declares := by
  intro d hd
  obtain ⟨e, he, rfl⟩ := List.mem_map.mp hd
  obtain ⟨e₁, he₁, rfl⟩ := List.mem_map.mp (List.mem_filter.mp he).1
  obtain ⟨e₂, he₂, rfl⟩ := List.mem_map.mp he₁
  have hdeclares := (declares_merged h e₂ he₂).assignFields.declare
  unfold linkDoc
  split <;> exact hdeclares

end Declarations

theorem warnings_events (repo : Option Text) (ds : List Doc) :
    Event.warnings (events repo ds) = conflicts ds := by
  have happ (xs ys : List Event) :
      Event.warnings (xs ++ ys) = Event.warnings xs ++ Event.warnings ys := List.filterMap_append
  have hnotes (ns : List Note) : Event.warnings (ns.map .note) = [] := by
    simp [Event.warnings]
  have hwarnings (ws : List Warning) : Event.warnings (ws.map .warning) = ws := by
    simp [Event.warnings, List.filterMap_map]
  rw [events, happ, happ, happ, hnotes, hnotes, hwarnings]
  exact List.append_nil (conflicts ds)

/--
What is made of two collections that have nothing to do with each other: the docs, the warnings and
the text of the one are followed by those of the other.
-/
theorem process_apart (repo : Option Text) (ds es : List Doc)
    (hds : ∀ d ∈ ds, d.declarations = []) (hes : ∀ e ∈ es, e.declarations = [])
    (hd : KeepsFields ds (ds ++ es)) (he : KeepsFields es (ds ++ es)) (ht : SharesNoTable ds es) :
    process repo (ds ++ es) = process repo ds ++ process repo es ∧
    Event.warnings (events repo (ds ++ es)) =
      Event.warnings (events repo ds) ++ Event.warnings (events repo es) ∧
    Doc.texts (process repo (ds ++ es)) = List.intercalate "\n\n"
      ([Doc.texts (process repo ds), Doc.texts (process repo es)].filter (· ≠ [])) := by
  have hprepared := prepared_append hd he ht
  have hprocess : process repo (ds ++ es) = process repo ds ++ process repo es := by
    rw [process, hprepared, List.map_append, List.filter_append, List.map_append]
    rfl
  have hconflicts : conflicts (ds ++ es) = conflicts ds ++ conflicts es := by
    rw [conflicts, hprepared, List.filterMap_append]
    rfl
  have hdeclares {cs : List Doc} (hcs : ∀ d ∈ cs, d.declarations = []) : ∀ d ∈ cs, d.Declares := by
    intro d hd lua hl
    rw [hcs d hd] at hl
    cases hl
  refine ⟨hprocess, ?_, ?_⟩
  · rw [warnings_events, warnings_events, warnings_events, hconflicts]
  · rw [hprocess]
    exact Doc.texts_append (declares_process repo (hdeclares hds))
      (declares_process repo (hdeclares hes))

/-- A field that goes to its enum and one that stays, beside a class and a table with a function. -/
theorem process_apart_enum : ∃ ds es : List Doc,
    ds = [{ attributes := [.enumDecl ⟨[['E']], []⟩] },
      { attributes := [.field ⟨[.name ['E'], .name ['X']], none, []⟩,
          .field ⟨[.name ['y']], none, []⟩] }] ∧
    es = [{ attributes := [.classDecl ⟨['C'], []⟩, .field ⟨[.name ['z']], none, []⟩] },
      { attributes := [.functionDecl ⟨[['f']], false, []⟩, .tableDecl ⟨[['T']], false, []⟩] }] ∧
    KeepsFields ds (ds ++ es) ∧ KeepsFields es (ds ++ es) ∧ SharesNoTable ds es ∧
    process none (ds ++ es) = process none ds ++ process none es ∧
    Event.warnings (events none (ds ++ es)) =
      Event.warnings (events none ds) ++ Event.warnings (events none es) ∧
    Doc.texts (process none (ds ++ es)) = List.intercalate "\n\n"
      ([Doc.texts (process none ds), Doc.texts (process none es)].filter (· ≠ [])) := by
  obtain ⟨ds, hds⟩ : ∃ ds : List Doc, ds = [{ attributes := [.enumDecl ⟨[['E']], []⟩] },
      { attributes := [.field ⟨[.name ['E'], .name ['X']], none, []⟩,
          .field ⟨[.name ['y']], none, []⟩] }] := ⟨_, rfl⟩
  obtain ⟨es, hes⟩ : ∃ es : List Doc, es =
      [{ attributes := [.classDecl ⟨['C'], []⟩, .field ⟨[.name ['z']], none, []⟩] },
      { attributes := [.functionDecl ⟨[['f']], false, []⟩, .tableDecl ⟨[['T']], false, []⟩] }] :=
    ⟨_, rfl⟩
  have hd : KeepsFields ds (ds ++ es) := by
    rw [hds, hes]
    decide +kernel
  have he : KeepsFields es (ds ++ es) := by
    rw [hds, hes]
    decide +kernel
  have ht : SharesNoTable ds es := by
    rw [hds, hes]
    decide +kernel
  have hds₀ : ∀ d ∈ ds, d.declarations = [] := by simp [hds]
  have hes₀ : ∀ e ∈ es, e.declarations = [] := by simp [hes]
  exact ⟨ds, es, hds, hes, hd, he, ht, process_apart none ds es hds₀ hes₀ hd he ht⟩

end LuaStubs.Library
