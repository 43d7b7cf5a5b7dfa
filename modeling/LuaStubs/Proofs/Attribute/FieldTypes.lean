import LuaStubs.Proofs.Attribute.Parts

namespace LuaStubs

open Text (isSpace isBlank startsWithSpace)

theorem Text.StartsVisibly.startsWithSpace_eq_false {t : Text} (h : StartsVisibly t) :
    startsWithSpace t = false := by
  obtain ⟨c, u, rfl, hc⟩ := h
  exact hc

theorem TypeExpr.Grammar.Opens.startsVisibly {t : Text} (h : Opens t) : Text.StartsVisibly t := by
  refine h.imp ?_
  intro c hc
  by_contra hspace
  rw [isEnd_of_isSpace (by simpa using hspace)] at hc
  cases hc

/-- What a type is read from begins as the type does. -/
theorem TypeExpr.opens_of_read? {t : Text} {r : Reading} (h : read? t = some r) :
    Grammar.Opens t := by
  obtain ⟨written, ht, hspelled⟩ := read?_sound h
  have hopens := Grammar.union_opens (fun _ _ => Grammar.member_opens) hspelled
  rw [ht]
  exact hopens.append r.rest

namespace Attribute

section Reading
variable {tag word rest : Text} {pos : Position} {f : Field} {events : List Event}

theorem startsWithSpace_word (t : Text) : startsWithSpace (Text.word t).1 = false := by
  cases hw : (Text.word t).1 with
  | nil => rfl
  | cons c w => exact Text.not_isSpace_of_mem_word (t := t) (by simp [hw])

theorem word_eq_nil_iff {t : Text} (h : t ≠ []) :
    (Text.word t).1 = [] ↔ startsWithSpace t = true := by
  obtain ⟨c, u, rfl⟩ := List.exists_cons_of_ne_nil h
  cases hc : isSpace c <;> simp [Text.word, startsWithSpace, hc]

theorem ReadsField.type_eq_none_iff (h : ReadsField tag word rest pos f events) :
    (f.type = none ↔ MissingType (rest.dropWhile isBlank)) ∧
      (f.type = none ↔ .warning (.missingType tag word pos) ∈ events) := by
  cases h with
  | missing hm => simp [hm]
  | typed hread _ => simp [not_missingType (TypeExpr.opens_of_read? hread)]
  | verbatim hm _ _ => simp [hm]

/-- The type begins visibly, if its text begins at all. -/
theorem ReadsField.startsWithSpace_type (h : ReadsField tag word rest pos f events)
    {type : TypeExpr} (ht : f.type = some type) : startsWithSpace type.text = false ∧
      (type.text = [] ↔ startsWithSpace (rest.dropWhile isBlank) = true) := by
  cases h with
  | missing => cases ht
  | typed hread _ =>
    obtain rfl := Option.some.inj ht
    have htext := (TypeExpr.text_opens hread).startsVisibly
    have hrest := (TypeExpr.opens_of_read? hread).startsVisibly
    simp [htext.ne_nil, htext.startsWithSpace_eq_false, hrest.startsWithSpace_eq_false]
  | verbatim hm _ hword =>
    obtain rfl := Option.some.inj ht
    have hne : rest.dropWhile isBlank ≠ [] := fun hnil => hm (.inl hnil)
    have hstart := startsWithSpace_word (rest.dropWhile isBlank)
    have hnil := word_eq_nil_iff hne
    rw [hword] at hstart hnil
    exact ⟨hstart, hnil⟩

/-- Where no type can be read, the text of the type is the next word. -/
theorem ReadsField.text_of_unreadable (h : ReadsField tag word rest pos f events)
    {type : TypeExpr} (ht : f.type = some type) (hnone : typeOf? (rest.dropWhile isBlank) = none) :
    type.text = (Text.word (rest.dropWhile isBlank)).1 := by
  cases h with
  | missing => cases ht
  | typed hread hset => cases hnone.symm.trans (typeOf?_eq_some.mpr ⟨hread, hset⟩)
  | verbatim _ _ hword =>
    obtain rfl := Option.some.inj ht
    rw [hword]
    rfl

end Reading

/--
A field has no type, and a warning says so, exactly if after its name and blanks the text or the
line ends. The text of its type never begins with white space, and it is empty exactly if other
white space follows the blanks. Where no type can be read, it is the word that stands there.
-/
theorem read_fieldType (tag body : Text) (pos : Position) (p : AttributeReading) (f : Field)
    (h : read tag body pos = .ok p) (hf : p.value = .field f ∨ p.value = .global f) :
    ∃ lead gap rest, body = lead ++ f.name.text ++ gap ++ rest ∧
      (∀ c ∈ lead ++ gap, isBlank c = true) ∧ (∀ c ∈ rest.head?, isBlank c = false) ∧
      f.name.text ≠ [] ∧ (∀ c ∈ f.name.text, isSpace c = false) ∧
      (f.type = none ↔ rest = [] ∨ rest.head? = some '\n') ∧
      (f.type = none ↔ .warning (.missingType tag f.name.text pos) ∈ p.events) ∧
      ∀ type, f.type = some type → startsWithSpace type.text = false ∧
        (type.text = [] ↔ startsWithSpace rest = true) ∧
        (typeOf? rest = none → type.text = (Text.word rest).1) := by
  obtain ⟨kind, lead, word, rest, hk, rfl, hcuts, hreads⟩ := read_field h hf
  obtain rfl := hreads.text_name
  refine ⟨lead, rest.takeWhile isBlank, rest.dropWhile isBlank, ?_, ?_, ?_, hcuts.ne_nil,
    hcuts.visible hk, hreads.type_eq_none_iff.1, hreads.type_eq_none_iff.2, ?_⟩
  · rw [List.append_assoc _ (rest.takeWhile isBlank), List.takeWhile_append_dropWhile]
  · intro c hc
    obtain hc | hc := List.mem_append.mp hc
    · exact hcuts.lead c hc
    · exact List.mem_takeWhile_imp hc
  · intro c hc
    have hnot := List.head?_dropWhile_not isBlank rest
    rw [show (rest.dropWhile isBlank).head? = some c from hc] at hnot
    simpa using hnot
  · intro type ht
    obtain ⟨hstart, hnil⟩ := hreads.startsWithSpace_type ht
    exact ⟨hstart, hnil, hreads.text_of_unreadable ht⟩

/-- A carriage return before the end of the line is neither a blank nor the end. -/
theorem read_fieldType_return : ∃ p, read "global" " foo \r\nx" ⟨1, 1⟩ = .ok p ∧
    p.value = .global ⟨[.name "foo"], some (.ofName []), "\r\nx"⟩ ∧
    ∃ lead gap rest, " foo \r\nx".toList = lead ++ "foo" ++ gap ++ rest ∧
      (∀ c ∈ lead ++ gap, isBlank c = true) ∧ (∀ c ∈ rest.head?, isBlank c = false) ∧
      ((TypeExpr.ofName []).text = [] ↔ startsWithSpace rest = true) := by
  have h : read "global" " foo \r\nx" ⟨1, 1⟩ = .ok
      { value := .global ⟨[.name "foo"], some (.ofName []), "\r\nx"⟩
        events := [.note (.typeKept [])] } := by decide +kernel
  obtain ⟨lead, gap, rest, hbody, hblank, hrest, -, -, -, -, htype⟩ :=
    read_fieldType _ _ _ _ _ h (.inr rfl)
  exact ⟨_, h, rfl, lead, gap, rest, hbody, hblank, hrest, (htype _ rfl).2.1⟩

/-- A space without a break after the blanks leaves a type of no text. -/
theorem not_forall_type_text : ¬∀ (tag body : Text) (pos : Position) (p : AttributeReading)
    (f : Field) (type : TypeExpr), tag = "field".toList ∨ tag = "global".toList →
    read tag body pos = .ok p → p.value = .field f ∨ p.value = .global f → f.type = some type →
    type.text ≠ [] ∧ startsWithSpace type.text = false := by
  intro hall
  have h : read "field" " foo \u00a0" ⟨1, 1⟩ = .ok
      { value := .field ⟨[.name "foo"], some (.ofName []), "\u00a0"⟩
        events := [.note (.typeKept [])] } := by decide +kernel
  exact (hall _ _ _ _ _ _ (.inl rfl) h (.inl rfl) rfl).1 rfl

end Attribute

end LuaStubs
