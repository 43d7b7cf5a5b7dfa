import LuaStubs.Proofs.Attribute.Names
import LuaStubs.Proofs.TypeExpr.Extent

namespace LuaStubs.Attribute

open Text (isSpace isBlank byteLength IsSetOff)

/-- The name of an attribute as it stands after the tag. -/
def writtenName : Attribute → Text
  | .classDecl c => c.name
  | .tableDecl t => dottedName t.name
  | .enumDecl e => dottedName e.name
  | .field f | .global f => f.name.text
  | .functionDecl f => f.dottedName
  | .param p => p.name
  | .other _ => []

/-- The type of a field or a global. -/
def type? : Attribute → Option TypeExpr
  | .field f | .global f => f.type
  | _ => none

/--
What is written for a type in front of a description: nothing if there is none, what is read as the
type, or the word that is kept for it.
-/
inductive Writes (description : Text) : Option TypeExpr → Text → Prop where
  | absent : Writes description none []
  | read {r : TypeExpr.Reading} {written : Text} :
      TypeExpr.read? (written ++ description) = some r →
      r.bytes (written ++ description) = byteLength written →
      Writes description (some r.type) written
  | word {type : TypeExpr} : Writes description (some type) type.text

section Fields
variable {tag word rest : Text} {pos : Position}

/-- The field that is read from the text after its name, with what there is to tell. -/
inductive ReadsField (tag word rest : Text) (pos : Position) : Field → List Event → Prop where
  | missing : MissingType (rest.dropWhile isBlank) →
      ReadsField tag word rest pos ⟨FieldPath.ofWord word, none, rest⟩
        [.warning (.missingType tag word pos)]
  | typed {r : TypeExpr.Reading} : TypeExpr.read? (rest.dropWhile isBlank) = some r →
      IsSetOff r.rest →
      ReadsField tag word rest pos ⟨FieldPath.ofWord word, some r.type, r.rest⟩ []
  | verbatim {type description : Text} : ¬MissingType (rest.dropWhile isBlank) →
      typeOf? (rest.dropWhile isBlank) = none →
      Text.word (rest.dropWhile isBlank) = (type, description) →
      ReadsField tag word rest pos ⟨FieldPath.ofWord word, some (.ofName type), description⟩
        [.note (.typeKept type)]

theorem readField_reads (tag word rest : Text) (pos : Position) (wrap : Field → Attribute) :
    ∃ f, (readField tag word rest pos wrap).value = wrap f ∧
      ReadsField tag word rest pos f (readField tag word rest pos wrap).events := by
  by_cases hm : MissingType (rest.dropWhile isBlank)
  · rw [readField_missing hm]
    exact ⟨_, rfl, .missing hm⟩
  · cases hr : typeOf? (rest.dropWhile isBlank) with
    | some r =>
      rw [readField_typed hm hr]
      obtain ⟨hread, hset⟩ := typeOf?_eq_some.mp hr
      exact ⟨_, rfl, .typed hread hset⟩
    | none =>
      rw [readField_verbatim hm hr]
      exact ⟨_, rfl, .verbatim hm hr rfl⟩

theorem ReadsField.name {f : Field} {events : List Event}
    (h : ReadsField tag word rest pos f events) : f.name = FieldPath.ofWord word := by
  cases h <;> rfl

theorem ReadsField.text_name {f : Field} {events : List Event}
    (h : ReadsField tag word rest pos f events) : f.name.text = word := by
  rw [h.name, FieldPath.text_ofWord]

/-- All that follows the name is in the type and the description, but for blanks between them. -/
theorem ReadsField.divides {f : Field} {events : List Event}
    (h : ReadsField tag word rest pos f events) :
    ∃ gap written, rest = gap ++ written ++ f.description ∧ (∀ c ∈ gap, isBlank c = true) ∧
      Writes f.description f.type written := by
  have hgap : ∀ c ∈ rest.takeWhile isBlank, isBlank c = true := fun c hc =>
    List.mem_takeWhile_imp hc
  have hrest {written description : Text} (ht : rest.dropWhile isBlank = written ++ description) :
      rest = rest.takeWhile isBlank ++ written ++ description := by
    rw [List.append_assoc, ← ht, List.takeWhile_append_dropWhile]
  cases h with
  | missing => exact ⟨[], [], rfl, by simp, .absent⟩
  | @typed r hread _ =>
    obtain ⟨written, hc, -⟩ := TypeExpr.read?_sound hread
    rw [hc] at hread
    exact ⟨_, written, hrest hc, hgap, .read hread (TypeExpr.Reading.bytes_eq rfl)⟩
  | @verbatim type description _ _ hword =>
    have hsplit := Text.word_append (rest.dropWhile isBlank)
    rw [hword] at hsplit
    exact ⟨_, type, hrest hsplit.symm, hgap, .word⟩

end Fields

section Naming
variable {kind : NamingTag} {tag name rest body : Text} {pos : Position} {p : AttributeReading}

/-- An attribute without a type keeps all that follows its name; the others look for a type. -/
theorem readNamed_inv (h : readNamed kind tag name rest pos = .ok p) :
    (p.value.writtenName = name ∧ p.value.description = rest ∧
      p.value.kind ≠ .field ∧ p.value.kind ≠ .global ∧ p.value.kind ≠ .other) ∨
    kind ≠ .classTag ∧ ∃ wrap, (wrap = Attribute.field ∨ wrap = Attribute.global) ∧
      p = readField tag name rest pos wrap := by
  cases kind with
  | classTag =>
    by_cases hname : Lua.isDotted (ClassDecl.mk name rest).bareName = true
    · obtain rfl := Except.ok.inj ((if_pos hname).symm.trans h)
      exact .inl ⟨rfl, rfl, by simp [Attribute.kind]⟩
    · cases (if_neg hname).symm.trans h
  | tableTag | enumTag =>
    by_cases hname : Lua.isDotted name = true
    · obtain rfl := Except.ok.inj ((if_pos hname).symm.trans h)
      exact .inl ⟨dottedName_splitOn name, rfl, by simp [Attribute.kind]⟩
    · cases (if_neg hname).symm.trans h
  | functionTag =>
    cases hname : functionName? name with
    | some r =>
      rw [readNamed, hname] at h
      obtain rfl := Except.ok.inj h
      exact .inl ⟨dottedName_of_functionName? hname rest, rfl, by simp [Attribute.kind]⟩
    | none =>
      rw [readNamed, hname] at h
      cases h
  | paramTag =>
    obtain rfl := Except.ok.inj h
    exact .inl ⟨rfl, rfl, by simp [Attribute.kind]⟩
  | fieldTag => exact .inr ⟨by simp, _, .inl rfl, (Except.ok.inj h).symm⟩
  | globalTag => exact .inr ⟨by simp, _, .inr rfl, (Except.ok.inj h).symm⟩

theorem type?_eq_none {a : Attribute} (hfield : a.kind ≠ .field) (hglobal : a.kind ≠ .global) :
    a.type? = none := by
  cases a with
  | field f => exact absurd rfl hfield
  | global f => exact absurd rfl hglobal
  | _ => rfl

theorem readNamed_parts (h : readNamed kind tag name rest pos = .ok p) :
    p.value.kind ≠ .other ∧ p.value.writtenName = name ∧
    ∃ gap written, rest = gap ++ written ++ p.value.description ∧
      (∀ c ∈ gap, isBlank c = true) ∧ Writes p.value.description p.value.type? written := by
  obtain ⟨hname, hrest, hfield, hglobal, hother⟩ | ⟨-, wrap, hwrap, rfl⟩ := readNamed_inv h
  · refine ⟨hother, hname, [], [], hrest.symm, by simp, ?_⟩
    rw [type?_eq_none hfield hglobal]
    exact .absent
  · obtain ⟨f, hvalue, hreads⟩ := readField_reads tag name rest pos wrap
    have hdivides := hreads.divides
    rw [hvalue]
    obtain rfl | rfl := hwrap
    · exact ⟨by simp [Attribute.kind], hreads.text_name, hdivides⟩
    · exact ⟨by simp [Attribute.kind], hreads.text_name, hdivides⟩

theorem NamingTag.of?_word (kind : NamingTag) : of? kind.word = some kind := by
  cases kind <;> decide

theorem NamingTag.eq_word_iff {tag : Text} : tag = kind.word ↔ of? tag = some kind := by
  refine ⟨?_, eq_word_of_of?⟩
  rintro rfl
  exact kind.of?_word

/-- With a name after its tag, an attribute is read from the name and what follows it. -/
theorem read_cut {lead : Text} (hcuts : kind.Cuts lead name rest) :
    read kind.word (lead ++ name ++ rest) pos = readNamed kind kind.word name rest pos := by
  have hsplit := hcuts.split_eq
  rw [read_named kind.of?_word (by rw [hsplit]; exact hcuts.ne_nil), hsplit]

/-- Every text after a tag has a name that is read, or is kept as it is. -/
theorem read_cases (tag body : Text) (pos : Position) :
    (∃ kind lead name rest, tag = NamingTag.word kind ∧ body = lead ++ name ++ rest ∧
      kind.Cuts lead name rest ∧ read tag body pos = readNamed kind tag name rest pos) ∨
    (∀ kind lead name rest, tag = NamingTag.word kind → body = lead ++ name ++ rest →
      ¬kind.Cuts lead name rest) ∧
      ∃ events, read tag body pos = .ok { value := .other ⟨tag, body⟩, events := events } := by
  cases hkind : NamingTag.of? tag with
  | none =>
    refine .inr ⟨?_, _, read_other hkind body⟩
    intro kind lead name rest htag
    rw [NamingTag.eq_word_iff, hkind] at htag
    cases htag
  | some kind =>
    by_cases hname : (kind.split body).1 = []
    · refine .inr ⟨?_, _, read_unnamed hkind hname⟩
      intro kind' lead name rest htag hbody hcuts
      obtain rfl : kind = kind' :=
        Option.some.inj (hkind.symm.trans (NamingTag.eq_word_iff.mp htag))
      exact (kind.exists_cuts_iff body).mp ⟨lead, name, rest, hbody, hcuts⟩ hname
    · obtain ⟨lead, name, rest, rfl, hcuts⟩ := (kind.exists_cuts_iff body).mpr hname
      obtain rfl := NamingTag.eq_word_iff.mpr hkind
      exact .inl ⟨kind, lead, name, rest, rfl, rfl, hcuts, read_cut hcuts⟩

/-- A field or a global is read from the word after its tag and what follows that. -/
theorem read_field {f : Field} (h : read tag body pos = .ok p)
    (hf : p.value = .field f ∨ p.value = .global f) :
    ∃ kind lead word rest, kind ≠ NamingTag.classTag ∧ body = lead ++ word ++ rest ∧
      kind.Cuts lead word rest ∧ ReadsField tag word rest pos f p.events := by
  obtain ⟨kind, lead, word, rest, -, hbody, hcuts, hread⟩ | ⟨-, events, hread⟩ :=
    read_cases tag body pos
  · rw [hread] at h
    obtain ⟨-, -, hfield, hglobal, -⟩ | ⟨hk, wrap, hwrap, rfl⟩ := readNamed_inv h
    · obtain hf | hf := hf
      · exact absurd (congrArg Attribute.kind hf) hfield
      · exact absurd (congrArg Attribute.kind hf) hglobal
    · obtain ⟨g, hvalue, hreads⟩ := readField_reads tag word rest pos wrap
      have hfg : g = f := by
        rw [hvalue] at hf
        obtain rfl | rfl := hwrap <;> obtain hf | hf := hf <;> cases hf <;> rfl
      exact ⟨kind, lead, word, rest, hk, hbody, hcuts, hfg ▸ hreads⟩
  · obtain rfl := Except.ok.inj (hread.symm.trans h)
    obtain hf | hf := hf <;> cases hf

theorem read_error_iff {e : DocError} : read tag body pos = .error e ↔
    ∃ kind lead name rest, tag = NamingTag.word kind ∧ body = lead ++ name ++ rest ∧
      kind.Cuts lead name rest ∧ ¬kind.Admits name ∧ e = .invalidName tag name pos := by
  constructor
  · intro h
    obtain ⟨kind, lead, name, rest, htag, hbody, hcuts, hread⟩ | ⟨-, events, hread⟩ :=
      read_cases tag body pos
    · rw [hread, readNamed_error_iff] at h
      exact ⟨kind, lead, name, rest, htag, hbody, hcuts, h⟩
    · cases hread.symm.trans h
  · rintro ⟨kind, lead, name, rest, rfl, rfl, hcuts, hname⟩
    rw [read_cut hcuts, readNamed_error_iff]
    exact hname

end Naming

/--
An attribute is refused exactly if its tag has a name after it that it does not admit. Otherwise it
is kept as it is if there is no name, and else the text after the tag is blanks, the name, blanks,
what is written for the type, and the description.
-/
theorem read_lossless (tag body : Text) (pos : Position) :
    (∀ e, read tag body pos = .error e ↔ ∃ kind lead name rest, tag = NamingTag.word kind ∧
      body = lead ++ name ++ rest ∧ kind.Cuts lead name rest ∧ ¬kind.Admits name ∧
      e = .invalidName tag name pos) ∧
    ∀ p, read tag body pos = .ok p → p.value.tag = tag ∧
      (p.value.kind = .other ↔ ∀ kind lead name rest, tag = NamingTag.word kind →
        body = lead ++ name ++ rest → ¬kind.Cuts lead name rest) ∧
      (p.value.kind = .other → p.value = .other ⟨tag, body⟩) ∧
      (p.value.kind ≠ .other → ∃ kind lead gap written, tag = NamingTag.word kind ∧
        body = lead ++ p.value.writtenName ++ gap ++ written ++ p.value.description ∧
        kind.Cuts lead p.value.writtenName (gap ++ written ++ p.value.description) ∧
        (∀ c ∈ gap, isBlank c = true) ∧ Writes p.value.description p.value.type? written) := by
  refine ⟨fun e => read_error_iff, fun p h => ⟨read_tag h, ?_⟩⟩
  obtain ⟨kind, lead, name, rest, htag, hbody, hcuts, hread⟩ | ⟨hnone, events, hread⟩ :=
    read_cases tag body pos
  · rw [hread] at h
    obtain ⟨hother, rfl, gap, written, rfl, hgap, hwrites⟩ := readNamed_parts h
    refine ⟨⟨fun ho => absurd ho hother, fun hnone => ?_⟩, fun ho => absurd ho hother, fun _ => ?_⟩
    · exact absurd hcuts (hnone kind lead _ _ htag hbody)
    · refine ⟨kind, lead, gap, written, htag, ?_, hcuts, hgap, hwrites⟩
      rw [hbody]
      simp only [List.append_assoc]
  · obtain rfl := Except.ok.inj (hread.symm.trans h)
    exact ⟨⟨fun _ => hnone, fun _ => rfl⟩, fun _ => rfl, fun ho => absurd rfl ho⟩

/-- A field with blanks on all sides and a union as its type; a method that no table holds. -/
theorem read_lossless_spaced :
    (∃ p, read "field" "\t a[1] \tA |B it" ⟨1, 1⟩ = .ok p ∧ p.value.kind ≠ .other ∧
      p.value.writtenName = "a[1]" ∧ p.value.description = " it" ∧
      ∃ kind lead gap written, "field".toList = NamingTag.word kind ∧
        "\t a[1] \tA |B it".toList =
          lead ++ p.value.writtenName ++ gap ++ written ++ p.value.description ∧
        kind.Cuts lead p.value.writtenName (gap ++ written ++ p.value.description) ∧
        (∀ c ∈ gap, isBlank c = true) ∧ Writes p.value.description p.value.type? written) ∧
    ∃ kind lead name rest, "function".toList = NamingTag.word kind ∧
      " :draw\n".toList = lead ++ name ++ rest ∧ kind.Cuts lead name rest ∧ ¬kind.Admits name ∧
      DocError.invalidName "function" ":draw" ⟨1, 1⟩ = .invalidName "function" name ⟨1, 1⟩ := by
  have hfield : read "field" "\t a[1] \tA |B it" ⟨1, 1⟩ = .ok
      { value := .field ⟨[.name ['a'], .index ['1']],
          some (.union [.ofName ['A'], .ofName ['B']] false), " it"⟩
        ambiguous := true } := by decide +kernel
  have hfunction : read "function" " :draw\n" ⟨1, 1⟩ =
      .error (.invalidName "function" ":draw" ⟨1, 1⟩) := by decide +kernel
  refine ⟨⟨_, hfield, by decide, by decide, rfl, ?_⟩, ((read_lossless _ _ _).1 _).mp hfunction⟩
  exact ((read_lossless _ _ _).2 _ hfield).2.2.2 (by decide)

end LuaStubs.Attribute
