import LuaStubs.SourceFile

namespace LuaStubs

namespace Doc

theorem exists_read_of_mem_readAttributes {pos : Position} {parts : List (Text × Text)}
    {rs : List AttributeReading} {r : AttributeReading} (h : (readAttributes pos parts).1 = .ok rs)
    (hr : r ∈ rs) : ∃ tag body, Attribute.read tag body pos = .ok r := by
  induction parts generalizing rs with
  | nil =>
    obtain rfl := Except.ok.inj h
    cases hr
  | cons part parts ih =>
    obtain ⟨tag, body⟩ := part
    unfold readAttributes at h
    split at h
    · cases h
    next r₀ hread =>
    cases hrest : (readAttributes pos parts).1 with
    | error e =>
      simp only [hrest] at h
      cases h
    | ok rs₀ =>
      simp only [hrest] at h
      obtain rfl := Except.ok.inj h
      obtain rfl | hr := List.mem_cons.mp hr
      · exact ⟨tag, body, hread⟩
      · exact ih hrest hr

/-- Each attribute of a doc was read from a tag of the comment. -/
theorem exists_read_of_mem_attributes {c : Comment} {d : Doc} {a : Attribute}
    (h : (Doc.read c).result = .ok d) (ha : a ∈ d.attributes) :
    ∃ tag body r, Attribute.read tag body c.start = .ok r ∧ r.value = a := by
  simp only [Doc.read] at h
  split at h
  · cases h
  unfold readSections at h
  split at h
  · cases h
  next rs events hrs =>
  obtain rfl := Except.ok.inj h
  obtain ⟨r, hr, rfl⟩ := List.mem_map.mp ha
  obtain ⟨tag, body, hread⟩ := exists_read_of_mem_readAttributes (congrArg Prod.fst hrs) hr
  exact ⟨tag, body, r, hread, rfl⟩

/-- Nothing is declared by reading. -/
theorem declarations_of_read {c : Comment} {d : Doc} (h : (Doc.read c).result = .ok d) :
    d.declarations = [] := by
  simp only [Doc.read] at h
  split at h
  · cases h
  unfold readSections at h
  split at h
  · cases h
  · obtain rfl := Except.ok.inj h
    rfl

end Doc

namespace SourceFile

theorem exists_reading_of_mem_docs {path : Text} {rs : List DocReading} {d : Doc}
    (h : d ∈ (ofReadings path rs).docs) :
    ∃ r ∈ rs, ∃ d₀, r.result = .ok d₀ ∧ d = { d₀ with path := some path } := by
  induction rs with
  | nil => cases h
  | cons r rs ih =>
    unfold ofReadings at h
    split at h
    · next d₀ hr =>
      obtain rfl | h := List.mem_cons.mp h
      · exact ⟨r, by simp, d₀, hr, rfl⟩
      · obtain ⟨r', hr', hd⟩ := ih h
        exact ⟨r', List.mem_cons_of_mem r hr', hd⟩
    · obtain ⟨r', hr', hd⟩ := ih h
      exact ⟨r', List.mem_cons_of_mem r hr', hd⟩

/-- The docs of some files, each given by its path and its text. -/
def docsOf (files : List (Text × Text)) : List Doc :=
  files.flatMap fun (path, source) =>
    match read source path with
    | .ok file => file.docs
    | .error _ => []

/-- Every doc was read from a comment. -/
theorem exists_comment_of_mem_docsOf {files : List (Text × Text)} {d : Doc}
    (hd : d ∈ docsOf files) : ∃ path c d₀, (Doc.read c).result = .ok d₀ ∧
      d = { d₀ with path := some path } := by
  obtain ⟨⟨path, source⟩, -, hd⟩ := List.mem_flatMap.mp hd
  simp only [read] at hd
  cases hscan : Comment.scan source with
  | error e =>
    rw [hscan] at hd
    cases hd
  | ok found =>
    rw [hscan] at hd
    obtain ⟨r, hr, d₀, hresult, rfl⟩ := exists_reading_of_mem_docs hd
    obtain ⟨c, -, rfl⟩ := List.mem_map.mp hr
    exact ⟨path, c, d₀, hresult, rfl⟩

theorem exists_read_of_mem_docsOf {files : List (Text × Text)} {d : Doc} {a : Attribute}
    (hd : d ∈ docsOf files) (ha : a ∈ d.attributes) :
    ∃ tag body pos r, Attribute.read tag body pos = .ok r ∧ r.value = a := by
  obtain ⟨path, c, d₀, hresult, rfl⟩ := exists_comment_of_mem_docsOf hd
  obtain ⟨tag, body, r, hread, hvalue⟩ := Doc.exists_read_of_mem_attributes hresult ha
  exact ⟨tag, body, c.start, r, hread, hvalue⟩

theorem declarations_of_mem_docsOf {files : List (Text × Text)} {d : Doc} (hd : d ∈ docsOf files) :
    d.declarations = [] := by
  obtain ⟨path, c, d₀, hresult, rfl⟩ := exists_comment_of_mem_docsOf hd
  exact (Doc.declarations_of_read hresult :)

end SourceFile

end LuaStubs
