import LuaStubs.Attribute.Printer
import LuaStubs.Attribute.Reader
import LuaStubs.Proofs.FieldPath
import LuaStubs.Proofs.TypeExpr.RoundTrip

namespace LuaStubs

open Text (trimEnd isSpace isBlank isWhite setOff IsSetOff)
open TypeExpr (trimRest)

theorem dottedName_splitOn (name : Text) : dottedName (name.splitOn '.') = name :=
  List.intercalate_splitOn '.'

theorem FunctionDecl.dottedName_concat (names : List Text) (last description : Text)
    (isMethod : Bool) : (FunctionDecl.mk (names ++ [last]) isMethod description).dottedName =
      if names = [] then last
      else LuaStubs.dottedName names ++ (if isMethod then ":" else ".") ++ last := by
  unfold FunctionDecl.dottedName
  simp only [List.getLast?_concat, List.dropLast_concat]

theorem FunctionDecl.dottedName_of_not_isMethod (names : List Text) (description : Text) :
    (FunctionDecl.mk names false description).dottedName = LuaStubs.dottedName names := by
  obtain rfl | ⟨front, last, rfl⟩ := List.eq_nil_or_concat names
  · rfl
  · rw [List.concat_eq_append, dottedName_concat]
    split
    · next h =>
      subst h
      exact List.intercalate_singleton.symm
    · next h => exact (Text.intercalate_concat "." last h).symm

theorem Lua.trimEnd_of_isDotted {name : Text} (h : isDotted name = true) :
    trimEnd name = name := by
  have hread := (isDotted_iff name).mp h
  have htrim := TypeExpr.dotted?_trimEnd name
  rw [hread] at htrim
  exact (dotted?_rereads _ _ _ htrim).1.trans (List.append_nil name)

namespace Attribute

/-- What stands between the tag and the description. -/
def arguments : Attribute → Text
  | .classDecl c => ' ' :: c.name
  | .tableDecl t => ' ' :: dottedName t.name
  | .enumDecl e => ' ' :: dottedName e.name
  | .field f | .global f => ' ' :: f.slot
  | .functionDecl f => ' ' :: f.dottedName
  | .param p => ' ' :: p.name
  | .other _ => []

/-- All that is printed after the tag, before it is trimmed. -/
def body (a : Attribute) : Text := a.arguments ++ setOff a.description

theorem head_eq (a : Attribute) : a.head = '@' :: a.tag ++ a.arguments := by
  have named (lead tag name : Text) (h : lead = '@' :: tag ++ [' ']) :
      lead ++ name = '@' :: tag ++ ' ' :: name := by
    rw [h, List.append_assoc, List.singleton_append]
  cases a with
  | classDecl c => exact named "@class " "class" c.name (by decide)
  | tableDecl t => exact named "@table " "table" (dottedName t.name) (by decide)
  | enumDecl e => exact named "@enum " "enum" (dottedName e.name) (by decide)
  | field f => exact named "@field " "field" f.slot (by decide)
  | functionDecl f => exact named "@function " "function" f.dottedName (by decide)
  | global f => exact named "@global " "global" f.slot (by decide)
  | param p => exact named "@param " "param" p.name (by decide)
  | other o => exact (List.append_nil ('@' :: o.tag)).symm

theorem text_eq (a : Attribute) : a.text = trimEnd ('@' :: a.tag ++ a.body) := by
  rw [text, head_eq, List.append_assoc, body]

/-- White space at the end apart, the text is the tag and the body. -/
theorem text_of_tag (a : Attribute) (h : ∀ c ∈ a.tag, isSpace c = false) :
    a.text = '@' :: a.tag ++ trimEnd a.body := by
  rw [text_eq]
  apply Text.trimEnd_append_of_visible
  apply Text.trimEnd_of_no_space
  intro c hc
  obtain rfl | hc := List.mem_cons.mp hc
  · decide
  · exact h c hc

theorem firstWord_trimEnd (t : Text) : firstWord (trimEnd t) = trimRest (firstWord t) := by
  rw [firstWord, Text.dropWhile_trimEnd, firstWord, Text.word_trimEnd, trimRest]

theorem dropWhile_isBlank_space (t : Text) :
    (' ' :: t).dropWhile isBlank = t.dropWhile isBlank := rfl

/-- What follows a name can stand there as it is. -/
theorem classSpan_spec (depth : Nat) (t : Text) :
    (classSpan depth t).1 ++ (classSpan depth t).2 = t ∧ IsSetOff (classSpan depth t).2 := by
  induction t generalizing depth with
  | nil => exact ⟨rfl, fun c hc => by cases hc⟩
  | cons c t ih =>
    unfold classSpan
    split
    · next hc =>
      refine ⟨rfl, ?_⟩
      intro d hd
      obtain rfl : c = d := Option.some.inj hd
      simp only [Bool.or_eq_true, decide_eq_true_eq, Bool.and_eq_true] at hc
      obtain rfl | ⟨hc, -⟩ := hc
      · decide
      · exact hc
    · obtain ⟨happ, hrest⟩ :=
        ih (if c = '<' then depth + 1 else if c = '>' then depth - 1 else depth)
      exact ⟨congrArg (c :: ·) happ, hrest⟩

/-- The name of a class can end in white space, if an angle bracket in it is left open. -/
theorem classSpan_trimEnd (depth : Nat) (t : Text) :
    classSpan depth (trimEnd t) =
      if isWhite (classSpan depth t).2 then (trimEnd (classSpan depth t).1, [])
      else trimRest (classSpan depth t) := by
  induction t generalizing depth with
  | nil => rfl
  | cons c t ih =>
    obtain h | ⟨hc, hw, h⟩ := Text.trimEnd_cons_cases c t
    · have hblack : isWhite (c :: t) = false := by
        by_contra hw
        rw [(Text.trimEnd_eq_nil_iff _).mpr (by simpa using hw)] at h
        cases h
      rw [h]
      unfold classSpan
      split
      · rw [hblack, ← h]
        rfl
      · generalize (if c = '<' then depth + 1 else if c = '>' then depth - 1 else depth) = d
        obtain ⟨happ, -⟩ := classSpan_spec d t
        -- with nothing but space after the name, it is the name that trimming shortens
        by_cases hr : isWhite (classSpan d t).2 = true
        · have hname : trimEnd (c :: (classSpan d t).1) = c :: trimEnd (classSpan d t).1 := by
            rw [← Text.trimEnd_append_white (c :: (classSpan d t).1) _ hr, List.cons_append, happ,
              h, ← Text.trimEnd_append_white (classSpan d t).1 _ hr, happ]
          simp only [ih d, if_pos hr, hname]
        · simp only [ih d, if_neg hr, trimRest]
    · obtain ⟨happ, -⟩ := classSpan_spec depth (c :: t)
      have hall :
          isWhite ((classSpan depth (c :: t)).1 ++ (classSpan depth (c :: t)).2) = true := by
        rw [happ]
        exact (Text.trimEnd_eq_nil_iff _).mp h
      rw [Text.isWhite_append, Bool.and_eq_true] at hall
      rw [h, if_pos hall.2, (Text.trimEnd_eq_nil_iff _).mpr hall.1]
      rfl

/-- The tag of a kind. -/
def NamingTag.word : NamingTag → Text
  | .classTag => "class"
  | .tableTag => "table"
  | .enumTag => "enum"
  | .functionTag => "function"
  | .paramTag => "param"
  | .fieldTag => "field"
  | .globalTag => "global"

theorem NamingTag.eq_word_of_of? {tag : Text} {kind : NamingTag} (h : of? tag = some kind) :
    tag = kind.word := by
  unfold of? at h
  split_ifs at h with hclass htable henum hfunction hparam hfield hglobal <;>
    obtain rfl := Option.some.inj h <;> assumption

theorem NamingTag.split_spec (kind : NamingTag) (t : Text) :
    (kind.split t).1 ++ (kind.split t).2 = t.dropWhile isBlank ∧ IsSetOff (kind.split t).2 := by
  cases kind with
  | classTag => exact classSpan_spec 0 (t.dropWhile isBlank)
  | _ => exact ⟨Text.word_append _, Text.isSetOff_word _⟩

/-- Blanks in front have no part in what is cut off. -/
theorem NamingTag.split_congr (kind : NamingTag) {t t' : Text}
    (h : t'.dropWhile isBlank = t.dropWhile isBlank) : kind.split t' = kind.split t := by
  cases kind with
  | classTag => exact congrArg (classSpan 0) h
  | _ => exact congrArg Text.word h

theorem NamingTag.split_setOff (kind : NamingTag) (t : Text) :
    kind.split (setOff t) = kind.split t := by
  apply kind.split_congr
  unfold setOff
  split
  · rfl
  · exact dropWhile_isBlank_space t

theorem firstWord_reprint {t rest : Text} (hname : (firstWord t).1 ≠ []) (hrest : IsSetOff rest) :
    firstWord (' ' :: ((firstWord t).1 ++ rest)) = ((firstWord t).1, rest) := by
  have hspace : ∀ c ∈ (firstWord t).1, isSpace c = false := fun c hc =>
    Text.not_isSpace_of_mem_word hc
  have hblank : ((firstWord t).1 ++ rest).dropWhile isBlank = (firstWord t).1 ++ rest := by
    cases hw : (firstWord t).1 with
    | nil => exact absurd hw hname
    | cons c w =>
      have hc : isBlank c = false := by
        by_contra hb
        have hs := Text.isSpace_of_isBlank (by simpa using hb)
        rw [hspace c (by simp [hw])] at hs
        cases hs
      simp [hc]
  have hword : firstWord (' ' :: ((firstWord t).1 ++ rest)) = Text.word ((firstWord t).1 ++ rest) :=
    congrArg Text.word hblank
  rw [hword, Text.word_of_isSetOff hspace hrest]

/-- A name is cut off again where it was, with the same text after it if it is that of a class. -/
theorem NamingTag.split_reprint (kind : NamingTag) {t rest : Text} (hname : (kind.split t).1 ≠ [])
    (hclass : kind = .classTag → rest = (kind.split t).2) (hrest : IsSetOff rest) :
    kind.split (' ' :: ((kind.split t).1 ++ rest)) = ((kind.split t).1, rest) := by
  by_cases hk : kind = .classTag
  · obtain rfl := hclass hk
    apply kind.split_congr
    rw [dropWhile_isBlank_space, (kind.split_spec t).1, List.dropWhile_idempotent]
  · have hfirst (t : Text) : kind.split t = firstWord t := by
      cases kind with
      | classTag => exact absurd rfl hk
      | _ => rfl
    rw [hfirst] at hname ⊢
    rw [hfirst, firstWord_reprint hname hrest]

/-- Trimming reaches into a name only if it is that of a class. -/
theorem NamingTag.split_trimEnd (kind : NamingTag) (t : Text) :
    kind.split (trimEnd t) = trimRest (kind.split t) ∨
      kind = .classTag ∧ isWhite (kind.split t).2 = true ∧
        kind.split (trimEnd t) = (trimEnd (kind.split t).1, []) := by
  cases kind with
  | classTag =>
    have h : className (trimEnd t) = _ :=
      (congrArg (classSpan 0) (Text.dropWhile_trimEnd isBlank t)).trans
        (classSpan_trimEnd 0 (t.dropWhile isBlank))
    split at h
    · next hw => exact Or.inr ⟨rfl, hw, h⟩
    · exact Or.inl h
  | _ => exact Or.inl (firstWord_trimEnd t)

section Fields

def MissingType (t : Text) : Prop := t = [] ∨ t.head? = some '\n'

theorem missingType_cons (c : Char) (t : Text) : MissingType (c :: t) ↔ c = '\n' := by
  simp [MissingType]

theorem not_missingType {t : Text} (h : TypeExpr.Grammar.Opens t) : ¬MissingType t := by
  obtain ⟨c, u, rfl, hend⟩ := h
  rw [missingType_cons]
  rintro rfl
  exact absurd hend (by decide)

theorem MissingType.trimEnd {t : Text} (h : MissingType t) : MissingType (trimEnd t) := by
  cases t with
  | nil => exact h
  | cons c t =>
    obtain heq | ⟨-, -, heq⟩ := Text.trimEnd_cons_cases c t <;> rw [heq]
    · rwa [missingType_cons] at h ⊢
    · exact Or.inl rfl

theorem MissingType.of_trimEnd {t : Text} (hw : isWhite t = false)
    (h : MissingType (Text.trimEnd t)) : MissingType t := by
  cases t with
  | nil => exact h
  | cons c t => rwa [Text.trimEnd_cons_of_visible hw, missingType_cons, ← missingType_cons c t] at h

variable {tag word rest : Text} {pos : Position} {wrap : Field → Attribute}

theorem readField_missing (h : MissingType (rest.dropWhile isBlank)) :
    readField tag word rest pos wrap =
      { value := wrap ⟨FieldPath.ofWord word, none, rest⟩
        events := [.warning (.missingType tag word pos)] } := if_pos h

theorem readField_typed (h : ¬MissingType (rest.dropWhile isBlank)) {r : TypeExpr.Reading}
    (hr : typeOf? (rest.dropWhile isBlank) = some r) :
    readField tag word rest pos wrap =
      { value := wrap ⟨FieldPath.ofWord word, some r.type, r.rest⟩
        ambiguous := r.ambiguous } := by
  unfold readField
  rw [if_neg (show ¬(_ ∨ _) from h), hr]

theorem readField_verbatim (h : ¬MissingType (rest.dropWhile isBlank))
    (hr : typeOf? (rest.dropWhile isBlank) = none) :
    readField tag word rest pos wrap =
      { value := wrap ⟨FieldPath.ofWord word, some (.ofName (Text.word (rest.dropWhile isBlank)).1),
          (Text.word (rest.dropWhile isBlank)).2⟩
        events := [.note (.typeKept (Text.word (rest.dropWhile isBlank)).1)] } := by
  unfold readField
  rw [if_neg (show ¬(_ ∨ _) from h), hr]

theorem typeOf?_eq_some {t : Text} {r : TypeExpr.Reading} :
    typeOf? t = some r ↔ TypeExpr.read? t = some r ∧ IsSetOff r.rest := by
  rw [typeOf?, Option.filter_eq_some_iff, Text.isSetOff_iff]

theorem typeOf?_trimEnd (t : Text) :
    (typeOf? (trimEnd t)).map TypeExpr.Reading.trimmed =
      (typeOf? t).map TypeExpr.Reading.trimmed := by
  have hset (t : Text) : IsSetOff (trimEnd t) ↔ IsSetOff t := by
    cases t with
    | nil => rfl
    | cons c t =>
      obtain h | ⟨hc, -, h⟩ := Text.trimEnd_cons_cases c t <;> rw [h]
      · simp [IsSetOff]
      · simp [IsSetOff, hc]
  have filter (t : Text) : (typeOf? t).map TypeExpr.Reading.trimmed =
      ((TypeExpr.read? t).map TypeExpr.Reading.trimmed).filter
        fun r => r.rest.isEmpty || Text.startsWithSpace r.rest := by
    unfold typeOf?
    cases TypeExpr.read? t with
    | none => rfl
    | some r =>
      have h := hset r.rest
      rw [Text.isSetOff_iff, Text.isSetOff_iff] at h
      by_cases hr : (r.rest.isEmpty || Text.startsWithSpace r.rest) = true
      · simp [Option.filter, hr, h.mpr hr, TypeExpr.Reading.trimmed]
      · simp [Option.filter, hr, mt h.mp hr, TypeExpr.Reading.trimmed]
  rw [filter, filter, TypeExpr.read?_trimEnd]

theorem typeOf?_reprint {t : Text} {r : TypeExpr.Reading} (h : typeOf? t = some r) :
    typeOf? (r.type.text ++ r.rest) = some ⟨r.type, r.rest, false⟩ := by
  obtain ⟨hread, hrest⟩ := typeOf?_eq_some.mp h
  have hstops : TypeExpr.Grammar.Stops r.rest := by
    intro c hc
    simp [TypeExpr.Grammar.isEnd, hrest c hc]
  exact typeOf?_eq_some.mpr ⟨TypeExpr.read?_reprint hread hstops, hrest⟩

/-- The field that is read is read again from what is printed of it. -/
theorem readField_reprint (tag word : Text) (pos : Position) (wrap : Field → Attribute)
    {rest : Text} (hrest : IsSetOff rest) : ∃ f rest',
    (readField tag word rest pos wrap).value = wrap f ∧
    f.slot ++ setOff f.description = word ++ rest' ∧ IsSetOff rest' ∧
    (readField tag word rest' pos wrap).value = wrap f ∧
    (readField tag word rest' pos wrap).ambiguous = false := by
  by_cases hm : MissingType (rest.dropWhile isBlank)
  · refine ⟨_, rest, congrArg _ (readField_missing hm), ?_, hrest,
      congrArg _ (readField_missing hm), congrArg _ (readField_missing hm)⟩
    rw [Text.setOff_of_isSetOff hrest, Field.slot, FieldPath.text_ofWord]
  · cases hr : typeOf? (rest.dropWhile isBlank) with
    | some r =>
      obtain ⟨hread, hset⟩ := typeOf?_eq_some.mp hr
      have hopen := TypeExpr.text_opens hread
      have hagain : (' ' :: (r.type.text ++ r.rest)).dropWhile isBlank = r.type.text ++ r.rest :=
        TypeExpr.Grammar.skipSpace_opens hopen false r.rest
      have hm' : ¬MissingType (r.type.text ++ r.rest) := not_missingType (hopen.append r.rest)
      have hread : readField tag word (' ' :: (r.type.text ++ r.rest)) pos wrap = _ :=
        readField_typed (by rwa [hagain]) (by rw [hagain, typeOf?_reprint hr])
      refine ⟨_, ' ' :: (r.type.text ++ r.rest), congrArg _ (readField_typed hm hr), ?_,
        Text.isSetOff_space _, congrArg _ hread, congrArg _ hread⟩
      rw [Text.setOff_of_isSetOff hset, Field.slot, FieldPath.text_ofWord, List.append_assoc,
        List.append_assoc]
      rfl
    | none =>
      have hagain : (' ' :: rest.dropWhile isBlank).dropWhile isBlank = rest.dropWhile isBlank := by
        rw [dropWhile_isBlank_space, List.dropWhile_idempotent]
      have hread : readField tag word (' ' :: rest.dropWhile isBlank) pos wrap = _ :=
        readField_verbatim (by rwa [hagain]) (by rwa [hagain])
      rw [hagain] at hread
      refine ⟨_, ' ' :: rest.dropWhile isBlank, congrArg _ (readField_verbatim hm hr), ?_,
        Text.isSetOff_space _, congrArg _ hread, congrArg _ hread⟩
      rw [Text.setOff_of_isSetOff (Text.isSetOff_word _), Field.slot, FieldPath.text_ofWord,
        List.append_assoc, List.append_assoc]
      exact congrArg (fun t => word ++ ' ' :: t) (Text.word_append (rest.dropWhile isBlank))

/-- A type that is kept as it was written and holds nothing is not seen in what is printed. -/
theorem trimEnd_slot_of_white (path : FieldPath) {t : Text} (hw : isWhite t = true) :
    trimEnd (Field.slot ⟨path, some (.ofName (Text.word t).1), (Text.word t).2⟩ ++
      setOff (Text.word t).2) = trimEnd path.text := by
  have hall : isWhite (" ".toList ++ t) = true := by
    rw [Text.isWhite_append, hw]
    rfl
  rw [Text.setOff_of_isSetOff (Text.isSetOff_word t)]
  simp only [Field.slot, TypeExpr.ofName, TypeExpr.text, List.append_assoc, Text.word_append t]
  exact Text.trimEnd_append_white _ _ hall

/-- The space at the end of the text after a field has no part in how the field is printed. -/
theorem readField_trimEnd (tag word rest : Text) (pos : Position) (wrap : Field → Attribute) :
    ∃ f f',
    (readField tag word rest pos wrap).value = wrap f ∧
    (readField tag word (trimEnd rest) pos wrap).value = wrap f' ∧
    trimEnd (f'.slot ++ setOff f'.description) = trimEnd (f.slot ++ setOff f.description) ∧
    (readField tag word (trimEnd rest) pos wrap).ambiguous =
      (readField tag word rest pos wrap).ambiguous := by
  have htrim := Text.dropWhile_trimEnd isBlank rest
  by_cases hm : MissingType (rest.dropWhile isBlank)
  · rw [readField_missing hm, readField_missing (htrim ▸ hm.trimEnd)]
    exact ⟨_, _, rfl, rfl, Text.trimEnd_setOff_congr _ (Text.trimEnd_trimEnd rest), rfl⟩
  have htype := typeOf?_trimEnd (rest.dropWhile isBlank)
  by_cases hw : isWhite (rest.dropWhile isBlank) = true
  · -- only white space is left, which is an empty type to one reading and none to the other
    have hnil := (Text.trimEnd_eq_nil_iff _).mpr hw
    have hnone : typeOf? (rest.dropWhile isBlank) = none := by
      rw [hnil] at htype
      exact Option.map_eq_none_iff.mp htype.symm
    rw [readField_verbatim hm hnone, readField_missing (Or.inl (htrim.trans hnil))]
    refine ⟨_, _, rfl, rfl, ?_, rfl⟩
    have hrest : isWhite rest = true := by
      rwa [Text.isWhite_dropWhile isBlank fun _ => Text.isSpace_of_isBlank] at hw
    rw [trimEnd_slot_of_white _ hw, (Text.trimEnd_eq_nil_iff rest).mpr hrest]
    exact congrArg trimEnd (List.append_nil _)
  · have hm' : ¬MissingType ((trimEnd rest).dropWhile isBlank) := by
      rw [htrim]
      exact mt (MissingType.of_trimEnd (by simpa using hw)) hm
    cases hr : typeOf? (rest.dropWhile isBlank) with
    | some r =>
      rw [hr] at htype
      obtain ⟨r', hr', heq⟩ := Option.map_eq_some_iff.mp htype
      obtain ⟨ht, hrest, ha⟩ := TypeExpr.Reading.mk.inj heq
      rw [readField_typed hm hr, readField_typed hm' (by rw [htrim, hr'])]
      refine ⟨_, _, rfl, rfl, ?_, ha⟩
      simp only [Field.slot, ht]
      exact Text.trimEnd_setOff_congr _ hrest
    | none =>
      rw [hr] at htype
      rw [readField_verbatim hm hr,
        readField_verbatim hm' (by rw [htrim]; exact Option.map_eq_none_iff.mp htype), htrim,
        Text.word_trimEnd]
      exact ⟨_, _, rfl, rfl, Text.trimEnd_setOff_congr _ (Text.trimEnd_trimEnd _), rfl⟩

end Fields

theorem dottedName_of_functionName? {word : Text} {names : List Text} {isMethod : Bool}
    (h : functionName? word = some (names, isMethod)) (description : Text) :
    (FunctionDecl.mk names isMethod description).dottedName = word := by
  unfold functionName? at h
  split at h
  · next path hpath =>
    obtain ⟨rfl, rfl⟩ := Prod.mk.inj (Option.some.inj h)
    rw [FunctionDecl.dottedName_of_not_isMethod, dottedName_splitOn,
      (Lua.dotted?_rereads _ _ _ hpath).1, List.append_nil]
  · next path method hpath =>
    split at h
    · obtain ⟨rfl, rfl⟩ := Prod.mk.inj (Option.some.inj h)
      rw [FunctionDecl.dottedName_concat, if_neg (List.splitOn_ne_nil '.' path), dottedName_splitOn,
        (Lua.dotted?_rereads _ _ _ hpath).1, List.append_assoc]
      rfl
    · cases h
  · cases h

section Naming
variable {kind : NamingTag} {tag name rest : Text} {pos : Position} {p : AttributeReading}

/-- A reading that takes all that follows the name for the description. -/
structure Describes (kind : NamingTag) (tag name : Text) (pos : Position)
    (make : Text → Attribute) : Prop where
  read : ∀ d, readNamed kind tag name d pos = .ok { value := make d }
  tag : ∀ d, (make d).tag = tag
  body : ∀ d, (make d).body = ' ' :: (name ++ setOff d)
  kind : ∀ d d', (make d).kind = (make d').kind

/-- A reading that looks for a type after the name. -/
structure Types (kind : NamingTag) (tag name : Text) (pos : Position)
    (wrap : Field → Attribute) : Prop where
  ne : kind ≠ .classTag
  read : ∀ rest, readNamed kind tag name rest pos = .ok (readField tag name rest pos wrap)
  tag : ∀ f, (wrap f).tag = tag
  body : ∀ f, (wrap f).body = ' ' :: (f.slot ++ setOff f.description)
  kind : ∀ f f', (wrap f).kind = (wrap f').kind

theorem readNamed_cases (hkind : NamingTag.of? tag = some kind)
    (h : readNamed kind tag name rest pos = .ok p) :
    (∃ make, Describes kind tag name pos make) ∨ ∃ wrap, Types kind tag name pos wrap := by
  obtain rfl := NamingTag.eq_word_of_of? hkind
  cases kind with
  | classTag =>
    by_cases hname : Lua.isDotted (ClassDecl.mk name rest).bareName = true
    · exact Or.inl ⟨fun d => .classDecl ⟨name, d⟩, fun d => if_pos hname, fun d => rfl,
        fun d => rfl, fun d d' => rfl⟩
    · cases (if_neg hname).symm.trans h
  | tableTag =>
    by_cases hname : Lua.isDotted name = true
    · refine Or.inl ⟨fun d => .tableDecl ⟨name.splitOn '.', false, d⟩, fun d => if_pos hname,
        fun d => rfl, fun d => ?_, fun d d' => rfl⟩
      exact congrArg (' ' :: · ++ setOff d) (dottedName_splitOn name)
    · cases (if_neg hname).symm.trans h
  | enumTag =>
    by_cases hname : Lua.isDotted name = true
    · refine Or.inl ⟨fun d => .enumDecl ⟨name.splitOn '.', d⟩, fun d => if_pos hname,
        fun d => rfl, fun d => ?_, fun d d' => rfl⟩
      exact congrArg (' ' :: · ++ setOff d) (dottedName_splitOn name)
    · cases (if_neg hname).symm.trans h
  | functionTag =>
    cases hname : functionName? name with
    | some r =>
      obtain ⟨names, isMethod⟩ := r
      refine Or.inl ⟨fun d => .functionDecl ⟨names, isMethod, d⟩, fun d => ?_, fun d => rfl,
        fun d => ?_, fun d d' => rfl⟩
      · simp only [readNamed, hname]
      · exact congrArg (' ' :: · ++ setOff d) (dottedName_of_functionName? hname d)
    | none => simp [readNamed, hname] at h
  | paramTag =>
    exact Or.inl ⟨fun d => .param ⟨name, d⟩, fun d => rfl, fun d => rfl, fun d => rfl,
      fun d d' => rfl⟩
  | fieldTag =>
    exact Or.inr ⟨.field, by simp, fun d => rfl, fun f => rfl, fun f => rfl, fun f f' => rfl⟩
  | globalTag =>
    exact Or.inr ⟨.global, by simp, fun d => rfl, fun f => rfl, fun f => rfl, fun f f' => rfl⟩

theorem readNamed_tag (hkind : NamingTag.of? tag = some kind)
    (h : readNamed kind tag name rest pos = .ok p) : p.value.tag = tag := by
  obtain ⟨make, hmake⟩ | ⟨wrap, hwrap⟩ := readNamed_cases hkind h
  · obtain rfl := Except.ok.inj ((hmake.read rest).symm.trans h)
    exact hmake.tag rest
  · obtain rfl := Except.ok.inj ((hwrap.read rest).symm.trans h)
    obtain ⟨f, f', hf, -⟩ := readField_trimEnd tag name rest pos wrap
    rw [hf, hwrap.tag]

/-- What a tag names is read again from what is printed of it. -/
theorem readNamed_reprint (hkind : NamingTag.of? tag = some kind)
    (h : readNamed kind tag name rest pos = .ok p) (hrest : IsSetOff rest) :
    ∃ rest', IsSetOff rest' ∧ (kind = .classTag → rest' = rest) ∧
      p.value.body = ' ' :: (name ++ rest') ∧
      ∃ q, readNamed kind tag name rest' pos = .ok q ∧ q.value = p.value ∧ q.ambiguous = false := by
  obtain ⟨make, hmake⟩ | ⟨wrap, hwrap⟩ := readNamed_cases hkind h
  · obtain rfl := Except.ok.inj ((hmake.read rest).symm.trans h)
    refine ⟨rest, hrest, fun _ => rfl, ?_, _, hmake.read rest, rfl, rfl⟩
    exact (hmake.body rest).trans (by rw [Text.setOff_of_isSetOff hrest])
  · obtain rfl := Except.ok.inj ((hwrap.read rest).symm.trans h)
    obtain ⟨f, rest', hf, hslot, hset, hagain, hamb⟩ :=
      readField_reprint tag name pos wrap hrest
    refine ⟨rest', hset, fun hclass => absurd hclass hwrap.ne, ?_, _, hwrap.read rest', ?_, hamb⟩
    · rw [hf, hwrap.body, hslot]
    · rw [hf, hagain]

/-- The space at the end of the text has no part in how what a tag names is printed. -/
theorem readNamed_trimEnd (hkind : NamingTag.of? tag = some kind)
    (h : readNamed kind tag name rest pos = .ok p) :
    ∃ q, readNamed kind tag name (trimEnd rest) pos = .ok q ∧ q.value.kind = p.value.kind ∧
      trimEnd q.value.body = trimEnd p.value.body ∧ q.ambiguous = p.ambiguous := by
  obtain ⟨make, hmake⟩ | ⟨wrap, hwrap⟩ := readNamed_cases hkind h
  · obtain rfl := Except.ok.inj ((hmake.read rest).symm.trans h)
    refine ⟨_, hmake.read (trimEnd rest), hmake.kind _ _, ?_, rfl⟩
    rw [hmake.body, hmake.body]
    exact Text.trimEnd_setOff_congr (' ' :: name) (Text.trimEnd_trimEnd rest)
  · obtain rfl := Except.ok.inj ((hwrap.read rest).symm.trans h)
    obtain ⟨f, f', hf, hf', hslot, hamb⟩ := readField_trimEnd tag name rest pos wrap
    refine ⟨_, hwrap.read (trimEnd rest), ?_, ?_, hamb⟩
    · rw [hf, hf']
      exact hwrap.kind f' f
    · rw [hf, hf', hwrap.body, hwrap.body]
      exact Text.trimEnd_append_congr [' '] hslot

theorem bareName_trimEnd {c : ClassDecl} (h : Lua.isDotted c.bareName = true) (d : Text) :
    (ClassDecl.mk (trimEnd c.name) d).bareName = c.bareName ∧ trimEnd c.name ≠ [] := by
  have hsplit : c.name = c.bareName ++ c.name.dropWhile fun x => x != '<' && x != ':' :=
    List.takeWhile_append_dropWhile.symm
  have htrim : trimEnd c.name = c.bareName ++
      trimEnd (c.name.dropWhile fun x => x != '<' && x != ':') := by
    rw [← Text.trimEnd_append_of_visible _ _ (Lua.trimEnd_of_isDotted h), ← hsplit]
  obtain ⟨a, u, hname, -⟩ := TypeExpr.Grammar.isDotted_head h
  refine ⟨?_, ?_⟩
  · rw [htrim]
    apply (Text.span_append _ _ _ (fun x hx => List.mem_takeWhile_imp hx) ?_).1
    intro x hx
    obtain ⟨v, hv⟩ := List.head?_eq_some_iff.mp hx
    obtain ⟨w, hw⟩ := Text.exists_of_trimEnd_eq (s := [x]) hv
    have hnot := List.head?_dropWhile_not (fun x => x != '<' && x != ':') c.name
    rw [hw] at hnot
    exact hnot
  · rw [htrim, hname]
    simp

/-- If only white space follows the name of a class, it can be the name that is trimmed. -/
theorem readNamed_class_trimEnd (h : readNamed .classTag tag name rest pos = .ok p)
    (hset : IsSetOff rest) (hw : isWhite rest = true) :
    trimEnd name ≠ [] ∧ ∃ q, readNamed .classTag tag (trimEnd name) [] pos = .ok q ∧
      q.value.kind = p.value.kind ∧ trimEnd q.value.body = trimEnd p.value.body ∧
      q.ambiguous = p.ambiguous := by
  by_cases hname : Lua.isDotted (ClassDecl.mk name rest).bareName = true
  · obtain rfl := Except.ok.inj ((if_pos hname).symm.trans h)
    obtain ⟨hbare, hne⟩ := bareName_trimEnd hname []
    refine ⟨hne, _, if_pos (by rw [hbare, hname]), rfl, ?_, rfl⟩
    calc trimEnd ((' ' :: trimEnd name) ++ setOff [])
        = trimEnd ([' '] ++ trimEnd name) := congrArg trimEnd (List.append_nil _)
      _ = trimEnd (' ' :: name) := Text.trimEnd_append_trimEnd [' '] name
      _ = trimEnd (' ' :: name ++ setOff rest) := by
        rw [Text.setOff_of_isSetOff hset, Text.trimEnd_append_white _ _ hw]
  · cases (if_neg hname).symm.trans h

end Naming

section Reading
variable {kind : NamingTag} {tag : Text} {pos : Position}

theorem read_other (h : NamingTag.of? tag = none) (t : Text) :
    read tag t pos = .ok { value := .other ⟨tag, t⟩ } := by
  rw [read, h]

theorem read_unnamed (h : NamingTag.of? tag = some kind) {t : Text}
    (hname : (kind.split t).1 = []) :
    read tag t pos =
      .ok { value := .other ⟨tag, t⟩, events := [.warning (.missingName tag pos)] } := by
  rcases hsplit : kind.split t with ⟨name, rest⟩
  obtain rfl : name = [] := by rwa [hsplit] at hname
  simp only [read, h, hsplit]

theorem read_named (h : NamingTag.of? tag = some kind) {t : Text} (hname : (kind.split t).1 ≠ []) :
    read tag t pos = readNamed kind tag (kind.split t).1 (kind.split t).2 pos := by
  rcases hsplit : kind.split t with ⟨_ | ⟨c, name⟩, rest⟩
  · exact absurd (by rw [hsplit]) hname
  · simp only [read, h, hsplit]

theorem read_tag {t : Text} {p : AttributeReading} (h : read tag t pos = .ok p) :
    p.value.tag = tag := by
  cases hkind : NamingTag.of? tag with
  | none =>
    obtain rfl := Except.ok.inj ((read_other hkind t).symm.trans h)
    rfl
  | some kind =>
    by_cases hname : (kind.split t).1 = []
    · obtain rfl := Except.ok.inj ((read_unnamed hkind hname).symm.trans h)
      rfl
    · rw [read_named hkind hname] at h
      exact readNamed_tag hkind h

/-- The attribute that is read is read again from what is printed of it. -/
theorem read_reprint {t : Text} {p : AttributeReading} (h : read tag t pos = .ok p) :
    ∃ q, read tag p.value.body pos = .ok q ∧ q.value.kind = p.value.kind ∧
      q.value.body = p.value.body ∧ q.ambiguous = false := by
  have hset : setOff (setOff t) = setOff t := Text.setOff_of_isSetOff (Text.isSetOff_setOff t)
  cases hkind : NamingTag.of? tag with
  | none =>
    obtain rfl := Except.ok.inj ((read_other hkind t).symm.trans h)
    exact ⟨_, read_other hkind _, rfl, hset, rfl⟩
  | some kind =>
    by_cases hname : (kind.split t).1 = []
    · obtain rfl := Except.ok.inj ((read_unnamed hkind hname).symm.trans h)
      exact ⟨_, read_unnamed hkind (by rw [← hname, ← kind.split_setOff t]; rfl), rfl, hset, rfl⟩
    · rw [read_named hkind hname] at h
      obtain ⟨rest', hrest', hclass, hbody, q, hq, hvalue, hamb⟩ :=
        readNamed_reprint hkind h (kind.split_spec t).2
      have hsplit := kind.split_reprint hname hclass hrest'
      rw [← hbody] at hsplit
      refine ⟨q, ?_, by rw [hvalue], by rw [hvalue], hamb⟩
      rw [read_named hkind (by rwa [hsplit]), hsplit, hq]

/-- White space at the end has no part in how the attribute is printed. -/
theorem read_trimEnd {t : Text} {p : AttributeReading} (h : read tag t pos = .ok p) :
    ∃ q, read tag (trimEnd t) pos = .ok q ∧ q.value.kind = p.value.kind ∧
      trimEnd q.value.body = trimEnd p.value.body ∧ q.ambiguous = p.ambiguous := by
  cases hkind : NamingTag.of? tag with
  | none =>
    rw [read_other hkind] at h
    obtain rfl := Except.ok.inj h
    exact ⟨_, read_other hkind _, rfl, Text.trimEnd_setOff t, rfl⟩
  | some kind =>
    have hsplit := kind.split_trimEnd t
    by_cases hname : (kind.split t).1 = []
    · rw [read_unnamed hkind hname] at h
      obtain rfl := Except.ok.inj h
      have hname' : (kind.split (trimEnd t)).1 = [] := by
        obtain hs | ⟨-, -, hs⟩ := hsplit <;> rw [hs]
        · exact hname
        · rw [hname]
          rfl
      exact ⟨_, read_unnamed hkind hname', rfl, Text.trimEnd_setOff t, rfl⟩
    · rw [read_named hkind hname] at h
      obtain hs | ⟨rfl, hw, hs⟩ := hsplit
      · rw [read_named hkind (by rwa [hs]), hs]
        exact readNamed_trimEnd hkind h
      · obtain ⟨hne, hread⟩ := readNamed_class_trimEnd h (NamingTag.split_spec _ t).2 hw
        rw [read_named hkind (by rwa [hs]), hs]
        exact hread

end Reading

/--
An attribute that was read is printed after its tag, and reading what is printed gives an attribute
of the same kind that is printed the same, without another way to read it.
-/
theorem read_text (tag t : Text) (pos : Position) (p : AttributeReading)
    (htag : ∀ c ∈ tag, isSpace c = false) (h : read tag t pos = .ok p) :
    ∃ rest, p.value.text = '@' :: tag ++ rest ∧ ∃ q, read tag rest pos = .ok q ∧
      q.value.kind = p.value.kind ∧ q.value.text = p.value.text ∧ q.ambiguous = false := by
  have ptag := read_tag h
  obtain ⟨r, hr, rkind, rbody, ramb⟩ := read_reprint h
  obtain ⟨q, hq, qkind, qbody, qamb⟩ := read_trimEnd hr
  have qtag := read_tag hq
  have ptext := text_of_tag p.value (by rwa [ptag])
  have qtext := text_of_tag q.value (by rwa [qtag])
  rw [ptag] at ptext
  rw [qtag, qbody, rbody, ← ptext] at qtext
  exact ⟨_, ptext, q, hq, qkind.trans rkind, qtext, qamb.trans ramb⟩

/-- A union with space around its bar, and one more bar that no type follows. -/
theorem read_text_dangling_bar : ∃ p, read "field" " a[1].b  A | B?? | ... \t" ⟨1, 1⟩ = .ok p ∧
    p.value.text = "@field a[1].b A|B? | ..." ∧ p.ambiguous = true ∧
    ∃ rest, p.value.text = '@' :: "field".toList ++ rest ∧ ∃ q, read "field" rest ⟨1, 1⟩ = .ok q ∧
      q.value.kind = p.value.kind ∧ q.value.text = p.value.text ∧ q.ambiguous = false := by
  have h : read "field" " a[1].b  A | B?? | ... \t" ⟨1, 1⟩ = .ok
      { value := .field ⟨[.name ['a'], .index ['1'], .name ['b']],
          some (.union [.ofName ['A'], .optional (.ofName ['B'])] false), " | ... \t"⟩
        ambiguous := true } := by decide +kernel
  exact ⟨_, h, by decide +kernel, rfl, read_text _ _ _ _ (by simp [isSpace]) h⟩

end Attribute

end LuaStubs
