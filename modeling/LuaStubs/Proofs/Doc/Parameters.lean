import LuaStubs.Proofs.Attribute.Parts
import LuaStubs.Proofs.Doc.Declarations
import LuaStubs.Proofs.Doc.Reading

namespace LuaStubs

open Text (isSpace)

/-- What can stand in a list of parameters: an identifier or three dots. -/
def Lua.IsParam (t : Text) : Prop := Lua.Ident t ∨ t = "..."

namespace FunctionDecl

/-- The name of a function where it is declared. -/
def expr (f : FunctionDecl) : Text :=
  if f.isMethod then Lua.methodExpr f.name else Lua.pathExpr f.name

/-- A declaration of the function with some list of parameters that is one in Lua. -/
def IsStub (f : FunctionDecl) (lua : Text) : Prop :=
  ∃ params : List Text, (∀ p ∈ params, Lua.IsParam p) ∧
    lua = "function " ++ f.expr ++ "(" ++ List.intercalate ", " params ++ ") end"

theorem stub_eq (f : FunctionDecl) (params : List Param) :
    f.stub params = "function " ++ f.expr ++
      "(" ++ List.intercalate ", " (params.map Param.name) ++ ") end" := rfl

end FunctionDecl

namespace Doc

section Trace
variable (hadTable : Bool)

/-- What each attribute adds to the declarations, in the order in which they are taken. -/
def addedFrom : Doc → List Attribute → List (Attribute × List Text)
  | _, [] => []
  | d, a :: as =>
    (a, (d.declareAttribute hadTable a).declarations.drop d.declarations.length) ::
      addedFrom (d.declareAttribute hadTable a) as

theorem map_fst_addedFrom (d : Doc) (as : List Attribute) :
    (addedFrom hadTable d as).map Prod.fst = as := by
  induction as generalizing d with
  | nil => rfl
  | cons a as ih => rw [addedFrom, List.map_cons, ih]

theorem declarations_foldl_eq (d : Doc) (as : List Attribute) :
    (as.foldl (declareAttribute hadTable) d).declarations =
      d.declarations ++ (addedFrom hadTable d as).flatMap Prod.snd := by
  induction as generalizing d with
  | nil => exact (List.append_nil _).symm
  | cons a as ih =>
    obtain ⟨luas, hluas, -⟩ := declarations_declareAttribute hadTable d a
    rw [List.foldl_cons, ih, addedFrom, List.flatMap_cons, hluas, List.drop_left,
      List.append_assoc]

theorem filterMap_erase_param {a : Attribute} (h : a.param? = none) (as : List Attribute) :
    (as.erase a).filterMap Attribute.param? = as.filterMap Attribute.param? := by
  induction as with
  | nil => rfl
  | cons b as ih =>
    by_cases hb : b = a
    · simp [hb, h]
    · rw [List.erase_cons_tail (by simpa using hb), List.filterMap_cons, List.filterMap_cons, ih]

/-- Parameters stay, whatever is declared. -/
theorem params_declareAttribute (d : Doc) (a : Attribute) :
    (d.declareAttribute hadTable a).params = d.params := by
  have hremove (h : a.param? = none) : (d.remove a).2.params = d.params := by
    rw [params, attributes_remove, filterMap_erase_param h, params]
  cases a with
  | tableDecl t =>
    have hfields (as : List Attribute) :
        (as.filter (·.kind != .field)).filterMap Attribute.param? =
          as.filterMap Attribute.param? := by
      rw [List.filterMap_filter]
      apply List.filterMap_congr
      intro b _
      cases b <;> rfl
    change (d.declareTable t).attributes.filterMap Attribute.param? = _
    rw [attributes_declareTable]
    split
    · exact filterMap_erase_param rfl _
    · exact (hfields _).trans (filterMap_erase_param rfl _)
  | functionDecl f => exact hremove rfl
  | global f => exact hremove rfl
  | classDecl c => cases hadTable <;> rfl
  | enumDecl e => cases hadTable <;> rfl
  | field f => rfl
  | param p => rfl
  | other o => rfl

theorem declarations_declareFunction (d : Doc) (f : FunctionDecl) :
    (d.declareAttribute hadTable (.functionDecl f)).declarations =
      d.declarations ++ [f.stub d.params] := by
  have hparams : (d.consume (.functionDecl f)).params = d.params :=
    params_declareAttribute hadTable d (.functionDecl f)
  have hconsume : (d.consume (.functionDecl f)).declarations = d.declarations :=
    declarations_remove d (.functionDecl f)
  change (d.consume (.functionDecl f)).declarations ++
    [f.stub (d.consume (.functionDecl f)).params] = _
  rw [hparams, hconsume]

/-- Each function adds one declaration, with all parameters that the doc has from the start. -/
theorem added_of_function {d : Doc} {as : List Attribute} {f : FunctionDecl} {luas : List Text}
    (h : (.functionDecl f, luas) ∈ addedFrom hadTable d as) : luas = [f.stub d.params] := by
  induction as generalizing d with
  | nil => cases h
  | cons a as ih =>
    obtain heq | h := List.mem_cons.mp h
    · obtain ⟨rfl, rfl⟩ := Prod.mk.inj heq
      rw [declarations_declareFunction, List.drop_left]
    · rw [ih h, params_declareAttribute]

end Trace

/-- What each attribute of a doc adds to its declarations. -/
def added (d : Doc) : List (Attribute × List Text) :=
  addedFrom (d.has .tableDecl) d d.attributes

end Doc

section Words

/-- A text that white space can set off from others. -/
def Text.IsWord (w : Text) : Prop := w ≠ [] ∧ ∀ c ∈ w, isSpace c = false

/-- The commas stay with the words in front of them, and spaces are left between the words. -/
theorem Text.intercalate_comma (ws : List Text) (last : Text) :
    List.intercalate ", " (ws ++ [last]) = [' '].intercalate (ws.map (· ++ [',']) ++ [last]) := by
  rw [intercalate_append_last, intercalate_append_last, List.map_map]
  congr 2
  apply List.map_congr_left
  intro w _
  exact (List.append_assoc w [','] [' ']).symm

theorem Text.splitOn_intercalate_comma {ws : List Text} {last : Text}
    (h : ∀ w ∈ ws ++ [last], IsWord w) :
    (List.intercalate ", " (ws ++ [last])).splitOn ' ' = ws.map (· ++ [',']) ++ [last] := by
  have hspace {w : Text} (hw : IsWord w) : ' ' ∉ w := by
    intro hc
    exact absurd (hw.2 ' ' hc) (by decide)
  rw [intercalate_comma]
  refine List.splitOn_intercalate ' ' ?_ (by simp)
  intro w hw
  obtain hw | hw := List.mem_append.mp hw
  · obtain ⟨u, hu, rfl⟩ := List.mem_map.mp hw
    simpa using hspace (h u (List.mem_append_left _ hu))
  · exact hspace (h w (List.mem_append_right _ hw))

/-- A list of words is known from the way it is printed. -/
theorem Text.intercalate_comma_injective {us vs : List Text} (hu : ∀ w ∈ us, IsWord w)
    (hv : ∀ w ∈ vs, IsWord w) (h : List.intercalate ", " us = List.intercalate ", " vs) :
    us = vs := by
  have hempty {ws : List Text} (hw : ∀ w ∈ ws, IsWord w) (hnil : List.intercalate ", " ws = []) :
      ws = [] := by
    rw [List.eq_nil_iff_forall_not_mem]
    intro w hmem
    have hinfix := infix_intercalate ", " hmem
    rw [hnil] at hinfix
    exact (hw w hmem).1 (List.infix_nil.mp hinfix)
  obtain rfl | ⟨us, u, rfl⟩ := List.eq_nil_or_concat' us
  · exact (hempty hv h.symm).symm
  · obtain rfl | ⟨vs, v, rfl⟩ := List.eq_nil_or_concat' vs
    · exact hempty hu h
    · have hsplit := congrArg (List.splitOn ' ') h
      rw [splitOn_intercalate_comma hu, splitOn_intercalate_comma hv] at hsplit
      obtain ⟨hfront, hlast⟩ := List.append_inj' hsplit rfl
      have hcomma : Function.Injective fun w : Text => w ++ [','] :=
        List.append_left_injective [',']
      rw [List.map_injective_iff.mpr hcomma hfront, hlast]

/-- The word after the tag of a parameter, if there is one. -/
def Attribute.paramWord? (tag body : Text) : Option Text :=
  if tag = "param" ∧ (firstWord body).1 ≠ [] then some (firstWord body).1 else none

/-- A parameter is read from the word after its tag, and from no other tag. -/
theorem Attribute.name_param?_of_read {tag body : Text} {pos : Position} {r : AttributeReading}
    (h : read tag body pos = .ok r) : r.value.param?.map Param.name = paramWord? tag body := by
  by_cases htag : tag = "param"
  · have hkind : NamingTag.of? tag = some .paramTag := NamingTag.eq_word_iff.mp htag
    by_cases hname : (firstWord body).1 = []
    · obtain rfl := Except.ok.inj (h.symm.trans (read_unnamed hkind hname))
      simp [paramWord?, hname, param?]
    · obtain rfl := Except.ok.inj (h.symm.trans (read_named hkind hname))
      simp [paramWord?, htag, hname, param?, NamingTag.split]
  · have hnone : r.value.param? = none := by
      have hvalue := read_tag h
      cases hr : r.value with
      | param p =>
        rw [hr] at hvalue
        exact absurd hvalue.symm htag
      | _ => rfl
    have hword : paramWord? tag body = none := if_neg fun hword => htag hword.1
    rw [hnone, hword]
    rfl

theorem Attribute.isWord_of_paramWord? {tag body w : Text} (h : paramWord? tag body = some w) :
    Text.IsWord w := by
  unfold paramWord? at h
  split at h
  · next hword =>
    obtain rfl := Option.some.inj h
    exact ⟨hword.2, fun c hc => Text.not_isSpace_of_mem_word hc⟩
  · cases h

/-- The words for the parameters in the parts of a comment. -/
def Doc.paramWords (parts : List (Text × Text)) : List Text :=
  parts.filterMap fun p => Attribute.paramWord? p.1 p.2

theorem Doc.map_name_params {pos : Position} {parts : List (Text × Text)}
    {rs : List AttributeReading}
    (h : List.Forall₂ (fun p r => Attribute.read p.1 p.2 pos = .ok r) parts rs) :
    ((rs.map (·.value)).filterMap Attribute.param?).map Param.name = paramWords parts := by
  induction h with
  | nil => rfl
  | @cons p r parts rs hread _ ih =>
    have hword := Attribute.name_param?_of_read hread
    rw [paramWords, List.filterMap_cons, ← hword, List.map_cons, List.filterMap_cons]
    cases r.value.param? with
    | none => exact ih
    | some q => exact congrArg (q.name :: ·) ih

theorem Lua.IsParam.isWord {t : Text} (h : Lua.IsParam t) : Text.IsWord t := by
  obtain hident | rfl := h
  · obtain ⟨hne, hchars⟩ := Lua.isIdentChar_of_isIdent ((Lua.isIdent_iff_ident t).mpr hident)
    exact ⟨hne, fun c hc => TypeExpr.not_isSpace_of_isIdentChar c (hchars c hc)⟩
  · refine ⟨by decide, ?_⟩
    intro c hc
    obtain rfl : c = '.' := by simpa using hc
    decide

end Words

namespace FunctionDecl

/-- Words print to a list of parameters exactly if each of them is a parameter. -/
theorem isStub_iff (f : FunctionDecl) {words : List Text} (h : ∀ w ∈ words, Text.IsWord w) :
    f.IsStub ("function " ++ f.expr ++ "(" ++ List.intercalate ", " words ++ ") end") ↔
      ∀ w ∈ words, Lua.IsParam w := by
  constructor
  · rintro ⟨params, hparams, hlua⟩
    have hlist : List.intercalate ", " words = List.intercalate ", " params :=
      List.append_cancel_left (List.append_cancel_right hlua)
    have hwords := Text.intercalate_comma_injective h (fun p hp => (hparams p hp).isWord) hlist
    rw [hwords]
    exact hparams
  · intro hall
    exact ⟨words, hall, rfl⟩

end FunctionDecl

namespace Doc

/--
Each function of a doc gives one declaration. Its parameters are the words after the tags for them
in the comment, in order and as they stand, so it is one in Lua exactly if each word is a parameter
there.
-/
theorem added_function (c : Comment) (d : Doc) (h : (read c).result = .ok d) :
    ∃ description parts, Divides (c.text ++ ['\n']) description parts ∧
      d.params.map Param.name = paramWords parts ∧ (∀ w ∈ paramWords parts, Text.IsWord w) ∧
      d.added.map Prod.fst = d.attributes ∧ d.declare.declarations = d.added.flatMap Prod.snd ∧
      ∀ f luas, (.functionDecl f, luas) ∈ d.added → ∃ lua, luas = [lua] ∧
        lua = "function " ++ f.expr ++ "(" ++ List.intercalate ", " (paramWords parts) ++ ") end" ∧
        (f.IsStub lua ↔ ∀ w ∈ paramWords parts, Lua.IsParam w) := by
  obtain ⟨description, parts, rs, hdivides, hrs, rfl⟩ := exists_parts_of_read h
  have hparams := map_name_params hrs
  have hwords : ∀ w ∈ paramWords parts, Text.IsWord w := by
    intro w hw
    obtain ⟨p, -, hp⟩ := List.mem_filterMap.mp hw
    exact Attribute.isWord_of_paramWord? hp
  refine ⟨description, parts, hdivides, hparams, hwords, map_fst_addedFrom _ _ _, ?_, ?_⟩
  · exact declarations_foldl_eq _ _ _
  · intro f luas hadded
    have hluas := added_of_function _ hadded
    rw [FunctionDecl.stub_eq, params, hparams] at hluas
    exact ⟨_, hluas, rfl, f.isStub_iff hwords⟩

/-- A parameter that is marked as optional, and one for all that follow it. -/
theorem read_optional : ∃ d : Doc,
    (read ⟨⟨1, 1⟩, ⟨4, 1⟩, "@function T:f\n@param x? number\n@param ... any"⟩).result = .ok d ∧
    (.functionDecl ⟨[['T'], ['f']], true, "\n"⟩, ["function T:f(x?, ...) end".toList]) ∈ d.added ∧
    ⟨"x?", " number\n"⟩ ∈ d.params :=
  ⟨{ attributes := [.functionDecl ⟨[['T'], ['f']], true, "\n"⟩, .param ⟨"x?", " number\n"⟩,
       .param ⟨"...", " any\n"⟩]
     start := ⟨1, 1⟩
     stop := ⟨4, 1⟩ }, by decide +kernel, by decide +kernel, by decide⟩

theorem not_isParam_optional : ¬Lua.IsParam "x?" := by
  rintro (hident | hdots)
  · exact absurd ((Lua.isIdent_iff_ident _).mpr hident) (by decide)
  · exact absurd hdots (by decide)

theorem added_function_optional : ∃ (d : Doc) (f : FunctionDecl),
    (read ⟨⟨1, 1⟩, ⟨4, 1⟩, "@function T:f\n@param x? number\n@param ... any"⟩).result = .ok d ∧
    (.functionDecl f, ["function T:f(x?, ...) end".toList]) ∈ d.added ∧
    d.declare.declarations = d.added.flatMap Prod.snd ∧
    ¬f.IsStub "function T:f(x?, ...) end" := by
  obtain ⟨d, hread, hadded, hparam⟩ := read_optional
  obtain ⟨-, parts, -, hparams, -, -, hdeclared, hfunctions⟩ := added_function _ d hread
  refine ⟨d, _, hread, hadded, hdeclared, ?_⟩
  obtain ⟨lua, hluas, -, hstub⟩ := hfunctions _ _ hadded
  obtain rfl := List.singleton_inj.mp hluas
  rw [hstub, ← hparams]
  intro hall
  exact not_isParam_optional (hall _ (List.mem_map_of_mem hparam))

/-- The mark of an optional parameter is printed as a part of its name. -/
theorem not_forall_isParam : ¬∀ (c : Comment) (d : Doc), (read c).result = .ok d →
    ∀ f luas, (.functionDecl f, luas) ∈ d.added → ∀ lua ∈ luas,
      lua = "function " ++ f.expr ++
        "(" ++ List.intercalate ", " (d.params.map Param.name) ++ ") end" ∧
      ∀ p ∈ d.params, Lua.IsParam p.name := by
  intro hall
  obtain ⟨d, hread, hadded, hparam⟩ := read_optional
  have hlegal := (hall _ d hread _ _ hadded _ (List.mem_singleton.mpr rfl)).2
  exact not_isParam_optional (hlegal _ hparam)

end Doc

end LuaStubs
