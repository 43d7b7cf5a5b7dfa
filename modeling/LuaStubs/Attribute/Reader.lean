import LuaStubs.Attribute.Basic
import LuaStubs.TypeExpr.Reader
import LuaStubs.Warning

namespace LuaStubs

/-- An attribute that was read, whether it could be read otherwise, and what there is to tell. -/
structure AttributeReading where
  value : Attribute
  ambiguous : Bool := false
  events : List Event := []
deriving DecidableEq, Repr

namespace Attribute

/-- The first word on the line of a tag, and all that follows it. -/
def firstWord (body : Text) : Text × Text := Text.word (body.dropWhile Text.isBlank)

/-- Splits a text after the name of a class: white space between angle brackets belongs to it. -/
def classSpan : Nat → Text → Text × Text
  | _, [] => ([], [])
  | depth, c :: t =>
    if c = '\n' || (Text.isSpace c && depth == 0) then ([], c :: t)
    else
      let depth := if c = '<' then depth + 1 else if c = '>' then depth - 1 else depth
      let (name, rest) := classSpan depth t
      (c :: name, rest)

def className (body : Text) : Text × Text := classSpan 0 (body.dropWhile Text.isBlank)

/-- The names in `a.b.c` or `a.b:c`, and whether it names a method. -/
def functionName? (word : Text) : Option (List Text × Bool) :=
  match Lua.dotted? word with
  | some (path, []) => some (path.splitOn '.', false)
  | some (path, ':' :: method) =>
    if Lua.isIdent method then some (path.splitOn '.' ++ [method], true) else none
  | _ => none

/-- A type has to be followed by white space or nothing. -/
def typeOf? (t : Text) : Option TypeExpr.Reading :=
  (TypeExpr.read? t).filter fun r => r.rest.isEmpty || Text.startsWithSpace r.rest

/--
The type and description of a field called `word`. Where the text is no type, the next word is
taken for one as it stands.
-/
def readField (tag word rest : Text) (pos : Position) (wrap : Field → Attribute) :
    AttributeReading :=
  let typeText := rest.dropWhile Text.isBlank
  if typeText = [] ∨ typeText.head? = some '\n' then
    { value := wrap ⟨FieldPath.ofWord word, none, rest⟩
      events := [.warning (.missingType tag word pos)] }
  else match typeOf? typeText with
    | some r =>
      { value := wrap ⟨FieldPath.ofWord word, some r.type, r.rest⟩, ambiguous := r.ambiguous }
    | none =>
      let (type, description) := Text.word typeText
      { value := wrap ⟨FieldPath.ofWord word, some (.ofName type), description⟩
        events := [.note (.typeKept type)] }

/-- The kinds of attributes that name something, with the tags that stand for them. -/
inductive NamingTag where
  | classTag
  | tableTag
  | enumTag
  | functionTag
  | paramTag
  | fieldTag
  | globalTag
deriving DecidableEq, Repr

def NamingTag.of? (tag : Text) : Option NamingTag :=
  if tag = "class" then some .classTag
  else if tag = "table" then some .tableTag
  else if tag = "enum" then some .enumTag
  else if tag = "function" then some .functionTag
  else if tag = "param" then some .paramTag
  else if tag = "field" then some .fieldTag
  else if tag = "global" then some .globalTag
  else none

/-- The name after a tag, and all that follows it. -/
def NamingTag.split (kind : NamingTag) (body : Text) : Text × Text :=
  match kind with
  | .classTag => className body
  | _ => firstWord body

/-- Reads what a tag names, with the text after the name. -/
def readNamed (kind : NamingTag) (tag name rest : Text) (pos : Position) :
    Except DocError AttributeReading :=
  match kind with
  | .classTag =>
    if Lua.isDotted (ClassDecl.mk name rest).bareName then
      .ok { value := .classDecl ⟨name, rest⟩ }
    else .error (.invalidName tag name pos)
  | .tableTag =>
    if Lua.isDotted name then
      .ok { value := .tableDecl ⟨name.splitOn '.', false, rest⟩ }
    else .error (.invalidName tag name pos)
  | .enumTag =>
    if Lua.isDotted name then .ok { value := .enumDecl ⟨name.splitOn '.', rest⟩ }
    else .error (.invalidName tag name pos)
  | .functionTag =>
    match functionName? name with
    | some (names, isMethod) => .ok { value := .functionDecl ⟨names, isMethod, rest⟩ }
    | none => .error (.invalidName tag name pos)
  | .paramTag => .ok { value := .param ⟨name, rest⟩ }
  | .fieldTag => .ok (readField tag name rest pos .field)
  | .globalTag => .ok (readField tag name rest pos .global)

def read (tag body : Text) (pos : Position) : Except DocError AttributeReading :=
  match NamingTag.of? tag with
  | none => .ok { value := .other ⟨tag, body⟩ }
  | some kind =>
    match kind.split body with
    | ([], _) =>
      .ok { value := .other ⟨tag, body⟩, events := [.warning (.missingName tag pos)] }
    | (name, rest) => readNamed kind tag name rest pos

end Attribute

end LuaStubs
