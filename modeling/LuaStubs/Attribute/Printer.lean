import LuaStubs.Attribute.Basic
import LuaStubs.Text.Paragraphs
import LuaStubs.TypeExpr.Printer

namespace LuaStubs

/-- The name of a field with its type. -/
def Field.slot (f : Field) : Text :=
  match f.type with
  | some type => f.name.text ++ " " ++ type.text
  | none => f.name.text

def dottedName (names : List Text) : Text := List.intercalate "." names

/-- The name of a function; the last of several names follows a colon if it is a method. -/
def FunctionDecl.dottedName (f : FunctionDecl) : Text :=
  match f.name.getLast? with
  | some last =>
    if f.name.dropLast = [] then last
    else LuaStubs.dottedName f.name.dropLast ++ (if f.isMethod then ":" else ".") ++ last
  | none => []

namespace Attribute

/-- The tag with its arguments. -/
def head : Attribute → Text
  | .classDecl c => "@class " ++ c.name
  | .tableDecl t => "@table " ++ dottedName t.name
  | .enumDecl e => "@enum " ++ dottedName e.name
  | .field f => "@field " ++ f.slot
  | .global f => "@global " ++ f.slot
  | .functionDecl f => "@function " ++ f.dottedName
  | .param p => "@param " ++ p.name
  | .other o => "@" ++ o.tag

def text (a : Attribute) : Text := Text.trimEnd (a.head ++ Text.setOff a.description)

end Attribute

end LuaStubs
