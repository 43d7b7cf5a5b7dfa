import LuaStubs.Doc.Basic
import LuaStubs.Lua.Stub

namespace LuaStubs

/-- A global is another way to write a field. -/
def Attribute.globalAsField : Attribute → Attribute
  | .global f => .field f
  | a => a

namespace Doc

def globalsAsFields (d : Doc) : Doc :=
  { d with attributes := d.attributes.map Attribute.globalAsField }

/-- Turns the fields of a doc without a table into one declaration of assignments. -/
def assignFields (d : Doc) : Doc :=
  if d.has .tableDecl || d.fields.isEmpty then d
  else
    { d.takeFields.2 with
      declarations := d.declarations ++
        [List.intercalate "\n\n" (d.fields.map (Field.assignment []))] }

end Doc

end LuaStubs
