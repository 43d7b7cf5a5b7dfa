import LuaStubs.Doc.Basic
import LuaStubs.Lua.Stub
import LuaStubs.Warning

namespace LuaStubs.Doc

def addDeclaration (d : Doc) (lua : Text) : Doc :=
  { d with declarations := d.declarations ++ [lua] }

/-- Takes an attribute out of a doc and its description into that of the doc. -/
def consume (d : Doc) (a : Attribute) : Doc :=
  { (d.remove a).2 with description := Text.joinParagraphs d.description a.description }

/-- A table with the fields of the doc; those of a class stay annotations. -/
def declareTable (d : Doc) (t : TableDecl) : Doc :=
  let d := d.consume (.tableDecl t)
  if d.has .classDecl then d.addDeclaration (Lua.tableStub t.isLocal t.name [])
  else d.takeFields.2.addDeclaration (Lua.tableStub t.isLocal t.name d.fields)

def declareFunction (d : Doc) (f : FunctionDecl) : Doc :=
  let d := d.consume (.functionDecl f)
  d.addDeclaration (f.stub d.params)

/-- A class or an enum is declared by its table, and on its own only if the doc had none. -/
def declareAttribute (hadTable : Bool) (d : Doc) : Attribute → Doc
  | .tableDecl t => d.declareTable t
  | .functionDecl f => d.declareFunction f
  | .classDecl c => if hadTable then d else d.addDeclaration (Lua.tableStub true c.tablePath [])
  | .enumDecl e => if hadTable then d else d.addDeclaration (Lua.tableStub false e.name [])
  | .global f => (d.remove (.global f)).2.addDeclaration (f.assignment [])
  | .field _ | .param _ | .other _ => d

/-- Generates the declarations of a doc from the attributes it has at the start. -/
def declare (d : Doc) : Doc := d.attributes.foldl (declareAttribute (d.has .tableDecl)) d

/-- The warning about a doc that gets more than one declaration. -/
def conflict? (d : Doc) : Option Warning :=
  if 1 < d.declare.declarations.length then
    some (.conflictingDeclarations d.path d.start (d.attributes.map Attribute.text)
      d.declare.declarations)
  else none

end LuaStubs.Doc
