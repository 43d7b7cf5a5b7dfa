import LuaStubs.Attribute.Printer

namespace LuaStubs

/-- Writes a text as comment lines. -/
def Lua.comment (indent t : Text) : Text :=
  if t = [] then []
  else ['\n'].intercalate ((t.splitOn '\n').map fun line => indent ++ "---" ++ line)

namespace Field

/-- A field holds the value of its type if the type has only one, and nothing otherwise. -/
def initialValue (f : Field) : Text := (f.type.bind TypeExpr.value?).getD "nil"

/-- What the comment of a field says: its type, unless its value shows it, and its description. -/
def remark (f : Field) : Text :=
  match f.type with
  | some type =>
    if type.value?.isSome then Text.trim f.description
    else Text.trim ("@type " ++ type.text ++ Text.setOff f.description)
  | none => Text.trim f.description

/-- A field as a commented assignment. -/
def assignment (indent : Text) (f : Field) : Text :=
  let line := indent ++ f.name.expr ++ " = " ++ f.initialValue
  if f.remark = [] then line else Lua.comment indent f.remark ++ "\n" ++ line

end Field

/-- A table of fields; only a single name can be local. -/
def Lua.tableStub (isLocal : Bool) (name : List Text) (fields : List Field) : Text :=
  (if isLocal && name.length == 1 then "local ".toList else []) ++ Lua.pathExpr name ++ " = \x7b" ++
  (if fields = [] then []
    else '\n' :: List.intercalate ",\n\n" (fields.map (Field.assignment "\t")) ++ ['\n']) ++ "\x7d"

/-- A function without a body. -/
def FunctionDecl.stub (f : FunctionDecl) (params : List Param) : Text :=
  "function " ++ (if f.isMethod then Lua.methodExpr f.name else Lua.pathExpr f.name) ++ "(" ++
  List.intercalate ", " (params.map Param.name) ++ ") end"

end LuaStubs
