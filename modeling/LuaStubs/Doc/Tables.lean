import LuaStubs.Attribute.Printer
import LuaStubs.Doc.Basic
import LuaStubs.Warning

namespace LuaStubs

/-- The table that a class or an enum stands for. -/
def Attribute.impliedTable? : Attribute → Option TableDecl
  | .classDecl c => some ⟨c.tablePath, true, []⟩
  | .enumDecl e => some ⟨e.name, false, []⟩
  | _ => none

namespace Doc

/-- Gives a doc of a class or an enum its table unless it declares one. -/
def withTable (d : Doc) : Doc :=
  if d.has .tableDecl then d
  else match d.attributes.findSome? Attribute.impliedTable? with
    | some t => { d with attributes := d.attributes ++ [.tableDecl t] }
    | none => d

/-- The name that docs of the same table share. -/
def tableKey? (d : Doc) : Option Text := d.table?.map fun t => dottedName t.name

/-- The attributes without the first table. -/
def dropTable (d : Doc) : List Attribute := d.attributes.eraseP fun a => a.kind == .tableDecl

/-- Adds what a later doc of the same table says. -/
def absorb (d e : Doc) : Doc :=
  { d with
    description := Text.joinParagraphs (Text.joinParagraphs d.description e.description)
      ((e.table?.map TableDecl.description).getD [])
    attributes := d.attributes ++ e.dropTable }

/-- Adds a doc of the table `key` to the doc of that table, if there is one. -/
def place? (key : Text) (e : Doc) : List Doc → Option (List Doc)
  | [] => none
  | d :: ds =>
    if d.tableKey? = some key then some (d.absorb e :: ds) else (place? key e ds).map (d :: ·)

/-- Adds a doc to the docs before it, the latest of which comes first. -/
def addDoc (ds : List Doc) (d : Doc) : List Doc :=
  match d.tableKey? with
  | some key => (place? key d ds).getD (d :: ds)
  | none => d :: ds

/-- Puts all docs of one table into the first of them. -/
def mergeByTable (ds : List Doc) : List Doc := (ds.foldl addDoc []).reverse

/-- Which docs are merged into one before them, given the tables met already. -/
def mergeNotes : List Text → List Doc → List Note
  | _, [] => []
  | met, d :: ds =>
    match d.tableKey? with
    | none => mergeNotes met ds
    | some key =>
      if met.contains key then .docMerged key d.start :: mergeNotes met ds
      else mergeNotes (key :: met) ds

end Doc

end LuaStubs
