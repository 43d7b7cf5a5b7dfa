import LuaStubs.Attribute.Printer
import LuaStubs.Doc.Basic
import LuaStubs.Warning

namespace LuaStubs

/-- The longest of the first `n` names that is an enum. -/
def enumPrefix? (enums : List Text) (names : List Text) : Nat → Option (List Text)
  | 0 => none
  | n + 1 =>
    if enums.contains (dottedName (names.take (n + 1))) then some (names.take (n + 1))
    else enumPrefix? enums names n

/-- The enum that a field belongs to by its name; at least one key remains for the field. -/
def Field.enum? (enums : List Text) (f : Field) : Option (List Text) :=
  enumPrefix? enums f.name.frontNames (min f.name.frontNames.length (f.name.length - 1))

namespace Doc

/-- The names of the enums that some docs declare, each once. -/
def enumNames (ds : List Doc) : List Text :=
  (ds.flatMap fun d =>
    (d.attributes.filterMap Attribute.enum?).map fun e => dottedName e.name).eraseDups

/-- The fields of a doc that belong to enums, each with its enum and without the name of it. -/
def enumFields (enums : List Text) (d : Doc) : List (List Text × Field) :=
  d.fields.filterMap fun f =>
    (f.enum? enums).map fun e => (e, { f with name := f.name.drop e.length })

/-- The description of a doc goes to the first field that leaves it. -/
def describeFirst (description : Text) : List (List Text × Field) → List (List Text × Field)
  | [] => []
  | (e, f) :: rest =>
    (e, { f with description := Text.joinParagraphs description f.description }) :: rest

/-- What remains of a doc when the fields that belong to enums have left. -/
def withoutEnumFields (enums : List Text) (d : Doc) : Doc :=
  { d with
    description := []
    attributes := d.attributes.filter fun a =>
      match a.field? with
      | some f => (f.enum? enums).isNone
      | none => true }

/-- A doc that brings fields to the table of an enum. -/
def bringing (d : Doc) (enum : List Text) (fields : List Field) : Doc :=
  { attributes := fields.map .field ++ [.tableDecl ⟨enum, false, []⟩]
    path := d.path, start := d.start, stop := d.stop }

/-- One doc per enum that fields of `d` belong to, in order of the first such field. -/
def enumDocs (enums : List Text) (d : Doc) : List Doc :=
  let fields := describeFirst d.description (d.enumFields enums)
  (fields.map Prod.fst).eraseDups.map fun e =>
    d.bringing e ((fields.filter fun p => p.1 == e).map Prod.snd)

/-- Splits off the fields of a doc without a table that belong to enums. -/
def splitEnumFields (enums : List Text) (d : Doc) : List Doc :=
  if d.has .tableDecl || (d.enumFields enums).isEmpty then [d]
  else
    (if (d.withoutEnumFields enums).isEmpty then [] else [d.withoutEnumFields enums]) ++
    d.enumDocs enums

/-- Brings the fields that belong to enums into docs of their tables. -/
def foldIntoEnums (ds : List Doc) : List Doc := ds.flatMap (splitEnumFields (enumNames ds))

/-- The enums to which a doc has brought fields. -/
def foldNotesOf (enums : List Text) (d : Doc) : List Note :=
  if d.has .tableDecl then []
  else ((d.enumFields enums).map Prod.fst).eraseDups.map fun e =>
    .fieldsFolded (dottedName e) d.start

/-- Which docs have brought fields to which enum. -/
def foldNotes (ds : List Doc) : List Note := ds.flatMap (foldNotesOf (enumNames ds))

end Doc

/-- Puts all enums into the first of them. -/
def Attribute.mergeEnums : List Attribute → List Attribute
  | [] => []
  | .enumDecl e :: rest =>
    .enumDecl { e with
      description := (rest.filterMap Attribute.enum?).foldl
        (fun t later => Text.joinParagraphs t later.description) e.description } ::
    rest.filter fun a => a.kind != .enumDecl
  | a :: rest => a :: mergeEnums rest

def Doc.mergeEnums (d : Doc) : Doc := { d with attributes := Attribute.mergeEnums d.attributes }

end LuaStubs
