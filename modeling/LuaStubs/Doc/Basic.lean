import LuaStubs.Attribute.Basic
import LuaStubs.Position

namespace LuaStubs

structure Doc where
  /-- Free text before the first attribute. -/
  description : Text := []
  attributes : List Attribute := []
  path : Option Text := none
  start : Position := {}
  stop : Position := {}
  /-- Generated declarations; only the first is printed. -/
  declarations : List Text := []
  /-- A link to the source. -/
  link : Option Text := none
deriving DecidableEq, Repr

namespace Doc

def has (d : Doc) (kind : AttributeKind) : Bool := d.attributes.any fun a => a.kind == kind

/-- The first table that a doc declares. -/
def table? (d : Doc) : Option TableDecl := d.attributes.findSome? Attribute.table?

/-- Takes out all attributes of a kind. -/
def take (d : Doc) (kind : AttributeKind) : List Attribute × Doc :=
  (d.attributes.filter (·.kind == kind),
    { d with attributes := d.attributes.filter (·.kind != kind) })

def fields (d : Doc) : List Field := d.attributes.filterMap Attribute.field?

def params (d : Doc) : List Param := d.attributes.filterMap Attribute.param?

/-- Takes out all fields. -/
def takeFields (d : Doc) : List Field × Doc := (d.fields, (d.take .field).2)

/-- Takes out the first occurrence of an attribute. -/
def remove (d : Doc) (a : Attribute) : Option Attribute × Doc :=
  if a ∈ d.attributes then (some a, { d with attributes := d.attributes.erase a }) else (none, d)

/-- A doc with nothing to print. -/
def isEmpty (d : Doc) : Bool :=
  d.declarations.isEmpty && Text.isWhite d.description && d.attributes.isEmpty

end Doc

end LuaStubs
