import LuaStubs.FieldPath
import LuaStubs.TypeExpr.Basic

namespace LuaStubs

structure ClassDecl where
  /-- As written, with type parameters and a base list that follows without space. -/
  name : Text
  description : Text
deriving DecidableEq, Repr

/-- The name of a class without type parameters and base list. -/
def ClassDecl.bareName (c : ClassDecl) : Text := c.name.takeWhile fun x => x != '<' && x != ':'

/-- The path of the table that stands for a class. -/
def ClassDecl.tablePath (c : ClassDecl) : List Text := c.bareName.splitOn '.'

structure TableDecl where
  name : List Text
  isLocal : Bool
  description : Text
deriving DecidableEq, Repr

structure EnumDecl where
  name : List Text
  description : Text
deriving DecidableEq, Repr

structure Field where
  name : FieldPath
  type : Option TypeExpr
  description : Text
deriving DecidableEq, Repr

structure FunctionDecl where
  name : List Text
  /-- Declared with a colon before its last name. -/
  isMethod : Bool
  description : Text
deriving DecidableEq, Repr

structure Param where
  name : Text
  description : Text
deriving DecidableEq, Repr

/-- A tag without a meaning here, kept as it is. -/
structure OtherTag where
  tag : Text
  description : Text
deriving DecidableEq, Repr

inductive Attribute where
  | classDecl (c : ClassDecl)
  | tableDecl (t : TableDecl)
  | enumDecl (e : EnumDecl)
  | field (f : Field)
  | functionDecl (f : FunctionDecl)
  | global (f : Field)
  | param (p : Param)
  | other (o : OtherTag)
deriving DecidableEq, Repr

inductive AttributeKind where
  | classDecl
  | tableDecl
  | enumDecl
  | field
  | functionDecl
  | global
  | param
  | other
deriving DecidableEq, Repr

namespace Attribute

def kind : Attribute → AttributeKind
  | .classDecl _ => .classDecl
  | .tableDecl _ => .tableDecl
  | .enumDecl _ => .enumDecl
  | .field _ => .field
  | .functionDecl _ => .functionDecl
  | .global _ => .global
  | .param _ => .param
  | .other _ => .other

def tag : Attribute → Text
  | .classDecl _ => "class"
  | .tableDecl _ => "table"
  | .enumDecl _ => "enum"
  | .field _ => "field"
  | .functionDecl _ => "function"
  | .global _ => "global"
  | .param _ => "param"
  | .other o => o.tag

def description : Attribute → Text
  | .classDecl c => c.description
  | .tableDecl t => t.description
  | .enumDecl e => e.description
  | .field f | .global f => f.description
  | .functionDecl f => f.description
  | .param p => p.description
  | .other o => o.description

def table? : Attribute → Option TableDecl
  | .tableDecl t => some t
  | _ => none

def enum? : Attribute → Option EnumDecl
  | .enumDecl e => some e
  | _ => none

def field? : Attribute → Option Field
  | .field f => some f
  | _ => none

def param? : Attribute → Option Param
  | .param p => some p
  | _ => none

end Attribute

end LuaStubs
