import LuaStubs.Lua.Name

namespace LuaStubs

inductive FieldKey where
  | name (n : Text)
  /-- What stands between the brackets. -/
  | index (raw : Text)
deriving DecidableEq, Repr

abbrev FieldPath := List FieldKey

namespace FieldKey

/-- A key as it is written; after another key a name needs a dot. -/
def text (first : Bool) : FieldKey → Text
  | .name n => if first then n else '.' :: n
  | .index raw => Lua.bracketed raw

/-- A key as part of an expression, where a reserved word is no name. -/
def expr (first : Bool) : FieldKey → Text
  | .name n => Lua.nameKey first n
  | .index raw => Lua.bracketed raw

end FieldKey

namespace FieldPath

def text : FieldPath → Text
  | [] => []
  | k :: ks => k.text true ++ (ks.map (FieldKey.text false)).flatten

def expr : FieldPath → Text
  | [] => []
  | k :: ks => k.expr true ++ (ks.map (FieldKey.expr false)).flatten

/-- The path of plain names that a dotted name spells. -/
def ofDotted (name : Text) : FieldPath := (name.splitOn '.').map .name

/-- The plain names before the first bracketed key. -/
def frontNames : FieldPath → List Text
  | .name n :: ks => n :: frontNames ks
  | _ => []

/-- What has been read of the key at hand, its characters latest first. -/
inductive Progress where
  | start
  /-- After a dot, where a name has to follow. -/
  | dot
  | name (read : Text)
  | index (read : Text)
  /-- After a closing bracket. -/
  | closed

/-- The keys that the rest of a word spells; none if it is malformed. -/
def keysFrom : Progress → Text → Option FieldPath
  | .start, [] => some []
  | .start, '[' :: t => keysFrom (.index []) t
  | .start, c :: t => if c = '.' then none else keysFrom (.name [c]) t
  | .dot, [] => none
  | .dot, c :: t => if c = '.' || c = '[' then none else keysFrom (.name [c]) t
  | .name read, [] => some [.name read.reverse]
  | .name read, '.' :: t => (keysFrom .dot t).map (.name read.reverse :: ·)
  | .name read, '[' :: t => (keysFrom (.index []) t).map (.name read.reverse :: ·)
  | .name read, c :: t => keysFrom (.name (c :: read)) t
  | .index _, [] => none
  | .index read, ']' :: t =>
    if read = [] then none else (keysFrom .closed t).map (.index read.reverse :: ·)
  | .index read, c :: t => keysFrom (.index (c :: read)) t
  | .closed, [] => some []
  | .closed, '.' :: t => keysFrom .dot t
  | .closed, '[' :: t => keysFrom (.index []) t
  | .closed, _ :: _ => none

/-- The path that a word spells; a malformed word is one name. -/
def ofWord (word : Text) : FieldPath := (keysFrom .start word).getD [.name word]

end FieldPath

end LuaStubs
