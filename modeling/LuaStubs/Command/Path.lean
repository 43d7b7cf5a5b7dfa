import LuaStubs.Text.Basic

namespace LuaStubs.Path

/-- A part of a path. Doubled slashes and dots after the front are no parts. -/
inductive Part where
  | root
  | current
  | parent
  | name (n : Text)
deriving DecidableEq, Repr

def Part.ofSegment? (segment : Text) : Option Part :=
  if segment = [] ∨ segment = ['.'] then none
  else if segment = ['.', '.'] then some .parent
  else some (.name segment)

def frontPart? (segment : Text) (more : Bool) : Option Part :=
  if segment = [] && more then some .root
  else if segment = ['.'] then some .current
  else Part.ofSegment? segment

def parts (path : Text) : List Part :=
  match path.splitOn '/' with
  | [] => []
  | front :: segments =>
    (frontPart? front (!segments.isEmpty)).toList ++ segments.filterMap Part.ofSegment?

def Part.rank : Part → Nat
  | .root => 0
  | .current => 1
  | .parent => 2
  | .name _ => 3

def Part.text : Part → Text
  | .root => ['/']
  | .current => ['.']
  | .parent => ['.', '.']
  | .name n => n

/-- Texts in the order of their characters. -/
def textLe : Text → Text → Bool
  | [], _ => true
  | _ :: _, [] => false
  | c :: s, d :: t => c < d || (c == d && textLe s t)

def Part.le (p q : Part) : Bool := p.rank < q.rank || (p.rank == q.rank && textLe p.text q.text)

def partsLe : List Part → List Part → Bool
  | [], _ => true
  | _ :: _, [] => false
  | p :: ps, q :: qs => if p = q then partsLe ps qs else p.le q

/-- Paths are ordered part by part. -/
def le (p q : Text) : Bool := partsLe (parts p) (parts q)

/-- Drops the paths that name the same parts as the one kept last. -/
def dropRepeatsOf (last : Text) : List Text → List Text
  | [] => []
  | p :: ps =>
    if parts p = parts last then dropRepeatsOf last ps else p :: dropRepeatsOf p ps

/-- Paths in order, each once. -/
def sorted (paths : List Text) : List Text :=
  match paths.mergeSort le with
  | [] => []
  | p :: ps => p :: dropRepeatsOf p ps

/-- A path inside a directory; a path from the root stands for itself. -/
def join (dir path : Text) : Text :=
  if path.head? = some '/' || dir = [] then path
  else if dir.getLast? = some '/' then dir ++ path
  else dir ++ ['/'] ++ path

/-- The last name of a path. -/
def fileName? (path : Text) : Option Text :=
  match (parts path).getLast? with
  | some (.name n) => some n
  | _ => none

/-- A file name without its last extension, and the extension; a dot at the front begins none. -/
def splitExtension (name : Text) : Text × Option Text :=
  match name.reverse.dropWhile (· != '.') with
  | [] => (name, none)
  | _ :: stem =>
    if stem = [] then (name, none)
    else (stem.reverse, some (name.reverse.takeWhile (· != '.')).reverse)

def stem? (path : Text) : Option Text := (fileName? path).map fun n => (splitExtension n).1

def extension? (path : Text) : Option Text := (fileName? path).bind fun n => (splitExtension n).2

end LuaStubs.Path
