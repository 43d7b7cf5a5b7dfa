import LuaStubs.Command.Path

namespace LuaStubs

/-- What a file holds: a text, or bytes that are the UTF-8 form of none. -/
inductive Content where
  | text (t : Text)
  | binary (bytes : List UInt8)
deriving DecidableEq, Repr

def Content.ofBytes (bytes : ByteArray) : Content :=
  match String.fromUTF8? bytes with
  | some s => .text s.toList
  | none => .binary bytes.toList

/-- A directory or a file, and whether it may be read. -/
inductive Node where
  | directory (readable : Bool)
  | file (readable : Bool) (content : Content)
deriving DecidableEq, Repr

namespace Node

def isDirectory : Node → Bool
  | directory _ => true
  | file .. => false

def readable : Node → Bool
  | directory r => r
  | file r _ => r

def content? : Node → Option Content
  | directory _ => none
  | file _ content => some content

end Node

/-- Why a path cannot be used. -/
inductive OsError where
  | notFound
  | permissionDenied
  | alreadyExists
  | notADirectory
  | isADirectory
deriving DecidableEq, Repr

def OsError.message : OsError → Text
  | .notFound => "No such file or directory (os error 2)"
  | .permissionDenied => "Permission denied (os error 13)"
  | .alreadyExists => "File exists (os error 17)"
  | .notADirectory => "Not a directory (os error 20)"
  | .isADirectory => "Is a directory (os error 21)"

/--
What is known of the files around a working directory. A place is the names that lead to it from
there: it begins with `..` if it lies above, and with a slash if it is counted from the root.
-/
structure FileTree where
  entries : List (List Text × Node) := []
deriving DecidableEq, Repr

namespace FileTree

/-- The working directory, those above it, and the root are always there. -/
def isGiven (place : List Text) : Bool := place = [['/']] || place.all (· == ['.', '.'])

/-- The directory above a place; there is none above the root. -/
def above (place : List Text) : List Text :=
  if place = [['/']] then place
  else if isGiven place then place ++ [['.', '.']]
  else place.dropLast

def node? (t : FileTree) (place : List Text) : Option Node :=
  if isGiven place then some (.directory (t.entries.lookup place ≠ some (.directory false)))
  else t.entries.lookup place

def isDirectoryAt (t : FileTree) (place : List Text) : Bool := (t.node? place).any Node.isDirectory

/-- Whether reading is allowed at a place; it is for what is yet to be made there. -/
def isReadableAt (t : FileTree) (place : List Text) : Bool := (t.node? place).all Node.readable

def setEntry (place : List Text) (node : Node) :
    List (List Text × Node) → List (List Text × Node)
  | [] => [(place, node)]
  | (p, n) :: entries =>
    if p = place then (p, node) :: entries else (p, n) :: setEntry place node entries

def set (t : FileTree) (place : List Text) (node : Node) : FileTree :=
  ⟨setEntry place node t.entries⟩

/-- The steps that a path takes: names, dots, and first a slash if it starts at the root. -/
def segments (path : Text) : List Text :=
  (if path.head? = some '/' then [['/']] else []) ++ (path.splitOn '/').filter (· ≠ [])

/-- One step of a path; only a directory can be left by a name. -/
def stepFrom (t : FileTree) (place : List Text) (name : Text) : Except OsError (List Text) :=
  if name = ['/'] then .ok [['/']]
  else if !t.isDirectoryAt place then .error .notADirectory
  else if name = ['.'] then .ok place
  else if name = ['.', '.'] then .ok (above place)
  else if (t.node? (place ++ [name])).isNone then .error .notFound
  else .ok (place ++ [name])

def follow (t : FileTree) : List Text → List Text → Except OsError (List Text)
  | place, [] => .ok place
  | place, name :: names =>
    match t.stepFrom place name with
    | .error e => .error e
    | .ok place => t.follow place names

def endsWithSlash (path : Text) : Bool := path.getLast? = some '/'

/-- The place that a path leads to; a slash at its end asks for a directory. -/
def locate (t : FileTree) (path : Text) : Except OsError (List Text) :=
  if path = [] then .error .notFound
  else t.follow [] (segments path ++ if endsWithSlash path then [['.']] else [])

def get? (t : FileTree) (path : Text) : Option Node :=
  match t.locate path with
  | .ok place => t.node? place
  | .error _ => none

def isDirectory (t : FileTree) (path : Text) : Bool := (t.get? path).any Node.isDirectory

def isFile (t : FileTree) (path : Text) : Bool := (t.get? path).any (!·.isDirectory)

/-- What the file at a path holds, whether it may be read or not. -/
def content? (t : FileTree) (path : Text) : Option Content := (t.get? path).bind Node.content?

def read (t : FileTree) (path : Text) : Except OsError Content :=
  match t.locate path with
  | .error e => .error e
  | .ok place =>
    match t.node? place with
    | none => .error .notFound
    | some (.file true content) => .ok content
    | some (.directory true) => .error .isADirectory
    | some _ => .error .permissionDenied

/-- The names in a directory. -/
def names (t : FileTree) (place : List Text) : List Text :=
  t.entries.filterMap fun (p, _) => if !isGiven p && p.dropLast = place then p.getLast? else none

def list (t : FileTree) (path : Text) : Except OsError (List Text) :=
  match t.locate path with
  | .error e => .error e
  | .ok place =>
    match t.node? place with
    | none => .error .notFound
    | some (.directory true) => .ok (t.names place)
    | some (.directory false) => .error .permissionDenied
    | some (.file ..) => .error .notADirectory

/-- The directory in which the last of some names stands. -/
def parentOf (t : FileTree) (names : List Text) : Except OsError (List Text) :=
  match t.follow [] names.dropLast with
  | .error e => .error e
  | .ok place => if t.isDirectoryAt place then .ok place else .error .notADirectory

/-- A step that names nothing new. -/
def isDots (name : Text) : Bool := name = ['/'] || name = ['.'] || name = ['.', '.']

/-- Makes one directory. -/
def makeDirectory (t : FileTree) (names : List Text) : Except OsError FileTree :=
  match names.getLast? with
  | none => .error .alreadyExists
  | some last =>
    match t.parentOf names with
    | .error e => .error e
    | .ok parent =>
      if isDots last || (t.node? (parent ++ [last])).isSome then .error .alreadyExists
      else .ok (t.set (parent ++ [last]) (.directory true))

/-- Makes one directory unless it is there. -/
def ensureDirectory (t : FileTree) (names : List Text) : Except OsError FileTree :=
  match t.makeDirectory names with
  | .ok t => .ok t
  | .error e =>
    match t.follow [] names with
    | .ok place => if t.isDirectoryAt place then .ok t else .error e
    | .error _ => .error e

/--
Makes the directory of some names, last name first, and those above it that are missing. Where one
cannot be made, those above it that were made are left.
-/
def ensureAbove (t : FileTree) : List Text → Except (FileTree × OsError) FileTree
  | [] => .ok t
  | name :: above =>
    match t.ensureDirectory (name :: above).reverse with
    | .error .notFound =>
      match t.ensureAbove above with
      | .error e => .error e
      | .ok t => (t.ensureDirectory (name :: above).reverse).mapError (t, ·)
    | r => r.mapError (t, ·)

/-- Makes a directory and those above it that are missing. -/
def ensurePath (t : FileTree) (path : Text) : Except (FileTree × OsError) FileTree :=
  match t.ensureDirectory (segments path) with
  | .error .notFound =>
    match t.ensureAbove ((Path.parts path).dropLast.map Path.Part.text).reverse with
    | .error e => .error e
    | .ok t => (t.ensureDirectory (segments path)).mapError (t, ·)
  | r => r.mapError (t, ·)

/-- Writes a file in a directory that is there; one that was there before stays as readable. -/
def write (t : FileTree) (path content : Text) : Except OsError FileTree :=
  match (segments path).getLast? with
  | none => .error .notFound
  | some last =>
    match t.parentOf (segments path) with
    | .error e => .error e
    | .ok parent =>
      if endsWithSlash path || isDots last || t.isDirectoryAt (parent ++ [last]) then
        .error .isADirectory
      else .ok (t.set (parent ++ [last])
        (.file (t.isReadableAt (parent ++ [last])) (.text content)))

/--
Puts a node at the end of some steps, and directories where they pass. Of a place that is there
anyway, it is only told that it may not be read.
-/
def plantFrom (node : Node) : List Text → List Text → FileTree → FileTree
  | place, [], t => if node.readable then t else t.set place node
  | place, name :: names, t =>
    if name = ['/'] then plantFrom node [['/']] names t
    else if name = ['.'] then plantFrom node place names t
    else if name = ['.', '.'] then plantFrom node (above place) names t
    else if names = [] then t.set (place ++ [name]) node
    else plantFrom node (place ++ [name]) names
      (if (t.node? (place ++ [name])).isSome then t else t.set (place ++ [name]) (.directory true))

/-- Puts a node at a path, with the directories above it. -/
def plant (t : FileTree) (path : Text) (node : Node) : FileTree :=
  plantFrom node [] (segments path) t

/-- The files that are not in another tree as they are here. -/
def newFiles (t old : FileTree) : List (List Text × Content) :=
  t.entries.filterMap fun (p, n) =>
    if old.node? p = some n then none else n.content?.map (p, ·)

/-- The directories that are not in another tree. -/
def newDirectories (t old : FileTree) : List (List Text) :=
  t.entries.filterMap fun (p, n) =>
    if n.isDirectory && (old.node? p).isNone then some p else none

end FileTree

end LuaStubs
