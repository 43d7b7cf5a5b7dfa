import LuaStubs.Command.Run

namespace LuaStubs.Glob

/-- A piece of a pattern. -/
inductive Piece where
  | char (c : Char)
  | anyChar
  | anySequence
  | anyDepth
  | oneOf (ranges : List (Char × Char))
  | noneOf (ranges : List (Char × Char))
deriving DecidableEq, Repr

inductive Fault where
  | tooManyStars
  | starsInName
  | badRange
deriving DecidableEq, Repr

/-- What is wrong with a pattern, and near which character. -/
structure PatternError where
  position : Nat
  fault : Fault
deriving DecidableEq, Repr

def Fault.message : Fault → Text
  | .tooManyStars => "wildcards are either regular `*` or recursive `**`"
  | .starsInName => "recursive wildcards must form a single path component"
  | .badRange => "invalid range pattern"

def PatternError.message (e : PatternError) : Text :=
  "Pattern syntax error near position " ++ Text.ofNat e.position ++ ": " ++ e.fault.message

/-- The ranges between brackets; a character alone is a range of one. -/
def ranges : Text → List (Char × Char)
  | a :: '-' :: b :: t => (a, b) :: ranges t
  | a :: t => (a, a) :: ranges t
  | [] => []

/-- A range after its `[`: the first character cannot close it. -/
def rangeStep (pos : Nat) : Text → Except PatternError (Piece × Nat)
  | '!' :: a :: t =>
    match Text.before? [']'] t with
    | some inside => .ok (.noneOf (ranges (a :: inside)), inside.length + 4)
    | none => .error ⟨pos, .badRange⟩
  | a :: t =>
    match Text.before? [']'] t with
    | some inside => .ok (.oneOf (ranges (a :: inside)), inside.length + 3)
    | none => .error ⟨pos, .badRange⟩
  | [] => .error ⟨pos, .badRange⟩

/-- Stars that come in twos have to be a whole name; the slash after them goes with them. -/
def starStep (pos : Nat) (previous : Option Char) (t : Text) : Except PatternError (Piece × Nat) :=
  match t with
  | '*' :: '*' :: '*' :: _ => .error ⟨pos + 2, .tooManyStars⟩
  | '*' :: '*' :: rest =>
    if pos ≠ 0 ∧ previous ≠ some '/' then .error ⟨pos - 1, .starsInName⟩
    else match rest with
      | [] => .ok (.anyDepth, 2)
      | '/' :: _ => .ok (.anyDepth, 3)
      | _ => .error ⟨pos + 2, .starsInName⟩
  | _ => .ok (.anySequence, 1)

/-- The first piece of a pattern and its length. -/
def pieceStep (pos : Nat) (previous : Option Char) (t : Text) :
    Except PatternError (Piece × Nat) :=
  match t with
  | '?' :: _ => .ok (.anyChar, 1)
  | '*' :: _ => starStep pos previous t
  | '[' :: rest => rangeStep pos rest
  | c :: _ => .ok (.char c, 1)
  | [] => .ok (.anySequence, 0)

/-- The pieces of a pattern, after `skip` characters of the piece before. -/
def piecesFrom : Nat → Option Char → Nat → Text → Except PatternError (List Piece)
  | _, _, _, [] => .ok []
  | pos, _, skip + 1, c :: t => piecesFrom (pos + 1) (some c) skip t
  | pos, previous, 0, c :: t =>
    match pieceStep pos previous (c :: t) with
    | .error e => .error e
    | .ok (piece, taken) => (piecesFrom (pos + 1) (some c) (taken - 1) t).map (piece :: ·)

def pieces (pattern : Text) : Except PatternError (List Piece) := piecesFrom 0 none 0 pattern

def inRanges (rs : List (Char × Char)) (c : Char) : Bool := rs.any fun (a, b) => a ≤ c && c ≤ b

def Piece.admits (c : Char) : Piece → Bool
  | .char d => c == d
  | .oneOf rs => inRanges rs c
  | .noneOf rs => !inRanges rs c
  | .anyChar | .anySequence | .anyDepth => true

/-- From every place of a list on, whether something holds there or later. -/
def anyFrom : List Bool → List Bool
  | [] => []
  | b :: bs =>
    let later := anyFrom bs
    (b || later.headD false) :: later

/--
Whether a pattern fits a name, and each tail of it down to the empty one. Every piece is tried once
at every tail, so stars do not multiply the work.
-/
def tailFits : List Piece → Text → List Bool
  | [], name => name.map (fun _ => false) ++ [true]
  | .anySequence :: ps, name => anyFrom (tailFits ps name)
  | p :: ps, name =>
    List.zipWith (fun c fit => p.admits c && fit) name (tailFits ps name).tail ++ [false]

/-- Whether a name fits a pattern. -/
def fits (ps : List Piece) (name : Text) : Bool := (tailFits ps name).headD false

/-- The one name that a pattern without wildcards fits. -/
def literal? : List Piece → Option Text
  | [] => some []
  | .char c :: ps => (literal? ps).map (c :: ·)
  | _ :: _ => none

/-- A part of a pattern between slashes. -/
inductive Segment where
  | anyDepth
  | name (ps : List Piece)
deriving DecidableEq, Repr

def segment (pattern : Text) : Except PatternError Segment :=
  (pieces pattern).map fun ps => if ps = [.anyDepth] then .anyDepth else .name ps

def segmentsOf : List Text → Except PatternError (List Segment)
  | [] => .ok []
  | part :: parts =>
    match segment part with
    | .error e => .error e
    | .ok s => (segmentsOf parts).map (s :: ·)

/-- Any depth twice is any depth. -/
def collapse : List Segment → List Segment
  | [] => []
  | s :: segs =>
    match s, collapse segs with
    | .anyDepth, .anyDepth :: rest => .anyDepth :: rest
    | s, rest => s :: rest

/-- The parts of a pattern; a slash at its end begins none. -/
def segments (pattern : Text) : Except PatternError (List Segment) :=
  let parts := pattern.splitOn '/'
  (segmentsOf (if parts.getLast? = some [] then parts.dropLast else parts)).map collapse

/-- A name in a directory; in the current one it stands alone. -/
def enter (dir name : Text) : Text :=
  if Path.parts dir = [.current] then name else Path.join dir name

/-- The ways from a directory to those below it that listing one after the other comes to. -/
def below (t : FileTree) (place : List Text) : List (List Text) :=
  t.entries.filterMap fun (p, n) =>
    let way := p.drop place.length
    let seen := (List.range way.length).all fun k => t.isReadableAt (place ++ way.take k)
    if n.isDirectory && p.take place.length = place && way ≠ [] && seen then some way else none

/-- A directory and all directories below it. -/
def directoriesFrom (t : FileTree) (dir : Text) : List Text :=
  match t.locate dir with
  | .ok place =>
    if t.isDirectoryAt place then dir :: (below t place).map (List.foldl enter dir) else []
  | .error _ => []

/-- The dots that every directory holds; only a pattern with a dot at its front can mean them. -/
def fittingDots (ps : List Piece) (dir : Text) : List Text :=
  if ps.head? = some (.char '.') then ([['.'], ['.', '.']].filter (fits ps)).map (Path.join dir)
  else []

/-- What a name pattern with wildcards stands for in a directory that can be listed, and more. -/
def fitting (t : FileTree) (ps : List Piece) (dir : Text) (more : List Text) :
    List (Except OsError Text) :=
  if t.isDirectory dir then
    match t.list dir with
    | .error e => [.error e]
    | .ok names => ((names.filter (fits ps)).map (enter dir) ++ more).map .ok
  else []

/-- What a name pattern stands for in a directory. -/
def pathsIn (t : FileTree) (ps : List Piece) (dir : Text) : List (Except OsError Text) :=
  match literal? ps with
  | some name =>
    let found := if name = ['.'] ∨ name = ['.', '.'] then t.isDirectory dir
      else (t.get? (enter dir name)).isSome
    if found then [.ok (enter dir name)] else []
  | none => fitting t ps dir (fittingDots ps dir)

/-- Goes on from each path that was found. -/
def thenFrom (found : List (Except OsError Text)) (next : Text → List (Except OsError Text)) :
    List (Except OsError Text) :=
  found.flatMap fun
    | .error e => [.error e]
    | .ok path => next path

/-- What a pattern stands for below a directory; a depth at its end stands for no file. -/
def expand (t : FileTree) : List Segment → Text → List (Except OsError Text)
  | .anyDepth :: .name ps :: segs, dir =>
    (directoriesFrom t dir).flatMap fun dir => thenFrom (fitting t ps dir []) fun path =>
      if segs = [] then [.ok path] else expand t segs path
  | .name ps :: segs, dir =>
    thenFrom (pathsIn t ps dir) fun path => if segs = [] then [.ok path] else expand t segs path
  | _, _ => []

/-- A pattern is searched for from the root if it begins with a slash, or else from where we are. -/
def search (pattern : Text) : Except PatternError (FileTree → List (Except OsError Text)) :=
  match pieces pattern with
  | .error e => .error e
  | .ok _ =>
    let (top, rest) := match pattern with
      | '/' :: rest => (['/'], rest)
      | _ => (['.'], pattern)
    (segments rest).map fun segs t =>
      if FileTree.endsWithSlash pattern then [] else expand t segs top

def expansion : Expansion := fun pattern => (search pattern).mapError PatternError.message

end LuaStubs.Glob
