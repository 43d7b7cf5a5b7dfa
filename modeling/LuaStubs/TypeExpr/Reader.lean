import LuaStubs.Lua.Name
import LuaStubs.TypeExpr.Basic

namespace LuaStubs.TypeExpr

/-- A reader takes a value off the front of a text and hands back the rest. -/
abbrev Reader (α : Type) := Text → Option (α × Text)

/-- Takes the space that may stand between two parts of a type. -/
def skipSpace (nested : Bool) (t : Text) : Text :=
  if nested then Text.trimStart t else t.dropWhile Text.isBlank

/-- Takes one given character. -/
def expect (c : Char) : Text → Option Text
  | [] => none
  | d :: t => if c = d then some t else none

/-- The name of a field or a parameter: an identifier or three dots. -/
def slotName : Reader Text
  | '.' :: '.' :: '.' :: t => some ("...", t)
  | t => Lua.ident? t

def digits (t : Text) : Text × Text := (t.takeWhile Char.isDigit, t.dropWhile Char.isDigit)

def isHexDigit (c : Char) : Bool :=
  c.isDigit || ('a' ≤ c && c ≤ 'f') || ('A' ≤ c && c ≤ 'F')

/-- A part of a number that is only taken if digits follow its mark. -/
def markedDigits (mark : Text) (t : Text) : Text × Text :=
  match digits t with
  | ([], _) => ([], mark ++ t)
  | (ds, rest) => (mark ++ ds, rest)

def fraction : Text → Text × Text
  | '.' :: t => markedDigits ['.'] t
  | t => ([], t)

def exponent : Text → Text × Text
  | c :: t =>
    if c = 'e' || c = 'E' then
      match t with
      | '+' :: u => markedDigits [c, '+'] u
      | '-' :: u => markedDigits [c, '-'] u
      | _ => markedDigits [c] t
    else ([], c :: t)
  | [] => ([], [])

def decimal (t : Text) : Option (Text × Text) :=
  match digits t with
  | ([], _) => none
  | (ds, rest) =>
    let (f, rest) := fraction rest
    let (e, rest) := exponent rest
    some (ds ++ f ++ e, rest)

def hexadecimal : Reader Text
  | '0' :: x :: t =>
    if (x = 'x' || x = 'X') && t.takeWhile isHexDigit ≠ [] then
      some ('0' :: x :: t.takeWhile isHexDigit, t.dropWhile isHexDigit)
    else none
  | _ => none

def unsigned (t : Text) : Option (Text × Text) := hexadecimal t <|> decimal t

def number : Reader Text
  | '-' :: t => (unsigned t).map fun (n, rest) => ('-' :: n, rest)
  | t => unsigned t

/-- The rest of a quoted string, its closing quote included; a backslash guards what follows it. -/
def quotedTail (quote : Char) : Reader Text
  | [] => none
  | '\\' :: c :: t => (quotedTail quote t).map fun (s, rest) => ('\\' :: c :: s, rest)
  | c :: t =>
    if c = quote then some ([c], t) else (quotedTail quote t).map fun (s, rest) => (c :: s, rest)

/-- The marks after a type: `[]` makes an array of it, `?` lets it be absent. -/
def suffixes : TypeExpr → Text → TypeExpr × Text
  | t, '[' :: ']' :: rest => suffixes (.array t) rest
  | t, '?' :: rest => suffixes t.orNothing rest
  | t, rest => (t, rest)

/-- In brackets, a union takes the brackets as its own; any other type is wrapped. -/
def parenthesize : TypeExpr → TypeExpr
  | .union ts false => .union ts true
  | t => .union [t] true

/-- One item or more, separated by commas, up to `close`. -/
def items {α : Type} (item : Reader α) (close : Char) : Nat → Reader (List α)
  | 0, _ => none
  | bound + 1, t => do
    let (x, t) ← item t
    match Text.trimStart t with
    | ',' :: t =>
      let (xs, t) ← items item close bound (Text.trimStart t)
      some (x :: xs, t)
    | c :: t => if c = close then some ([x], t) else none
    | [] => none

/-- Any number of items up to `close`, after the opening bracket. -/
def bracketed {α : Type} (item : Reader α) (close : Char) (bound : Nat) : Reader (List α) :=
  fun t => match expect close (Text.trimStart t) with
    | some rest => some ([], rest)
    | none => items item close bound (Text.trimStart t)

/-- Whether space stands at the front that `skipSpace` would take. -/
def startsSpaced (nested : Bool) : Text → Bool
  | [] => false
  | c :: _ => if nested then Text.isSpace c else Text.isBlank c

/--
The further members of a union. A bar that no member follows is left where it is. The flag tells
whether space stood beside one of the bars.
-/
def alternatives (member : Reader TypeExpr) (nested : Bool) :
    Nat → Text → List TypeExpr × Bool × Text
  | 0, t => ([], false, t)
  | bound + 1, t =>
    match expect '|' (skipSpace nested t) with
    | none => ([], false, t)
    | some afterBar =>
      match member (skipSpace nested afterBar) with
      | none => ([], false, t)
      | some (m, rest) =>
        let (ms, spacedBar, rest) := alternatives member nested bound rest
        (m :: ms, startsSpaced nested t || startsSpaced nested afterBar || spacedBar, rest)

/-- A type and its alternatives, with the flag of `alternatives`. -/
def unionOf (member : Reader TypeExpr) (nested : Bool) (bound : Nat) :
    Reader (TypeExpr × Bool) := fun t => do
  let (first, t) ← member t
  match alternatives member nested bound t with
  | ([], _, rest) => some ((first, false), rest)
  | (others, spacedBar, rest) => some ((.union (first :: others) false, spacedBar), rest)

/-- A type inside brackets. -/
def inner (member : Bool → Reader TypeExpr) (bound : Nat) : Reader TypeExpr := fun t =>
  (unionOf (member true) true bound t).map fun ((type, _), rest) => (type, rest)

def tableField (type : Reader TypeExpr) : Reader (Text × TypeExpr) := fun t => do
  let (name, t) ← slotName t
  let t ← expect ':' (Text.trimStart t)
  let (u, t) ← type (Text.trimStart t)
  some ((name, u), t)

def param (type : Reader TypeExpr) : Reader (Text × Option TypeExpr) := fun t => do
  let (name, t) ← slotName t
  match expect ':' (Text.trimStart t) with
  | none => some ((name, none), Text.trimStart t)
  | some t =>
    let (u, t) ← type (Text.trimStart t)
    some ((name, some u), t)

/-- The key and value of a dictionary, after its `[`. -/
def dictionaryTail (type : Reader TypeExpr) : Reader TypeExpr := fun t => do
  let (key, t) ← type (Text.trimStart t)
  let t ← expect ']' (Text.trimStart t)
  let t ← expect ':' (Text.trimStart t)
  let (value, t) ← type (Text.trimStart t)
  let t ← expect '\x7d' (Text.trimStart t)
  some (.dictionary key value, t)

/-- What follows an opening brace: the key of a dictionary or the fields of a table. -/
def braced (type : Reader TypeExpr) (bound : Nat) : Reader TypeExpr := fun t =>
  match expect '[' (Text.trimStart t) with
  | some t => dictionaryTail type t
  | none => (bracketed (tableField type) '\x7d' bound t).map fun (fs, rest) => (.table fs, rest)

/-- The type that a function returns; a colon that no type follows is left where it is. -/
def returnType (member : Reader TypeExpr) (nested : Bool) (t : Text) : Option TypeExpr × Text :=
  match expect ':' t with
  | none => (none, t)
  | some afterColon =>
    match member (skipSpace nested afterColon) with
    | none => (none, t)
    | some (u, rest) => (some u, rest)

/-- What follows a name: the parameters of a function, the arguments of a generic, or nothing. -/
def namedTail (member : Bool → Reader TypeExpr) (nested : Bool) (bound : Nat) (name : Text) :
    Reader TypeExpr := fun t =>
  if name = "true" ∨ name = "false" ∨ name = "nil" then some (.literal name, t)
  else match t with
    | '(' :: rest =>
      if name = "fun" then do
        let (ps, rest) ← bracketed (param (inner member bound)) ')' bound rest
        let (r, rest) := returnType (member nested) nested rest
        some (.function ps r, rest)
      else some (.named name [], t)
    | '<' :: rest => (bracketed (inner member bound) '>' bound rest).map fun (ts, rest) =>
        (.named name ts, rest)
    | _ => some (.named name [], t)

/-- A type without marks after it. -/
def primary (member : Bool → Reader TypeExpr) (nested : Bool) (bound : Nat) :
    Reader TypeExpr := fun t =>
  match t with
  | '(' :: rest => do
    let (u, rest) ← inner member bound (Text.trimStart rest)
    let rest ← expect ')' (Text.trimStart rest)
    some (parenthesize u, rest)
  | '[' :: rest => (bracketed (inner member bound) ']' bound rest).map fun (ts, rest) =>
      (.tuple ts, rest)
  | '\x7b' :: rest => braced (inner member bound) bound rest
  | '\x22' :: rest => (quotedTail '\x22' rest).map fun (s, rest) => (.literal ('\x22' :: s), rest)
  | '\x27' :: rest => (quotedTail '\x27' rest).map fun (s, rest) => (.literal ('\x27' :: s), rest)
  | c :: _ =>
    if c = '-' || c.isDigit then (number t).map fun (n, rest) => (.literal n, rest)
    else do
      let (name, rest) ← Lua.dotted? t
      namedTail member nested bound name rest
  | [] => none

/-- A member of a union, with the marks after it, nested no deeper than the bound. -/
def member : Nat → Bool → Reader TypeExpr
  | 0, _, _ => none
  | bound + 1, nested, t =>
    (primary (member bound) nested bound t).map fun (u, rest) => suffixes u rest

/-- A type that was read, the text after it, and whether the description could begin earlier. -/
structure Reading where
  type : TypeExpr
  rest : Text
  ambiguous : Bool
deriving DecidableEq, Repr

/-- Reads the longest type at the front of a text. -/
def read? (t : Text) : Option Reading :=
  (unionOf (member (t.length + 1) false) false (t.length + 1) t).map
    fun ((type, spacedBar), rest) => ⟨type, rest, spacedBar⟩

/-- The number of bytes that a reading of `t` has taken. -/
def Reading.bytes (r : Reading) (t : Text) : Nat := Text.byteLength t - Text.byteLength r.rest

end LuaStubs.TypeExpr
