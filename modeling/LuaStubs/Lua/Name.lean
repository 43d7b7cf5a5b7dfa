import LuaStubs.Text.Basic

namespace LuaStubs.Lua

def isIdentStart (c : Char) : Bool := c.isAlpha || c == '_'

def isIdentChar (c : Char) : Bool := c.isAlphanum || c == '_'

/-- The identifier at the front of a text, and what follows it. -/
def ident? : Text → Option (Text × Text)
  | [] => none
  | c :: t =>
    if isIdentStart c then some (c :: t.takeWhile isIdentChar, t.dropWhile isIdentChar) else none

/-- The rest of a dotted path that an identifier has begun. -/
def dottedTail : Text → Text × Text
  | '.' :: c :: t =>
    if isIdentStart c then
      let (path, rest) := dottedTail t
      ('.' :: c :: path, rest)
    else ([], '.' :: c :: t)
  | c :: t =>
    if isIdentChar c then
      let (path, rest) := dottedTail t
      (c :: path, rest)
    else ([], c :: t)
  | [] => ([], [])

/-- The longest dotted path of identifiers at the front of a text, and what follows it. -/
def dotted? : Text → Option (Text × Text)
  | [] => none
  | c :: t =>
    if isIdentStart c then
      let (path, rest) := dottedTail t
      some (c :: path, rest)
    else none

/-- A text that is an identifier. -/
def isIdent (t : Text) : Bool :=
  match ident? t with
  | some (_, []) => true
  | _ => false

/-- A text that is identifiers joined by dots. -/
def isDotted (t : Text) : Bool :=
  match dotted? t with
  | some (_, []) => true
  | _ => false

/-- The reserved words of Lua 5.1. -/
def keywords : List Text :=
  ["and", "break", "do", "else", "elseif", "end", "false", "for", "function", "if", "in", "local",
    "nil", "not", "or", "repeat", "return", "then", "true", "until", "while"].map String.toList

def isKeyword (t : Text) : Bool := keywords.contains t

/-- A text as a bracketed key. -/
def bracketed (raw : Text) : Text := '[' :: raw ++ [']']

/-- A name in an expression; after another name it needs a dot, and a reserved word a bracket. -/
def nameKey (first : Bool) (name : Text) : Text :=
  if isKeyword name then bracketed ('\x22' :: name ++ ['\x22'])
  else if first then name
  else '.' :: name

/-- A dotted path as an expression: `a.b`, `a["end"].c`. -/
def pathExpr : List Text → Text
  | [] => []
  | name :: names => nameKey true name ++ (names.map (nameKey false)).flatten

/-- The name of a method: `a.b:c`. -/
def methodExpr (names : List Text) : Text :=
  match names.getLast? with
  | none => []
  | some last =>
    if names.dropLast = [] then last else pathExpr names.dropLast ++ ":" ++ last

end LuaStubs.Lua
