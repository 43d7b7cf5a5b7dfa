import LuaStubs.Attribute.Reader
import LuaStubs.Comment.Basic
import LuaStubs.Doc.Basic
import LuaStubs.Token.Lexer

namespace LuaStubs

/-- The outcome of reading a comment, with the events up to the first error. -/
structure DocReading where
  result : Except DocError Doc
  events : List Event

namespace Doc

/-- The description in front of the first tag, then every tag with the text that follows it. -/
def sections : List Token → Text × List (Text × Text)
  | [] => ([], [])
  | t :: ts =>
    let (lead, parts) := sections ts
    if t.kind = .attribute then ([], (t.value, lead) :: parts) else (t.text ++ lead, parts)

/-- The span that is open at the end of some tokens: the one opened last. -/
def lastOpened : List Token → Option CodeSpan
  | [] => none
  | t :: ts =>
    match lastOpened ts, t.kind with
    | some span, _ => some span
    | none, .openCode span => some span
    | none, _ => none

/-- The span that is never closed, if there is one. -/
def unclosed? (tokens : List Token) : Option CodeSpan :=
  if tokens.getLast?.map Token.kind = some .unclosed then lastOpened tokens else none

/-- Attributes read in order, up to the first that is an error. -/
def readAttributes (pos : Position) :
    List (Text × Text) → Except DocError (List AttributeReading) × List Event
  | [] => (.ok [], [])
  | (tag, body) :: parts =>
    match Attribute.read tag body pos with
    | .error e => (.error e, [])
    | .ok r =>
      let (rs, events) := readAttributes pos parts
      (rs.map (r :: ·), r.events ++ events)

/-- One warning for all attributes of a comment that could be read otherwise. -/
def ambiguity (pos : Position) (rs : List AttributeReading) : List Event :=
  match (rs.filter (·.ambiguous)).length with
  | 0 => []
  | n + 1 => [.warning (.ambiguousType pos (n + 2))]

def readSections (c : Comment) (description : Text) (parts : List (Text × Text)) : DocReading :=
  match readAttributes c.start parts with
  | (.error e, events) => ⟨.error e, events⟩
  | (.ok rs, events) =>
    { result := .ok
        { description := description, attributes := rs.map (·.value)
          start := c.start, stop := c.stop }
      events := events ++ ambiguity c.start rs ++ [.note (.docRead c.start rs.length)] }

/-- Reads a comment; its last line is ended like every other. -/
def read (c : Comment) : DocReading :=
  let tokens := Token.lex (c.text ++ ['\n'])
  match unclosed? tokens with
  | some span => ⟨.error (.unclosedCode span c.start), []⟩
  | none =>
    let (description, parts) := sections tokens
    readSections c description parts

end Doc

end LuaStubs
