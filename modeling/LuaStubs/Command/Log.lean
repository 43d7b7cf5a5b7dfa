import LuaStubs.Command.Options
import LuaStubs.Text.Quoted
import LuaStubs.Warning

namespace LuaStubs

inductive Level where
  | error
  | warning
  | info
  | debug
deriving DecidableEq, Repr

/-- Levels are as wide as the widest of them. -/
def Level.label : Level → Text
  | .error => "ERROR"
  | .warning => " WARN"
  | .info => " INFO"
  | .debug => "DEBUG"

/-- A message and the named values that belong to it. -/
structure Record where
  level : Level
  message : Text
  values : List (Text × Text) := []
deriving DecidableEq, Repr

namespace Record

/-- A control character that a terminal could obey is shown by its number. -/
def shownChar (c : Char) : Text :=
  if c.toNat = 0x07 then "\\x07"
  else if c.toNat = 0x08 then "\\x08"
  else if c.toNat = 0x0C then "\\x0c"
  else if c.toNat = 0x1B then "\\x1b"
  else if c.toNat = 0x7F then "\\x7f"
  else if 0x80 ≤ c.toNat ∧ c.toNat ≤ 0x9F then Text.charNumber c
  else [c]

def line (r : Record) : Text :=
  r.level.label ++ [' '] ++ r.message.flatMap shownChar ++
  (r.values.flatMap fun (name, value) => ' ' :: name ++ ['='] ++ value) ++ ['\n']

def ofNote : Note → Record
  | .commentsFound n => ⟨.debug, "extracted doc comments", [("count", Text.ofNat n)]⟩
  | .fileScanned path n =>
    ⟨.debug, "extracted comments", [("path", Text.quoted path), ("comments", Text.ofNat n)]⟩
  | .docRead p n => ⟨.debug, "parsed doc", [("at", p.text), ("attributes", Text.ofNat n)]⟩
  | .typeKept t => ⟨.debug, "keeping unparsed type verbatim", [("ty", Text.quoted t)]⟩
  | .fieldsFolded table p =>
    ⟨.debug, "folded fields into enum", [("table", table), ("at", p.text)]⟩
  | .docMerged table p => ⟨.debug, "merged doc into table", [("table", table), ("at", p.text)]⟩
  | .docsProcessed n m =>
    ⟨.debug, "processed docs", [("input", Text.ofNat n), ("output", Text.ofNat m)]⟩

def ofEvent : Event → Record
  | .warning w => ⟨.debug, "diagnostic", [("warning", w.message)]⟩
  | .note n => ofNote n

/-- Whether a run with some options shows a record. -/
def isShown (o : Options) (r : Record) : Bool :=
  match r.level with
  | .error => true
  | .warning | .info => !o.quiet
  | .debug => o.verbose

end Record

end LuaStubs
