import LuaStubs.Position

namespace LuaStubs

inductive Warning where
  | strayClose (pos : Position)
  | nestedOpen (pos : Position)
  | unclosedComment (start : Position)
  | ambiguousType (pos : Position) (candidates : Nat)
  | missingName (tag : Text) (pos : Position)
  | missingType (tag name : Text) (pos : Position)
  | conflictingDeclarations (path : Option Text) (pos : Position) (attributes : List Text)
      (declarations : List Text)
deriving DecidableEq, Repr

def Warning.message : Warning → Text
  | .strayClose p => p.text ++ ": comment close marker outside of a comment"
  | .nestedOpen p => p.text ++ ": doc comment opened inside another doc comment"
  | .unclosedComment p => p.text ++ ": doc comment is never closed"
  | .ambiguousType p n =>
    p.text ++ ": ambiguous parse (" ++ Text.ofNat n ++ " candidates), using the first"
  | .missingName tag p => p.text ++ ": @" ++ tag ++ " is missing its name"
  | .missingType tag name p => p.text ++ ": @" ++ tag ++ " " ++ name ++ " is missing its type"
  | .conflictingDeclarations path p attributes declarations =>
    (match path with
      | some path => path ++ ":" ++ p.text
      | none => p.text) ++
    ": multiple declarations generated:\n - " ++ List.intercalate "\n - " attributes ++ "\n" ++
    List.intercalate "\n==========\n" declarations

/-- The warnings raised so far, oldest first. -/
structure Diagnostics where
  warnings : List Warning := []

namespace Diagnostics

def warn (d : Diagnostics) (w : Warning) : Diagnostics := ⟨d.warnings ++ [w]⟩

/-- Hands the warnings over and starts again with none. -/
def drain (d : Diagnostics) : List Warning × Diagnostics := (d.warnings, ⟨[]⟩)

def size (d : Diagnostics) : Nat := d.warnings.length

def isEmpty (d : Diagnostics) : Bool := d.warnings.isEmpty

end Diagnostics

/-- Code inside free text: a fenced block or an inline span. -/
inductive CodeSpan where
  | block
  | inline
deriving DecidableEq, Repr

/-- The backticks that open and close a span. -/
def CodeSpan.fence : CodeSpan → Text
  | .block => "```"
  | .inline => "`"

/-- Why a comment is not read. -/
inductive DocError where
  | unclosedCode (span : CodeSpan) (pos : Position)
  | invalidName (tag name : Text) (pos : Position)
deriving DecidableEq, Repr

def DocError.message : DocError → Text
  | .unclosedCode span p => p.text ++ ": unclosed code span opened by `" ++ span.fence ++ "`"
  | .invalidName tag name p => p.text ++ ": invalid name `" ++ name ++ "` for @" ++ tag

/-- What a trace of the work tells besides warnings. -/
inductive Note where
  | commentsFound (count : Nat)
  | fileScanned (path : Text) (comments : Nat)
  | docRead (pos : Position) (attributes : Nat)
  | typeKept (type : Text)
  | fieldsFolded (table : Text) (pos : Position)
  | docMerged (table : Text) (pos : Position)
  | docsProcessed (input output : Nat)
deriving DecidableEq, Repr

inductive Event where
  | warning (w : Warning)
  | note (n : Note)
deriving DecidableEq, Repr

/-- The warnings among some events, in order. -/
def Event.warnings (events : List Event) : List Warning :=
  events.filterMap fun
    | .warning w => some w
    | .note _ => none

end LuaStubs
