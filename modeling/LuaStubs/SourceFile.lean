import LuaStubs.Comment.Scanner
import LuaStubs.Doc.Reader

namespace LuaStubs

/-- What the doc comments of one source file say. -/
structure SourceFile where
  docs : List Doc
  errors : List DocError
  events : List Event

namespace SourceFile

def ofReadings (path : Text) : List DocReading → SourceFile
  | [] => ⟨[], [], []⟩
  | r :: rs =>
    let rest := ofReadings path rs
    match r.result with
    | .ok d => ⟨{ d with path := some path } :: rest.docs, rest.errors, r.events ++ rest.events⟩
    | .error e => ⟨rest.docs, e :: rest.errors, r.events ++ rest.events⟩

/-- Reads the doc comments of a source; one that cannot be read does not spoil the others. -/
def read (source path : Text) : Except ScanError SourceFile :=
  (Comment.scan source).map fun (comments, warnings) =>
    let file := ofReadings path (comments.map Doc.read)
    { file with
      events := warnings.map .warning ++
        [.note (.commentsFound comments.length), .note (.fileScanned path comments.length)] ++
        file.events }

def warnings (f : SourceFile) : List Warning := Event.warnings f.events

end SourceFile

end LuaStubs
