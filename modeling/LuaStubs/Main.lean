import LuaStubs.Command.Glob

namespace LuaStubs.Main

partial def readBytes (stream : IO.FS.Stream) (before : ByteArray) : IO ByteArray := do
  let chunk ← stream.read 65536
  if chunk.isEmpty then return before else readBytes stream (before ++ chunk)

def readStdin : IO Content := do
  return Content.ofBytes (← readBytes (← IO.getStdin) .empty)

/-- What stands for the content of a file until it is known that the run reads it. -/
def unread : Content := .binary []

def lookForFile (path : String) : IO (Option Node) := do
  try
    discard <| IO.FS.Handle.mk path .read
    return some (.file true unread)
  catch
    | .permissionDenied .. => return some (.file false unread)
    | _ => return none

/-- What is at a path, and the names in it if it is a directory. -/
def look (path : String) : IO (Option Node × List Text) := do
  try
    let entries ← ((← IO.currentDir) / path).readDir
    return (some (.directory true), entries.toList.map (·.fileName.toList))
  catch
    | .permissionDenied .. => return (some (.directory false), [])
    | .noFileOrDirectory .. => return (none, [])
    | _ => return (← lookForFile path, [])

/-- Adds what is at a path to a tree, and what is below it down to some depth. -/
partial def load (depth : Option Nat) (t : FileTree) (path : Text) : IO FileTree := do
  let (found, names) ← look (String.ofList path)
  let t := match found with
    | some node => t.plant path node
    | none => t
  if depth = some 0 then return t
  names.foldlM (fun t name => load (depth.map (· - 1)) t (Path.join path name)) t

def isWild (part : Text) : Bool := part.any fun c => c = '?' || c = '*' || c = '['

/-- Adds all that an input can stand for; a pattern fits what is below the parts before a wildcard. -/
def addInput (t : FileTree) (input : Text) : IO FileTree := do
  let parts := input.splitOn '/'
  let top := parts.takeWhile (!isWild ·)
  let depth := if parts.contains ['*', '*'] then none else some (parts.length - top.length)
  let t ← load (some 1) t input
  if top = parts then return t
  else if top = [] then load depth t ['.']
  else load depth t (['/'].intercalate top ++ ['/'])

/-- Adds the directories on a path that are there. -/
def addAlong (t : FileTree) (path : Text) : IO FileTree :=
  let parts := path.splitOn '/'
  (List.range parts.length).foldlM
    (fun t k => load (some 0) t (['/'].intercalate (parts.take (k + 1)))) t

def addOutput (t : FileTree) (o : Options) : IO FileTree := do
  match o.output with
  | none => return t
  | some output =>
    let t ← addAlong t output
    let t ← load (some 1) t output
    match o.file with
    | some name => addAlong t (Path.join output name)
    | none => return t

def readFile (t : FileTree) (path : Text) : IO FileTree := do
  try
    let bytes ← IO.FS.readBinFile (String.ofList path)
    return t.plant path (.file true (Content.ofBytes bytes))
  catch _ => return t.plant path (.file false unread)

/-- The files that a run can come to see, with the contents of those that it reads. -/
def survey (o : Options) : IO FileTree := do
  let t ← addOutput (← o.inputs.foldlM addInput {}) o
  let made := match o.output with
    | some output => (t.ensurePath output).toOption.getD t
    | none => t
  match (Run.resolve Glob.expansion made o.inputs).result with
  | .ok paths => paths.foldlM readFile t
  | .error _ => return t

def pathOf (place : List Text) : String := String.ofList (['/'].intercalate place)

/-- Carries out what a run has done to its files. -/
def store (old new : FileTree) : IO Unit := do
  for place in new.newDirectories old do
    IO.FS.createDirAll (pathOf place)
  for (place, content) in new.newFiles old do
    match content with
    | .text t => IO.FS.writeFile (pathOf place) (String.ofList t)
    | .binary bytes => IO.FS.writeBinFile (pathOf place) ⟨bytes.toArray⟩

def run (args : List String) : IO UInt32 := do
  let request := Request.ofArgs (args.map String.toList)
  let (stdin, tree) ← match request with
    | .run o => if o.inputs = [] then pure (← readStdin, {}) else pure (.text [], ← survey o)
    | _ => pure (.text [], {})
  let response := request.answer Glob.expansion stdin tree
  store tree response.tree
  (← IO.getStdout).putStr (String.ofList response.stdout)
  (← IO.getStderr).putStr (String.ofList response.stderr)
  return response.exitCode.toUInt32

end LuaStubs.Main

def main (args : List String) : IO UInt32 := LuaStubs.Main.run args
