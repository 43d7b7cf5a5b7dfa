import LuaStubs.Command.FileTree
import LuaStubs.Command.Log
import LuaStubs.Library
import LuaStubs.SourceFile

namespace LuaStubs

/-- Why a run fails. -/
inductive Failure where
  | stdinNotText
  | stdinNotScanned
  | noOutput
  | badOutput (path : Text) (error : OsError)
  | badPattern (pattern cause : Text)
  | notListed (path : Text) (error : OsError)
  | notText (path : Text)
  | notRead (path : Text) (error : OsError)
  | notWritten (path : Text) (error : OsError)
  | notScanned (paths : List Text)
deriving DecidableEq, Repr

def Failure.message : Failure → Text
  | .stdinNotText => "failed to read stdin"
  | .stdinNotScanned => "failed to extract docs from stdin"
  | .noOutput => "--output is required when files are given"
  | .badOutput path _ => "failed to create output directory: " ++ path
  | .badPattern pattern _ => "invalid glob pattern: " ++ pattern
  | .notListed path _ => "failed to read directory: " ++ path
  | .notText path | .notRead path _ => "failed to read " ++ path
  | .notWritten path _ => "failed to write " ++ path
  | .notScanned paths => "failed to extract docs from: " ++ List.intercalate ", " paths

def Failure.cause? : Failure → Option Text
  | .stdinNotText | .notText _ => some "stream did not contain valid UTF-8"
  | .stdinNotScanned | .noOutput | .notScanned _ => none
  | .badOutput _ e | .notListed _ e | .notRead _ e | .notWritten _ e => some e.message
  | .badPattern _ cause => some cause

def Failure.report (f : Failure) : Text :=
  "Error: " ++ f.message ++ "\n" ++
  match f.cause? with
  | some cause => "\nCaused by:\n    " ++ cause ++ "\n"
  | none => []

/-- The result of a stage of a run, after the records it has made. -/
structure Stage (α : Type) where
  records : List Record
  result : Except Failure α

namespace Stage

def done {α : Type} (a : α) : Stage α := ⟨[], .ok a⟩

def fail {α : Type} (f : Failure) : Stage α := ⟨[], .error f⟩

/-- Goes on after a stage unless it failed. -/
def andThen {α β : Type} (s : Stage α) (next : α → Stage β) : Stage β :=
  match s.result with
  | .error f => ⟨s.records, .error f⟩
  | .ok a => ⟨s.records ++ (next a).records, (next a).result⟩

/-- A stage for each of some values, up to the first that fails. -/
def each {α β : Type} (f : α → Stage β) : List α → Stage (List β)
  | [] => done []
  | a :: as => (f a).andThen fun b => (each f as).andThen fun bs => done (b :: bs)

end Stage

/--
How patterns are expanded: why a text is no pattern, or the paths that are found for it in a tree,
with an error where nothing could be looked up. Whether a text is a pattern depends on nothing else.
-/
abbrev Expansion := Text → Except Text (FileTree → List (Except OsError Text))

namespace Run

/-- Extensions of source files. -/
def sourceExtensions : List Text :=
  ["cpp", "cc", "cxx", "c", "h", "hpp", "hh", "hxx"].map String.toList

def isSource (path : Text) : Bool :=
  match Path.extension? path with
  | some e => sourceExtensions.contains e
  | none => false

/-- The source files in a directory. -/
def sourcesIn (t : FileTree) (dir : Text) : Except OsError (List Text) :=
  (t.list dir).map fun names =>
    (names.map (Path.join dir)).filter fun p => t.isFile p && isSource p

/-- The files among the paths that are found for a pattern. -/
def filesAmong (t : FileTree) (found : List (Except OsError Text)) : List Text :=
  (found.filterMap Except.toOption).filter t.isFile

/-- The files that an input stands for: itself, the sources in it, or what fits it as a pattern. -/
def filesOf (expand : Expansion) (t : FileTree) (input : Text) : Stage (List Text) :=
  if t.isFile input then .done [input]
  else if t.isDirectory input then
    match sourcesIn t input with
    | .error e => .fail (.notListed input e)
    | .ok files => .done files
  else match expand input with
    | .error cause => .fail (.badPattern input cause)
    | .ok find =>
      match filesAmong t (find t) with
      | [] => ⟨[⟨.warning, "no files matched: " ++ input, []⟩], .ok []⟩
      | files => .done files

/-- The files of all inputs, in order and each once. -/
def resolve (expand : Expansion) (t : FileTree) (inputs : List Text) : Stage (List Text) :=
  (Stage.each (filesOf expand t) inputs).andThen fun files => .done (Path.sorted files.flatten)

def readText (t : FileTree) (path : Text) : Except Failure Text :=
  match t.read path with
  | .error e => .error (.notRead path e)
  | .ok (.binary _) => .error (.notText path)
  | .ok (.text content) => .ok content

/-- What reading a source told, and the verdict on it. -/
def fileRecords (path : Text) (file : SourceFile) : List Record :=
  let problems := file.warnings.length + file.errors.length
  file.events.map Record.ofEvent ++
  file.warnings.map (fun w => ⟨.warning, path ++ ": " ++ w.message, []⟩) ++
  file.errors.map (fun e => ⟨.warning, path ++ ": " ++ e.message, []⟩) ++
  [if problems = 0 then ⟨.info, "✔ " ++ path, []⟩
    else ⟨.warning, "⚠ " ++ path ++ " (" ++ Text.ofNat problems ++ " problem(s))", []⟩]

/-- The docs of a source; none if it could not be scanned. -/
def extract (path content : Text) : List Record × Option (List Doc) :=
  match SourceFile.read content path with
  | .error e => ([⟨.error, "✘ " ++ path ++ ": " ++ e.message, []⟩], none)
  | .ok file => (fileRecords path file, some file.docs)

/-- The docs of an input, under the name by which its library shows it. -/
def readInput (t : FileTree) (path : Text) : Stage (Text × Option (List Doc)) :=
  match readText t path with
  | .error f => .fail f
  | .ok content =>
    let source := Text.replaceChar '\\' '/' path
    let (records, docs) := extract source content
    ⟨records, .ok (source, docs)⟩

/-- A library, and what making it told. -/
def library (repo : Option Text) (sources : List Text) (ds : List Doc) : List Record × Text :=
  ((Library.events repo ds).map Record.ofEvent ++
    (Library.conflicts ds).map (fun w => ⟨.warning, w.message, []⟩),
    Library.render repo sources ds)

/-- A library to be written: its path, the sources that it names, and their docs. -/
structure Target where
  path : Text
  sources : List Text
  docs : List Doc

/-- The libraries of some inputs: one in all if it has a name, or else one for each. -/
def targets (output : Text) (file : Option Text) (inputs : List (Text × List Doc)) :
    List Target :=
  match file with
  | some name => [⟨Path.join output name, inputs.map Prod.fst, inputs.flatMap Prod.snd⟩]
  | none => inputs.map fun (source, ds) =>
      ⟨Path.join output ((Path.stem? source).getD source ++ ".lua"), [source], ds⟩

/-- Writes libraries up to the first that cannot be written. -/
def writeAll (repo : Option Text) (t : FileTree) :
    List Target → List Record × FileTree × Option Failure
  | [] => ([], t, none)
  | target :: rest =>
    let (records, lua) := library repo target.sources target.docs
    match t.write target.path lua with
    | .error e => (records, t, some (.notWritten target.path e))
    | .ok t =>
      let (more, t, failure) := writeAll repo t rest
      (records ++ ⟨.info, "wrote " ++ target.path, []⟩ :: more, t, failure)

/-- How a run ends. -/
structure Outcome where
  stdout : Text := []
  records : List Record := []
  failure : Option Failure := none
  tree : FileTree

namespace Outcome

def exitCode (r : Outcome) : Nat := if r.failure.isSome then 1 else 0

/-- The records that the options ask for, and then the failure. -/
def stderr (o : Options) (r : Outcome) : Text :=
  (r.records.filter (Record.isShown o)).flatMap Record.line ++
  ((r.failure.map Failure.report).getD [])

end Outcome

def onStdin (o : Options) (stdin : Content) (t : FileTree) : Outcome :=
  match stdin with
  | .binary _ => { failure := some .stdinNotText, tree := t }
  | .text content =>
    match extract "stdin" content with
    | (records, none) => { records := records, failure := some .stdinNotScanned, tree := t }
    | (records, some ds) =>
      let (more, lua) := library o.repo [] ds
      { stdout := lua, records := records ++ more, tree := t }

/-- The inputs of a run with their docs. -/
def readInputs (expand : Expansion) (t : FileTree) (inputs : List Text) :
    Stage (List (Text × Option (List Doc))) :=
  (resolve expand t inputs).andThen (Stage.each (readInput t))

/-- The inputs that could be scanned. -/
def scanned (inputs : List (Text × Option (List Doc))) : List (Text × List Doc) :=
  inputs.filterMap fun (source, ds) => ds.map (source, ·)

/-- The inputs that could not be scanned. -/
def unscanned (inputs : List (Text × Option (List Doc))) : List Text :=
  (inputs.filter fun (_, ds) => ds.isNone).map Prod.fst

def writeInputs (o : Options) (output : Text) (t : FileTree)
    (inputs : List (Text × Option (List Doc))) : List Record × FileTree × Option Failure :=
  match writeAll o.repo t (targets output o.file (scanned inputs)) with
  | (records, t, none) =>
    (records, t, if unscanned inputs = [] then none else some (.notScanned (unscanned inputs)))
  | r => r

def onFiles (expand : Expansion) (o : Options) (t : FileTree) : Outcome :=
  match o.output with
  | none => { failure := some .noOutput, tree := t }
  | some output =>
    match t.ensurePath output with
    | .error (t, e) => { failure := some (.badOutput output e), tree := t }
    | .ok t =>
      match readInputs expand t o.inputs with
      | ⟨records, .error f⟩ => { records := records, failure := some f, tree := t }
      | ⟨records, .ok inputs⟩ =>
        let (more, t, failure) := writeInputs o output t inputs
        { records := records ++ more, failure := failure, tree := t }

end Run

def Options.run (o : Options) (expand : Expansion) (stdin : Content) (t : FileTree) :
    Run.Outcome :=
  if o.inputs = [] then Run.onStdin o stdin t else Run.onFiles expand o t

/-- What the caller of the tool sees. -/
structure Response where
  exitCode : Nat
  stdout : Text
  stderr : Text
  tree : FileTree

/-- How the tool is called. -/
def usageLines : List String :=
  ["Usage: lua-doc-extractor [OPTIONS] [FILES]...",
    "",
    "Options:",
    "  -o, --output <DIR>  Output directory, required when files are given (also --dest)",
    "      --file <NAME>   Write one library with this name instead of one for each input",
    "      --repo <URL>    Repository root for links to the sources",
    "  -v, --verbose       Show debug output",
    "  -q, --quiet         Only show errors",
    "  -h, --help          Print help",
    "  -V, --version       Print version"]

def usage : Text := usageLines.flatMap fun line => line.toList ++ ['\n']

def Request.answer (r : Request) (expand : Expansion) (stdin : Content) (t : FileTree) : Response :=
  match r with
  | .refuse e => ⟨2, [], e.message ++ "\n", t⟩
  | .showVersion => ⟨0, Library.generator ++ "\n", [], t⟩
  | .showHelp => ⟨0, usage, [], t⟩
  | .run o =>
    let outcome := o.run expand stdin t
    ⟨outcome.exitCode, outcome.stdout, outcome.stderr o, outcome.tree⟩

end LuaStubs
