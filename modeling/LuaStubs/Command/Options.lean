import LuaStubs.Text.Basic

namespace LuaStubs

structure Options where
  inputs : List Text := []
  output : Option Text := none
  file : Option Text := none
  repo : Option Text := none
  verbose : Bool := false
  quiet : Bool := false
deriving DecidableEq, Repr

/-- Why arguments do not make up options. -/
inductive UsageError where
  | unknownOption
  | missingValue
  | unexpectedValue
  | repeatedOption
  | contradiction
deriving DecidableEq, Repr

def UsageError.message : UsageError → Text
  | .unknownOption => "error: unknown option"
  | .missingValue => "error: a value is missing"
  | .unexpectedValue => "error: an option takes no value"
  | .repeatedOption => "error: an option is given more than once"
  | .contradiction => "error: --quiet and --verbose exclude each other"

/-- What a run is asked to do. -/
inductive Request where
  | run (options : Options)
  | showVersion
  | showHelp
  | refuse (error : UsageError)
deriving DecidableEq, Repr

namespace Options

inductive Flag where
  | verbose
  | quiet
  | version
  | help
deriving DecidableEq, Repr

/-- Options that take a value. -/
inductive Setting where
  | output
  | file
  | repo
deriving DecidableEq, Repr

inductive Switch where
  | flag (f : Flag)
  | setting (s : Setting)
deriving DecidableEq, Repr

def longSwitch? (name : Text) : Option Switch :=
  if name = "verbose" then some (.flag .verbose)
  else if name = "quiet" then some (.flag .quiet)
  else if name = "version" then some (.flag .version)
  else if name = "help" then some (.flag .help)
  else if name = "output" ∨ name = "dest" then some (.setting .output)
  else if name = "file" then some (.setting .file)
  else if name = "repo" then some (.setting .repo)
  else none

def shortSwitch? (c : Char) : Option Switch :=
  if c = 'v' then some (.flag .verbose)
  else if c = 'q' then some (.flag .quiet)
  else if c = 'V' then some (.flag .version)
  else if c = 'h' then some (.flag .help)
  else if c = 'o' then some (.setting .output)
  else none

/-- A flag can be given once; one that asks for information ends the reading. -/
def applyFlag (o : Options) : Flag → Except Request Options
  | .verbose =>
    if o.verbose then .error (.refuse .repeatedOption) else .ok { o with verbose := true }
  | .quiet => if o.quiet then .error (.refuse .repeatedOption) else .ok { o with quiet := true }
  | .version => .error .showVersion
  | .help => .error .showHelp

/-- A value can be given once; that of a directory is not empty. -/
def applySetting (o : Options) (s : Setting) (value : Text) : Except Request Options :=
  match s with
  | .output =>
    if o.output.isSome then .error (.refuse .repeatedOption)
    else if value = [] then .error (.refuse .missingValue)
    else .ok { o with output := some value }
  | .file =>
    if o.file.isSome then .error (.refuse .repeatedOption) else .ok { o with file := some value }
  | .repo =>
    if o.repo.isSome then .error (.refuse .repeatedOption) else .ok { o with repo := some value }

/-- Reads short switches after a hyphen; the last may wait for its value in the next argument. -/
def applyCluster (o : Options) : Text → Except Request (Options × Option Setting)
  | [] => .ok (o, none)
  | c :: t =>
    match shortSwitch? c with
    | none => .error (.refuse .unknownOption)
    | some (.flag f) =>
      match o.applyFlag f with
      | .error r => .error r
      | .ok o => o.applyCluster t
    | some (.setting s) =>
      match t with
      | [] => .ok (o, some s)
      | '=' :: value => (o.applySetting s value).map (·, none)
      | value => (o.applySetting s value).map (·, none)

/-- Reads a long switch after two hyphens. -/
def applyLong (o : Options) (t : Text) : Except Request (Options × Option Setting) :=
  let name := t.takeWhile (· != '=')
  match longSwitch? name, t.drop name.length with
  | none, _ => .error (.refuse .unknownOption)
  | some (.flag f), [] => (o.applyFlag f).map (·, none)
  | some (.flag _), _ :: _ => .error (.refuse .unexpectedValue)
  | some (.setting s), [] => .ok (o, some s)
  | some (.setting s), _ :: value => (o.applySetting s value).map (·, none)

/-- An argument that could only be a value. -/
def isValue (arg : Text) : Bool := arg.head? ≠ some '-' || arg = ['-']

/-- Reads arguments in order, where a setting may wait for its value. -/
def applyArgs (o : Options) : Option Setting → List Text → Except Request Options
  | none, [] => .ok o
  | some _, [] => .error (.refuse .missingValue)
  | some s, arg :: args =>
    if isValue arg then
      match o.applySetting s arg with
      | .error r => .error r
      | .ok o => o.applyArgs none args
    else .error (.refuse .missingValue)
  | none, arg :: args =>
    if isValue arg then { o with inputs := o.inputs ++ [arg] }.applyArgs none args
    else if arg = ['-', '-'] then .ok { o with inputs := o.inputs ++ args }
    else
      match (match arg with
        | '-' :: '-' :: t => o.applyLong t
        | _ => o.applyCluster (arg.drop 1)) with
      | .error r => .error r
      | .ok (o, waiting) => o.applyArgs waiting args

end Options

/-- What some arguments ask for. -/
def Request.ofArgs (args : List Text) : Request :=
  match Options.applyArgs {} none args with
  | .error r => r
  | .ok o => if o.verbose && o.quiet then .refuse .contradiction else .run o

end LuaStubs
