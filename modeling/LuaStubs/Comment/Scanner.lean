import LuaStubs.Comment.Basic
import LuaStubs.Text.Lines
import LuaStubs.Warning

namespace LuaStubs

/-- What the scanner is inside of. -/
inductive Mode where
  | code
  | docBlock
  | docLine
  | plainBlock
deriving DecidableEq, Repr

/-- A comment was left that had not been entered. -/
inductive ScanError where
  | underflow (pos : Position)
deriving DecidableEq, Repr

def ScanError.message : ScanError → Text
  | .underflow p => "comment scanner state underflow at " ++ p.text

structure Scan where
  /-- Innermost first; plain code is at the bottom and is never left. -/
  modes : List Mode := [.code]
  /-- What has been read of the doc comment at hand, latest first. -/
  pieces : List Text := []
  start : Position := {}
  /-- Just after the last `///` line read. -/
  lineEnd : Position := {}
  /-- Latest first. -/
  closed : List Comment := []
  /-- Latest first. -/
  raised : List Warning := []
deriving DecidableEq, Repr

namespace Scan

def mode (s : Scan) : Mode := s.modes.headD .code

def enter (s : Scan) (m : Mode) : Scan := { s with modes := m :: s.modes }

def leave (s : Scan) (pos : Position) : Except ScanError Scan :=
  match s.modes with
  | _ :: outer :: modes => .ok { s with modes := outer :: modes }
  | _ => .error (.underflow pos)

/-- Text of the doc comment being read. -/
def body (s : Scan) : Text := s.pieces.reverse.flatten

/-- The comments in the order in which they end. -/
def comments (s : Scan) : List Comment := s.closed.reverse

/-- The warnings in the order in which they are raised. -/
def warnings (s : Scan) : List Warning := s.raised.reverse

def warn (s : Scan) (ws : List Warning) : Scan := { s with raised := ws.reverse ++ s.raised }

def add (s : Scan) (t : Text) : Scan := { s with pieces := t :: s.pieces }

def openAt (s : Scan) (m : Mode) (start : Position) : Scan :=
  { s.enter m with pieces := [], start := start }

def close (s : Scan) (stop : Position) : Except ScanError Scan :=
  (s.leave stop).map fun s =>
    { s with pieces := [], closed := ⟨s.start, stop, Text.normalForm s.body⟩ :: s.closed }

@[simp] theorem body_add (s : Scan) (t : Text) : (s.add t).body = s.body ++ t := by
  simp [body, add]

/-- Adds the text of a `///` line that ends at `stop`. -/
def addLine (s : Scan) (t : Text) (stop : Position) : Scan :=
  { s.add (t ++ ['\n']) with lineEnd := stop }

/-- A `///` line, with three slashes exactly: the column of the slashes and the text after them. -/
def docLine? (line : Text) : Option (Nat × Text) :=
  match line.dropWhile Text.isBlank with
  | '/' :: '/' :: '/' :: rest =>
    if rest.head? = some '/' then none
    else some ((line.takeWhile Text.isBlank).length + 1, rest)
  | _ => none

/-- Length of the decoration of a line inside a block: blanks and a star that closes nothing. -/
def decoration (line : Text) : Nat :=
  match line.dropWhile Text.isBlank with
  | '*' :: rest =>
    if rest.head? = some '/' then 0 else (line.takeWhile Text.isBlank).length + 1
  | _ => 0

/-- Length of a literal after its opening quote; without a closing quote it takes the line. -/
def literalLength (quote : Char) : Text → Nat
  | [] => 0
  | '\\' :: _ :: t => literalLength quote t + 2
  | c :: t => if c = quote then 1 else literalLength quote t + 1

/-- The openers inside a doc block. -/
def nestedOpeners (line : Nat) : Nat → Text → List Warning
  | _, [] => []
  | col, c :: t =>
    if (Text.after? "/***" (c :: t)).isSome then
      .nestedOpen ⟨line, col⟩ :: nestedOpeners line (col + 1) t
    else nestedOpeners line (col + 1) t

/-- In code that starts with `/*`: a plain block, a doc block, or a rule of stars. -/
def openerStep (line col : Nat) (afterStar : Text) (s : Scan) : Nat × Scan :=
  let stars := (afterStar.takeWhile (· == '*')).length + 1
  if stars < 3 then (2, s.enter .plainBlock)
  else if (afterStar.dropWhile (· == '*')).head? = some '/' then (stars + 2, s)
  else (stars + 1, s.openAt .docBlock ⟨line, col⟩)

/-- In code that starts no `///` line. -/
def plainCodeStep (line col : Nat) (rest : Text) (s : Scan) : Nat × Scan :=
  match rest with
  | '/' :: '*' :: t => openerStep line col t s
  | '/' :: '/' :: t => (t.length + 2, s)
  | '*' :: '/' :: _ => (2, s.warn [.strayClose ⟨line, col⟩])
  | '\x22' :: t => (literalLength '\x22' t + 1, s)
  | '\x27' :: t => (literalLength '\x27' t + 1, s)
  | _ => (1, s)

/-- In code; a `///` line is one from its first column on. -/
def codeStep (line col : Nat) (rest : Text) (s : Scan) : Nat × Scan :=
  if col = 1 then
    match docLine? rest with
    | some (slashes, t) =>
      (rest.length, (s.openAt .docLine ⟨line, slashes⟩).addLine t ⟨line, rest.length + 1⟩)
    | none => plainCodeStep line col rest s
  else plainCodeStep line col rest s

/-- A doc block ends at the first `*/`; the stars before it belong to the marker. -/
def docBlockStep (line col : Nat) (rest : Text) (s : Scan) : Except ScanError (Nat × Scan) :=
  match Text.before? "*/" rest with
  | some inside =>
    let s := (s.warn (nestedOpeners line col inside)).add (Text.dropEndWhile (· == '*') inside)
    (s.close ⟨line, col + inside.length + 2⟩).map (inside.length + 2, ·)
  | none => .ok (rest.length, (s.warn (nestedOpeners line col rest)).add rest)

def plainBlockStep (line col : Nat) (rest : Text) (s : Scan) : Except ScanError (Nat × Scan) :=
  match Text.before? "*/" rest with
  | some inside => (s.leave ⟨line, col + inside.length + 2⟩).map (inside.length + 2, ·)
  | none => .ok (rest.length, s)

/-- One step at a column of a line: how many characters of the rest it takes, and what follows. -/
def step (line col : Nat) (rest : Text) (s : Scan) : Except ScanError (Nat × Scan) :=
  match s.mode with
  | .code => .ok (codeStep line col rest s)
  | .docBlock => docBlockStep line col rest s
  | .plainBlock => plainBlockStep line col rest s
  | .docLine => .ok (rest.length, s)

/-- Steps along a line, after `skip` characters that are already taken. -/
def steps (line : Nat) : Nat → Nat → Text → Scan → Except ScanError Scan
  | _, _, [], s => .ok s
  | col, skip + 1, _ :: rest, s => steps line (col + 1) skip rest s
  | col, 0, c :: rest, s =>
    match s.step line col (c :: rest) with
    | .error e => .error e
    | .ok (taken, s) => steps line (col + 1) (taken - 1) rest s

/-- A line that does not continue a run of `///` lines. -/
def freshLine (number : Nat) (line : Text) (s : Scan) : Except ScanError Scan :=
  (steps number 1 (if s.mode = .docBlock then decoration line else 0) line s).map fun s =>
    if s.mode = .docBlock then s.add ['\n'] else s

def line (number : Nat) (line : Text) (s : Scan) : Except ScanError Scan :=
  if s.mode = .docLine then
    match docLine? line with
    | some (_, t) => .ok (s.addLine t ⟨number, line.length + 1⟩)
    | none =>
      match s.close s.lineEnd with
      | .error e => .error e
      | .ok s => s.freshLine number line
  else s.freshLine number line

def lines : Nat → List Text → Scan → Except ScanError Scan
  | _, [], s => .ok s
  | number, l :: ls, s =>
    match s.line number l with
    | .error e => .error e
    | .ok s => lines (number + 1) ls s

/-- A run of `///` lines ends with the source; a block that is still open is given up. -/
def finish (s : Scan) : Except ScanError Scan :=
  match s.mode with
  | .docLine => s.close s.lineEnd
  | .docBlock => .ok { s.warn [.unclosedComment s.start] with pieces := [] }
  | .plainBlock | .code => .ok s

/-- The scan of all lines of a source. -/
def ofSource (source : Text) : Except ScanError Scan := lines 1 (Text.sourceLines source) {}

end Scan

/-- The doc comments of a source in order, and the warnings about its comment markers. -/
def Comment.scan (source : Text) : Except ScanError (List Comment × List Warning) :=
  match Scan.ofSource source with
  | .error e => .error e
  | .ok s => s.finish.map fun s => (s.comments, s.warnings)

end LuaStubs
