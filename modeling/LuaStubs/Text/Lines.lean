import LuaStubs.Text.Basic

namespace LuaStubs.Text

/-- A line without the carriage return that may stand before its end. -/
def dropReturn (line : Text) : Text :=
  if line.getLast? = some '\r' then line.dropLast else line

/-- The lines of a source: every `\n` ends one, so the text after the last `\n` counts as a line. -/
def sourceLines (t : Text) : List Text := (t.splitOn '\n').map dropReturn

/-- Takes `\n` as a terminator: the last part is a line only if it holds something. -/
def terminated : List Text → List Text
  | [] => []
  | [last] => if last = [] then [] else [last]
  | line :: next :: rest => dropReturn line :: terminated (next :: rest)

/-- The lines of a text in which `\n` or `\r\n` ends a line. -/
def lines (t : Text) : List Text := terminated (t.splitOn '\n')

def commonPrefix : Text → Text → Text
  | c :: s, d :: t => if c = d then c :: commonPrefix s t else []
  | _, _ => []

/-- The white space at the front of a line. -/
def indentation (line : Text) : Text := line.takeWhile isSpace

/-- The longest white space that every line with something on it begins with. -/
def sharedIndentation (ls : List Text) : Text :=
  match (ls.filter (!isWhite ·)).map indentation with
  | [] => []
  | i :: is => is.foldl commonPrefix i

/-- Takes the indentation off a line; a line that lacks it loses its own. -/
def stripIndentation (indent line : Text) : Text :=
  match after? indent line with
  | some rest => rest
  | none => trimStart line

/-- Removes the indentation that the lines share. -/
def dedent (t : Text) : Text :=
  ['\n'].intercalate ((lines t).map (stripIndentation (sharedIndentation (lines t))))

/-- Removes the blanks at the end of every line. -/
def trimLineEnds (t : Text) : Text :=
  ['\n'].intercalate ((t.splitOn '\n').map (dropEndWhile isBlank))

/-- Drops the lines before the first one that holds something. -/
def dropWhiteLines : List Text → List Text
  | [] => []
  | line :: rest => if isWhite line then dropWhiteLines rest else line :: rest

/--
The normal form of a comment's text: dedented, without blanks at line ends, and without white lines
around it. The empty line in front has no part in the indentation.
-/
def normalForm (body : Text) : Text :=
  trimEnd (['\n'].intercalate
    (dropWhiteLines ((trimLineEnds (dedent ('\n' :: body))).splitOn '\n')))

end LuaStubs.Text
