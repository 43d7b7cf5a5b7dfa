import LuaStubs.Text.Basic

namespace LuaStubs.Text

/-- Two paragraphs with one blank line between them; a white one leaves no trace. -/
def joinParagraphs (first second : Text) : Text :=
  match trimEnd first, trimStart second with
  | [], s => s
  | f, [] => f
  | f, s => f ++ ['\n', '\n'] ++ s

/-- Joins the parts that hold something, each without the white space at its end. -/
def joinParts (sep : Text) (parts : List Text) : Text :=
  sep.intercalate ((parts.map trimEnd).filter (· ≠ []))

/-- Text that follows a word is set off by a space unless it brings its own. -/
def setOff (t : Text) : Text :=
  if t = [] || startsWithSpace t then t else ' ' :: t

end LuaStubs.Text
