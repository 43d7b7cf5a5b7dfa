import LuaStubs.Text.Shapeless

namespace LuaStubs.Text

/-- A character by its number. -/
def charNumber (c : Char) : Text := "\\u\x7b" ++ Nat.toDigits 16 c.toNat ++ "\x7d"

def quotedChar (c : Char) : Text :=
  if c.toNat = 0 then "\\0"
  else if c = '\t' then "\\t"
  else if c = '\r' then "\\r"
  else if c = '\n' then "\\n"
  else if c = '\\' then "\\\\"
  else if c = '\x22' then "\\\""
  else if isShapeless c then charNumber c
  else [c]

/-- A text between double quotes. -/
def quoted (t : Text) : Text := '\x22' :: t.flatMap quotedChar ++ ['\x22']

end LuaStubs.Text
