import LuaStubs.Text.Basic

namespace LuaStubs

/-- A place in a source: lines and columns count from one, columns in characters. -/
structure Position where
  line : Nat := 0
  column : Nat := 0
deriving DecidableEq, Repr

def Position.text (p : Position) : Text := Text.ofNat p.line ++ [':'] ++ Text.ofNat p.column

end LuaStubs
