import LuaStubs.Position

namespace LuaStubs

/-- A doc comment found in a source; `stop` is the place just after it. -/
structure Comment where
  start : Position
  stop : Position
  text : Text
deriving DecidableEq, Repr

end LuaStubs
