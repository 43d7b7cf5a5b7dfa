import LuaStubs.TypeExpr.Basic

namespace LuaStubs.TypeExpr

mutual

def text : TypeExpr → Text
  | .literal v => v
  | .named n [] => n
  | .named n (t :: ts) => n ++ "<" ++ List.intercalate ", " (texts (t :: ts)) ++ ">"
  | .array t => text t ++ "[]"
  | .union ts true => "(" ++ List.intercalate "|" (texts ts) ++ ")"
  | .union ts false => List.intercalate "|" (texts ts)
  | .tuple ts => "[" ++ List.intercalate ", " (texts ts) ++ "]"
  | .dictionary k v => "\x7b [" ++ text k ++ "]: " ++ text v ++ " \x7d"
  | .table [] => "\x7b\x7d"
  | .table (f :: fs) => "\x7b " ++ List.intercalate ", " (fieldTexts (f :: fs)) ++ " \x7d"
  | .function ps r => "fun(" ++ List.intercalate ", " (paramTexts ps) ++ ")" ++ typeTail r
  | .optional t => text t ++ "?"

def texts : List TypeExpr → List Text
  | [] => []
  | t :: ts => text t :: texts ts

def fieldTexts : List (Text × TypeExpr) → List Text
  | [] => []
  | (n, t) :: fs => (n ++ ": " ++ text t) :: fieldTexts fs

def paramTexts : List (Text × Option TypeExpr) → List Text
  | [] => []
  | (n, t) :: ps => (n ++ typeTail t) :: paramTexts ps

/-- A type after the name or list that it belongs to. -/
def typeTail : Option TypeExpr → Text
  | none => []
  | some t => ": " ++ text t

end

end LuaStubs.TypeExpr
