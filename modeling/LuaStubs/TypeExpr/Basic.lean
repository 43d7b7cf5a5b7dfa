import LuaStubs.Text.Basic

namespace LuaStubs

inductive TypeExpr where
  /-- A number, a quoted string, `true`, `false` or `nil`. -/
  | literal (value : Text)
  /-- A name with the types it is applied to: `Foo.Bar`, `table<K, V>`. -/
  | named (name : Text) (generics : List TypeExpr)
  | array (inner : TypeExpr)
  | union (members : List TypeExpr) (parenthesized : Bool)
  | tuple (members : List TypeExpr)
  | dictionary (key value : TypeExpr)
  | table (fields : List (Text × TypeExpr))
  | function (params : List (Text × Option TypeExpr)) (returns : Option TypeExpr)
  | optional (inner : TypeExpr)
deriving Repr

namespace TypeExpr

/-- A type that a name stands for. -/
def ofName (name : Text) : TypeExpr := .named name []

/-- The type that also admits nothing; asking twice changes nothing. -/
def orNothing : TypeExpr → TypeExpr
  | .optional t => .optional t
  | t => .optional t

/-- The value of a type with only one. -/
def value? : TypeExpr → Option Text
  | .literal v => some v
  | _ => none

mutual

def same : TypeExpr → TypeExpr → Bool
  | .literal v, .literal w => v == w
  | .named n ts, .named m us => n == m && sameList ts us
  | .array t, .array u => same t u
  | .union ts p, .union us q => sameList ts us && p == q
  | .tuple ts, .tuple us => sameList ts us
  | .dictionary k v, .dictionary l w => same k l && same v w
  | .table fs, .table gs => sameFields fs gs
  | .function ps r, .function qs s => sameParams ps qs && sameOption r s
  | .optional t, .optional u => same t u
  | _, _ => false

def sameList : List TypeExpr → List TypeExpr → Bool
  | [], [] => true
  | t :: ts, u :: us => same t u && sameList ts us
  | _, _ => false

def sameFields : List (Text × TypeExpr) → List (Text × TypeExpr) → Bool
  | [], [] => true
  | (n, t) :: fs, (m, u) :: gs => n == m && same t u && sameFields fs gs
  | _, _ => false

def sameParams : List (Text × Option TypeExpr) → List (Text × Option TypeExpr) → Bool
  | [], [] => true
  | (n, t) :: ps, (m, u) :: qs => n == m && sameOption t u && sameParams ps qs
  | _, _ => false

def sameOption : Option TypeExpr → Option TypeExpr → Bool
  | none, none => true
  | some t, some u => same t u
  | _, _ => false

end

mutual

theorem same_iff : (t u : TypeExpr) → (same t u = true ↔ t = u)
  | .literal _, u => by cases u <;> simp [same]
  | .named _ ts, u => by cases u <;> simp [same, sameList_iff ts]
  | .array t, u => by cases u <;> simp [same, same_iff t]
  | .union ts _, u => by cases u <;> simp [same, sameList_iff ts]
  | .tuple ts, u => by cases u <;> simp [same, sameList_iff ts]
  | .dictionary k v, u => by cases u <;> simp [same, same_iff k, same_iff v]
  | .table fs, u => by cases u <;> simp [same, sameFields_iff fs]
  | .function ps r, u => by cases u <;> simp [same, sameParams_iff ps, sameOption_iff r]
  | .optional t, u => by cases u <;> simp [same, same_iff t]

theorem sameList_iff : (ts us : List TypeExpr) → (sameList ts us = true ↔ ts = us)
  | [], us => by cases us <;> simp [sameList]
  | t :: ts, us => by cases us <;> simp [sameList, same_iff t, sameList_iff ts]

theorem sameFields_iff :
    (fs gs : List (Text × TypeExpr)) → (sameFields fs gs = true ↔ fs = gs)
  | [], gs => by cases gs <;> simp [sameFields]
  | (_, t) :: fs, [] => by simp [sameFields]
  | (_, t) :: fs, (_, _) :: gs => by simp [sameFields, same_iff t, sameFields_iff fs]

theorem sameParams_iff :
    (ps qs : List (Text × Option TypeExpr)) → (sameParams ps qs = true ↔ ps = qs)
  | [], qs => by cases qs <;> simp [sameParams]
  | (_, t) :: ps, [] => by simp [sameParams]
  | (_, t) :: ps, (_, _) :: qs => by simp [sameParams, sameOption_iff t, sameParams_iff ps]

theorem sameOption_iff : (t u : Option TypeExpr) → (sameOption t u = true ↔ t = u)
  | none, u => by cases u <;> simp [sameOption]
  | some t, u => by cases u <;> simp [sameOption, same_iff t]

end

instance : DecidableEq TypeExpr := fun t u => decidable_of_iff _ (same_iff t u)

end TypeExpr

end LuaStubs
