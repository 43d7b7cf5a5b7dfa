import LuaStubs.Proofs.TypeExpr.Tokens
import LuaStubs.TypeExpr.Printer

namespace LuaStubs.TypeExpr.Grammar

/-- Inside brackets white space is free, outside of them only blanks. -/
def isGap (nested : Bool) (c : Char) : Bool := if nested then Text.isSpace c else Text.isBlank c

/-- Space between two parts of a type. -/
def Gap (nested : Bool) (w : Text) : Prop := ∀ c ∈ w, isGap nested c = true

/-- One item or more, separated by commas, with the closing bracket. -/
inductive Items {α : Type} (item : α → Text → Prop) (close : Char) : List α → Text → Prop where
  | last {x : α} {c w : Text} : item x c → Gap true w → Items item close [x] (c ++ (w ++ [close]))
  | more {x : α} {xs : List α} {c w v cs : Text} : item x c → Gap true w → Gap true v →
      Items item close xs cs → Items item close (x :: xs) (c ++ (w ++ ',' :: (v ++ cs)))

/-- Any number of items, with the closing bracket. -/
inductive Bracketed {α : Type} (item : α → Text → Prop) (close : Char) : List α → Text → Prop where
  | empty {w : Text} : Gap true w → Bracketed item close [] (w ++ [close])
  | filled {xs : List α} {w cs : Text} : Gap true w → Items item close xs cs →
      Bracketed item close xs (w ++ cs)

/-- The further members of a union, and whether space stands beside one of the bars. -/
inductive Alternatives (member : TypeExpr → Text → Prop) (nested : Bool) :
    List TypeExpr → Bool → Text → Prop where
  | none : Alternatives member nested [] false []
  | more {m : TypeExpr} {ms : List TypeExpr} {spaced : Bool} {w v c cs : Text} :
      Gap nested w → Gap nested v → member m c → Alternatives member nested ms spaced cs →
      Alternatives member nested (m :: ms) (!w.isEmpty || !v.isEmpty || spaced)
        (w ++ '|' :: (v ++ (c ++ cs)))

/-- A member, or several of them as a union. -/
inductive Union (member : TypeExpr → Text → Prop) (nested : Bool) :
    TypeExpr → Bool → Text → Prop where
  | single {m : TypeExpr} {c : Text} : member m c → Union member nested m false c
  | several {m n : TypeExpr} {ms : List TypeExpr} {spaced : Bool} {c cs : Text} : member m c →
      Alternatives member nested (n :: ms) spaced cs →
      Union member nested (.union (m :: n :: ms) false) spaced (c ++ cs)

/-- A type inside brackets. -/
def Inner (member : Bool → TypeExpr → Text → Prop) (u : TypeExpr) (c : Text) : Prop :=
  ∃ spaced, Union (member true) true u spaced c

inductive TableField (type : TypeExpr → Text → Prop) : Text × TypeExpr → Text → Prop where
  | mk {name w v c : Text} {u : TypeExpr} : slotName name = some (name, []) → Gap true w →
      Gap true v → type u c → TableField type (name, u) (name ++ (w ++ ':' :: (v ++ c)))

inductive Parameter (type : TypeExpr → Text → Prop) : Text × Option TypeExpr → Text → Prop where
  | bare {name w : Text} : slotName name = some (name, []) → Gap true w →
      Parameter type (name, none) (name ++ w)
  | typed {name w v c : Text} {u : TypeExpr} : slotName name = some (name, []) → Gap true w →
      Gap true v → type u c → Parameter type (name, some u) (name ++ (w ++ ':' :: (v ++ c)))

inductive Returned (member : TypeExpr → Text → Prop) (nested : Bool) :
    Option TypeExpr → Text → Prop where
  | none : Returned member nested none []
  | some {v c : Text} {u : TypeExpr} : Gap nested v → member u c →
      Returned member nested (some u) (':' :: (v ++ c))

/-- The names that are values. -/
def IsConstant (name : Text) : Prop := name = "true" ∨ name = "false" ∨ name = "nil"

/-- A type without marks after it. -/
inductive Primary (member : Bool → TypeExpr → Text → Prop) (nested : Bool) :
    TypeExpr → Text → Prop where
  | parens {u : TypeExpr} {w c v : Text} : Gap true w → Inner member u c → Gap true v →
      Primary member nested (parenthesize u) ('(' :: (w ++ (c ++ (v ++ [')']))))
  | tuple {ts : List TypeExpr} {c : Text} : Bracketed (Inner member) ']' ts c →
      Primary member nested (.tuple ts) ('[' :: c)
  | dictionary {k v : TypeExpr} {w₁ w₂ w₃ w₄ w₅ w₆ c d : Text} : Gap true w₁ → Gap true w₂ →
      Inner member k c → Gap true w₃ → Gap true w₄ → Gap true w₅ → Inner member v d →
      Gap true w₆ → Primary member nested (.dictionary k v)
        ('\x7b' :: (w₁ ++ '[' :: (w₂ ++ (c ++ (w₃ ++ ']' :: (w₄ ++ ':' ::
          (w₅ ++ (d ++ (w₆ ++ ['\x7d'])))))))))
  | table {fs : List (Text × TypeExpr)} {c : Text} :
      Bracketed (TableField (Inner member)) '\x7d' fs c →
      Primary member nested (.table fs) ('\x7b' :: c)
  | quoted {q : Char} {s : Text} : q = '\x22' ∨ q = '\x27' → quotedTail q s = some (s, []) →
      Primary member nested (.literal (q :: s)) (q :: s)
  | number {n : Text} : number n = some (n, []) → Primary member nested (.literal n) n
  | constant {name : Text} : IsConstant name → Primary member nested (.literal name) name
  | name {name : Text} : Lua.isDotted name = true → ¬IsConstant name →
      Primary member nested (.named name []) name
  | generic {name c : Text} {ts : List TypeExpr} : Lua.isDotted name = true → ¬IsConstant name →
      Bracketed (Inner member) '>' ts c → Primary member nested (.named name ts) (name ++ '<' :: c)
  | function {ps : List (Text × Option TypeExpr)} {r : Option TypeExpr} {c v : Text} :
      Bracketed (Parameter (Inner member)) ')' ps c → Returned (member nested) nested r v →
      Primary member nested (.function ps r) ("fun(" ++ (c ++ v))

/-- The marks that make one type from another. -/
inductive Marks : TypeExpr → TypeExpr → Text → Prop where
  | none {u : TypeExpr} : Marks u u []
  | array {u v : TypeExpr} {c : Text} : Marks (.array u) v c → Marks u v ('[' :: ']' :: c)
  | optional {u v : TypeExpr} {c : Text} : Marks u.orNothing v c → Marks u v ('?' :: c)

/-- A function that returns something leaves all marks after it to the type it returns. -/
def IsOpen : TypeExpr → Prop
  | .function _ (some _) => True
  | _ => False

/-- A member of a union, nested no deeper than given. -/
def Member : Nat → Bool → TypeExpr → Text → Prop
  | 0, _, _, _ => False
  | depth + 1, nested, v, c =>
    ∃ u p m, Primary (Member depth) nested u p ∧ Marks u v m ∧ (IsOpen u → m = []) ∧ c = p ++ m

end LuaStubs.TypeExpr.Grammar
