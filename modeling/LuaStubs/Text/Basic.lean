namespace LuaStubs

/-- A text is the list of its characters: every rule of this library is a recursion on it. -/
abbrev Text := List Char

instance : Coe String Text := ⟨String.toList⟩

namespace Text

/-- The characters with the Unicode property White_Space. -/
def isSpace (c : Char) : Bool :=
  (0x09 ≤ c.toNat && c.toNat ≤ 0x0D) || c.toNat == 0x20 || c.toNat == 0x85 || c.toNat == 0xA0 ||
  c.toNat == 0x1680 || (0x2000 ≤ c.toNat && c.toNat ≤ 0x200A) || c.toNat == 0x2028 ||
  c.toNat == 0x2029 || c.toNat == 0x202F || c.toNat == 0x205F || c.toNat == 0x3000

/-- A blank separates words on one line: a space or a tab. -/
def isBlank (c : Char) : Bool := c == ' ' || c == '\t'

/-- The number of bytes of the UTF-8 form. -/
def byteLength (t : Text) : Nat := t.foldr (fun c n => c.utf8Size + n) 0

/-- A number in decimal digits. -/
def ofNat (n : Nat) : Text := Nat.toDigits 10 n

/-- Drops the longest suffix whose characters all satisfy `p`. -/
def dropEndWhile (p : Char → Bool) (t : Text) : Text := (t.reverse.dropWhile p).reverse

def trimStart (t : Text) : Text := t.dropWhile isSpace

def trimEnd (t : Text) : Text := dropEndWhile isSpace t

def trim (t : Text) : Text := trimEnd (trimStart t)

/-- A text with nothing to read in it. -/
def isWhite (t : Text) : Bool := t.all isSpace

def startsWithSpace : Text → Bool
  | [] => false
  | c :: _ => isSpace c

/-- What follows `lead` in a text that begins with it. -/
def after? : Text → Text → Option Text
  | [], t => some t
  | _ :: _, [] => none
  | c :: lead, d :: t => if c = d then after? lead t else none

/-- The first word, up to white space, and what follows it. -/
def word (t : Text) : Text × Text := (t.takeWhile (!isSpace ·), t.dropWhile (!isSpace ·))

/-- Puts one text for every occurrence of a character. -/
def replaceChar (old new : Char) (t : Text) : Text := t.map fun c => if c = old then new else c

/-- Where `needle` first occurs: the text before it. -/
def before? (needle : Text) : Text → Option Text
  | [] => if needle = [] then some [] else none
  | c :: t =>
    if (after? needle (c :: t)).isSome then some []
    else (before? needle t).map (c :: ·)

end Text

end LuaStubs
