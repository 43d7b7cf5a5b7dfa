import LuaStubs.Token.Basic

namespace LuaStubs.Token

/-- Length of the rest of a word; a backtick ends it unless a backslash stands before. -/
def wordTail (previous : Char) : Text → Nat
  | [] => 0
  | c :: t =>
    if Text.isSpace c || (c == '\x60' && previous != '\\') then 0 else wordTail c t + 1

/-- Length of inline code: up to the next backtick that is not one of a pair. -/
def inlineLength : Text → Nat
  | [] => 0
  | '\x60' :: '\x60' :: t => inlineLength t + 2
  | '\x60' :: _ => 0
  | _ :: t => inlineLength t + 1

/-- The first token of free text: its kind, its length and the span it opens. -/
def textStep : Text → TokenKind × Nat × Option CodeSpan
  | '\x60' :: '\x60' :: '\x60' :: t =>
    (.openCode .block, (t.takeWhile Char.isAlpha).length + 3, some .block)
  | '\x60' :: _ => (.openCode .inline, 1, some .inline)
  | '\n' :: _ => (.newline, 1, none)
  | [] => (.word, 0, none)
  | c :: t =>
    if Text.isSpace c then
      (.space, (t.takeWhile fun d => Text.isSpace d && d != '\n').length + 1, none)
    else if c = '@' && (Text.word t).1 ≠ [] then
      (.attribute, (Text.word t).1.length + 1, none)
    else (.word, wordTail c t + 1, none)

def codeLength (span : CodeSpan) (t : Text) : Nat :=
  match span with
  | .block => ((Text.before? "```" t).getD t).length
  | .inline => inlineLength t

/-- The first token inside a code span. -/
def codeStep (span : CodeSpan) (t : Text) : TokenKind × Nat × Option CodeSpan :=
  if (Text.after? span.fence t).isSome then (.closeCode span, span.fence.length, none)
  else (.code, codeLength span t, some span)

def step (inside : Option CodeSpan) (t : Text) : TokenKind × Nat × Option CodeSpan :=
  match inside with
  | none => textStep t
  | some span => codeStep span t

/-- The tokens of a text from a byte offset on, after `skip` characters of the token before. -/
def lexFrom : Option CodeSpan → Nat → Nat → Text → List Token
  | none, _, _, [] => []
  | some _, offset, _, [] => [⟨.unclosed, [], offset⟩]
  | inside, offset, skip + 1, c :: t => lexFrom inside (offset + c.utf8Size) skip t
  | inside, offset, 0, c :: t =>
    let (kind, taken, inside') := step inside (c :: t)
    ⟨kind, (c :: t).take taken, offset⟩ :: lexFrom inside' (offset + c.utf8Size) (taken - 1) t

def lex (t : Text) : List Token := lexFrom none 0 0 t

end LuaStubs.Token
