import LuaStubs.Warning

namespace LuaStubs

/-- The kinds of pieces that the text of a comment is cut into. -/
inductive TokenKind where
  /-- An `@tag`. -/
  | attribute
  | word
  | space
  | newline
  | openCode (span : CodeSpan)
  | closeCode (span : CodeSpan)
  /-- What stands inside a code span, as written. -/
  | code
  /-- The text ended inside a code span. -/
  | unclosed
deriving DecidableEq, Repr

structure Token where
  kind : TokenKind
  text : Text
  /-- Where the token starts, in bytes. -/
  offset : Nat
deriving DecidableEq, Repr

/-- The text of a token, without the `@` of an attribute. -/
def Token.value (t : Token) : Text :=
  match t.kind with
  | .attribute => t.text.drop 1
  | _ => t.text

end LuaStubs
