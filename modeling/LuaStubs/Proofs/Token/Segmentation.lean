import LuaStubs.Proofs.Token.Run

namespace LuaStubs.Token

/-- What stands between the fences of a span. -/
def IsInside (ks : List TokenKind) : Prop := ks = [] ∨ ks = [.code]

/-- The kinds of tokens in the order in which they can stand; only the last span may be open. -/
inductive Bracketed : List TokenKind → Prop
  | nil : Bracketed []
  | free {k : TokenKind} {ks : List TokenKind} (hk : k ∈ [.attribute, .word, .space, .newline])
      (h : Bracketed ks) : Bracketed (k :: ks)
  | span (s : CodeSpan) {inside ks : List TokenKind} (hi : IsInside inside) (h : Bracketed ks) :
      Bracketed (.openCode s :: (inside ++ .closeCode s :: ks))
  | unclosed (s : CodeSpan) {inside : List TokenKind} (hi : IsInside inside) :
      Bracketed (.openCode s :: (inside ++ [.unclosed]))

/-- The tokens behind the contents of a span. -/
def Closes (s : CodeSpan) (ks : List TokenKind) : Prop :=
  ks = [.unclosed] ∨ ∃ ks', ks = .closeCode s :: ks' ∧ Bracketed ks'

theorem Closes.bracketed {s : CodeSpan} {inside ks : List TokenKind} (hi : IsInside inside)
    (h : Closes s ks) : Bracketed (.openCode s :: (inside ++ ks)) := by
  obtain rfl | ⟨ks, rfl, hks⟩ := h
  · exact .unclosed s hi
  · exact .span s hi hks

/--
How the tokens of a text go on. Inside of a span there may be code first, but not where the text is
at its end or at the closing fence.
-/
def GoesOn (inside : Option CodeSpan) (t : Text) (ks : List TokenKind) : Prop :=
  match inside with
  | none => Bracketed ks
  | some s => (∃ i ks', IsInside i ∧ ks = i ++ ks' ∧ Closes s ks') ∧
      ((t ≠ [] → s.fence <+: t) → Closes s ks)

theorem Run.goesOn {inside : Option CodeSpan} {offset : Nat} {t : Text} {ts : List Token}
    (h : Run inside offset t ts) : GoesOn inside t (ts.map Token.kind) := by
  induction h with
  | done => exact .nil
  | unclosed span => exact ⟨⟨[], _, .inl rfl, rfl, .inl rfl⟩, fun _ => .inl rfl⟩
  | cut hcut _ ih =>
    cases hcut with
    | newline => exact .free (by simp) ih
    | space => exact .free (by simp) ih
    | mark => exact .free (by simp) ih
    | word => exact .free (by simp) ih
    | openCode span =>
      obtain ⟨⟨i, ks, hi, heq, hcloses⟩, -⟩ := ih
      rw [GoesOn, List.map_cons, heq]
      exact hcloses.bracketed hi
    | closeCode span rest =>
      have hcloses : Closes span (.closeCode span :: List.map Token.kind _) := .inr ⟨_, rfl, ih⟩
      exact ⟨⟨[], _, .inl rfl, rfl, hcloses⟩, fun _ => hcloses⟩
    | code hne _ hopen hrest =>
      obtain ⟨-, hcloses⟩ := ih
      refine ⟨⟨[.code], _, .inr rfl, rfl, hcloses hrest⟩, ?_⟩
      intro hfence
      exact absurd (hfence (by simp [hne])) hopen

section Neighbours

/-- A word, white space and code reach as far as they can. -/
theorem Cut.next_ne {inside inside' inside'' : Option CodeSpan} {k : TokenKind}
    {front front' rest : Text} (h : Cut inside k front (front' ++ rest) inside')
    (h' : Cut inside' k front' rest inside'') : k ∉ [TokenKind.word, .space, .code] := by
  intro hk
  cases h with
  | word _ _ hrest =>
    cases h' with
    | word hspace htick =>
      have hnext := hrest _ rfl
      simp [hspace, htick] at hnext
  | @space _ _ _ _ hrest =>
    cases h' with
    | @space _ _ hne hfront =>
      obtain ⟨c, front', rfl⟩ := List.exists_cons_of_ne_nil hne
      obtain ⟨hspace, hline⟩ := hfront c (by simp)
      exact hline (hrest c rfl hspace)
  | code _ _ _ hrest =>
    cases h' with
    | code hne _ hopen => exact hopen (hrest (by simp [hne]))
  | _ => simp at hk

theorem Cut.inside_openCode {inside inside' : Option CodeSpan} {s : CodeSpan} {front rest : Text}
    (h : Cut inside (.openCode s) front rest inside') : inside' = some s := by
  cases h
  rfl

theorem Cut.holds_code {s : CodeSpan} {inside : Option CodeSpan} {front rest : Text}
    (h : Cut (some s) .code front rest inside) : s.Holds front := by
  cases h with
  | code _ hholds => exact hholds

/-- The text behind a token begins with the token that comes next. -/
theorem Run.neighbours {inside : Option CodeSpan} {offset : Nat} {t : Text} {ts : List Token}
    {a b : Token} (h : Run inside offset t ts) (hab : [a, b] <:+: ts) :
    ∃ i rest i', Cut i a.kind a.text (b.text ++ rest) i' ∧
      (b.kind = .unclosed ∨ ∃ i'', Cut i' b.kind b.text rest i'') := by
  obtain ⟨xs, ys, hts⟩ := hab
  have hsplit : ts = xs ++ a :: (b :: ys) := by simpa using hts.symm
  obtain ⟨-, ⟨-, -, hnil⟩ | ⟨i, rest, i', hcut, hrun⟩⟩ := h.split hsplit
  · cases hnil
  · cases hrun with
    | unclosed => exact ⟨i, [], _, hcut, .inl rfl⟩
    | cut hnext => exact ⟨i, _, _, hcut, .inr ⟨_, hnext⟩⟩

end Neighbours

/-- The tokens of a text: all of it, each where it stands, in well-bracketed order. -/
structure Segments (t : Text) (ts : List Token) : Prop where
  spelled : spelled ts = t
  offset : ∀ xs a ys, ts = xs ++ a :: ys → a.offset = Text.byteLength (Token.spelled xs)
  nonempty : ∀ a ∈ ts, a.kind ≠ .unclosed → a.text ≠ []
  bracketed : Bracketed (ts.map Token.kind)
  /-- Code stands behind the fence that opens its span. -/
  code : ∀ a b s, [a, b] <:+: ts → a.kind = .openCode s → b.kind = .code → s.Holds b.text
  apart : ∀ a b, [a, b] <:+: ts → a.kind = b.kind → a.kind ∉ [TokenKind.word, .space, .code]

/-- Lexing loses nothing, cuts nowhere in between, and leaves at most the last span open. -/
theorem segments_lex (t : Text) : Segments t (lex t) := by
  have hrun := run_lex t
  refine ⟨hrun.spelled_eq, ?_, ?_, hrun.goesOn, ?_, ?_⟩
  · intro xs a ys hts
    simpa using (hrun.split hts).1
  · intro a ha hkind
    obtain ⟨xs, ys, hts⟩ := List.append_of_mem ha
    obtain ⟨-, ⟨hunclosed, -⟩ | ⟨_, _, _, hcut, -⟩⟩ := hrun.split hts
    · exact absurd hunclosed hkind
    · exact hcut.text_ne_nil
  · intro a b s hab ha hb
    obtain ⟨i, rest, i', hcut, hunclosed | ⟨_, hnext⟩⟩ := hrun.neighbours hab
    · rw [hb] at hunclosed
      cases hunclosed
    · rw [ha] at hcut
      rw [hb, hcut.inside_openCode] at hnext
      exact hnext.holds_code
  · intro a b hab hkind
    obtain ⟨i, rest, i', hcut, hunclosed | ⟨_, hnext⟩⟩ := hrun.neighbours hab
    · simp [hkind, hunclosed]
    · rw [← hkind] at hnext
      exact hcut.next_ne hnext

end LuaStubs.Token
