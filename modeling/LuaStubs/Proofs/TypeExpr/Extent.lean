import LuaStubs.Proofs.Text.Tidy
import LuaStubs.Proofs.TypeExpr.RoundTrip

namespace LuaStubs.TypeExpr

open Text (byteLength isSpace isWhite trimEnd)

/-- The text that a reading of `s` has taken. -/
def Reading.taken (p : Reading) (s : Text) : Text := s.take (s.length - p.rest.length)

theorem Reading.taken_eq {p : Reading} {s c : Text} (h : s = c ++ p.rest) : p.taken s = c := by
  rw [taken, h, List.length_append, Nat.add_sub_cancel, List.take_left]

theorem Reading.bytes_eq {p : Reading} {s c : Text} (h : s = c ++ p.rest) :
    p.bytes s = byteLength c := by
  rw [bytes, h, Text.byteLength_append, Nat.add_sub_cancel]

/-- A text with a last character, which shows. -/
def EndsVisibly (t : Text) : Prop := ∃ c, t.getLast? = some c ∧ isSpace c = false

theorem EndsVisibly.after (s : Text) {t : Text} (h : EndsVisibly t) : EndsVisibly (s ++ t) := by
  obtain ⟨c, hc, hshows⟩ := h
  refine ⟨c, ?_, hshows⟩
  rw [List.getLast?_append, hc]
  rfl

namespace Grammar

theorem stops_white {w : Text} (hw : isWhite w = true) : Stops w := by
  intro c hc
  exact isEnd_of_isSpace ((Text.isWhite_iff w).mp hw c (List.mem_of_mem_head? hc))

/-- Without the space after it a member would be read as well, so there is none. -/
theorem trimEnd_member {depth : Nat} {nested : Bool} {u : TypeExpr} {c : Text}
    (h : Member depth nested u c) : trimEnd c = c := by
  obtain ⟨w, hw, hwhite⟩ := Text.exists_trimEnd_append c
  have hread : member (c.length + 1) nested c = some (u, []) := by
    have hwhole := member_complete (c.length + 1) depth nested u c [] h (by omega) (by simp [Stops])
    rwa [List.append_nil] at hwhole
  have htrimmed : member (c.length + 1) nested (trimEnd c) = some (u, []) := by
    rw [member_trims (c.length + 1) (c.length + 1) _ nested le_rfl le_rfl c (by omega), hread]
    rfl
  obtain ⟨c', hc', hspelled⟩ := member_sound _ _ _ _ _ htrimmed
  rw [List.append_nil] at hc'
  have hshort : c'.length < c.length + 1 := by
    have hle := Text.length_trimEnd c
    rw [hc'] at hle
    omega
  -- in front of the space the trimmed member is read and the space is left
  have hagain := member_complete (c.length + 1) _ nested u c' w hspelled hshort (stops_white hwhite)
  rw [← hc', ← hw, hread] at hagain
  have hnone : [] = w := (Prod.mk.inj (Option.some.inj hagain)).2
  rw [← hnone, List.append_nil] at hw
  exact hw.symm

theorem member_endsVisibly {depth : Nat} {nested : Bool} {u : TypeExpr} {c : Text}
    (h : Member depth nested u c) : EndsVisibly c := by
  obtain ⟨a, t, hat, -⟩ := member_opens h
  have hne : c ≠ [] := by
    rw [hat]
    exact List.cons_ne_nil a t
  have hshows := Text.getLast?_dropEndWhile isSpace c
  rw [show Text.dropEndWhile isSpace c = c from trimEnd_member h] at hshows
  exact ⟨c.getLast hne, List.getLast?_eq_some_getLast hne,
    hshows _ (List.getLast?_eq_some_getLast hne)⟩

section Unions
variable {spells : TypeExpr → Text → Prop} {nested : Bool}
  (hends : ∀ u c, spells u c → EndsVisibly c)
include hends

theorem alternatives_endsVisibly {ms : List TypeExpr} {spaced : Bool} {cs : Text}
    (h : Alternatives spells nested ms spaced cs) {c : Text} (hc : EndsVisibly c) :
    EndsVisibly (c ++ cs) := by
  induction h generalizing c with
  | none => rwa [List.append_nil]
  | @more m ms spaced w v c' cs _ _ hc' _ ih =>
    have hrest := (ih (hends m c' hc')).after (c ++ (w ++ '|' :: v))
    simpa only [List.append_assoc, List.cons_append] using hrest

theorem union_endsVisibly {u : TypeExpr} {spaced : Bool} {c : Text}
    (h : Union spells nested u spaced c) : EndsVisibly c := by
  cases h with
  | single hc => exact hends _ _ hc
  | several hc hcs => exact alternatives_endsVisibly hends hcs (hends _ _ hc)

end Unions

end Grammar

open Grammar

/-- What was taken is read the same before the end of a text or of a line. -/
theorem read?_of_spelled {depth : Nat} {u : TypeExpr} {spaced : Bool} {c r : Text}
    (h : Union (Member depth false) false u spaced c) (hr : r = [] ∨ r.head? = some '\n') :
    read? (c ++ r) = some ⟨u, r, spaced⟩ :=
  read?_complete h (stops_newline hr) (noBar_newline _ hr)

/--
A reading takes the front of a text, at least one character, up to one that shows. The type, its
length and the mark depend only on what is taken: it is read the same before the end of a line.
-/
theorem read?_taken (s : Text) (p : Reading) (h : read? s = some p) :
    s = p.taken s ++ p.rest ∧ p.bytes s = byteLength (p.taken s) ∧
    0 < p.bytes s ∧ p.bytes s ≤ byteLength s ∧ Text.IsBoundary s (p.bytes s) ∧
    EndsVisibly (p.taken s) ∧
    ∀ r, r = [] ∨ r.head? = some '\n' → ∃ q, read? (p.taken s ++ r) = some q ∧
      q.type = p.type ∧ q.bytes (p.taken s ++ r) = p.bytes s ∧ q.ambiguous = p.ambiguous := by
  obtain ⟨c, hc, hspelled⟩ := read?_sound h
  have hvisible := union_endsVisibly (fun _ _ => member_endsVisibly) hspelled
  have hne : c ≠ [] := by
    rintro rfl
    obtain ⟨d, hd, -⟩ := hvisible
    cases hd
  have hbytes := Reading.bytes_eq hc
  rw [Reading.taken_eq hc, hbytes]
  refine ⟨hc, rfl, Text.byteLength_pos hne, ?_, ⟨c, ⟨p.rest, hc.symm⟩, rfl⟩, hvisible, ?_⟩
  · rw [hc, Text.byteLength_append]
    omega
  · intro r hr
    exact ⟨_, read?_of_spelled hspelled hr, rfl, Reading.bytes_eq rfl, rfl⟩

/-- A colon, a bar and the space around them are given back, and brackets come on the next line. -/
theorem read?_taken_given_back : ∃ p, read? "\"é\" | fun(x): | \x7b" = some p ∧
    p.taken "\"é\" | fun(x): | \x7b" = "\"é\" | fun(x)".toList ∧
    p.bytes "\"é\" | fun(x): | \x7b" = 13 ∧ p.ambiguous = true ∧
    EndsVisibly (p.taken "\"é\" | fun(x): | \x7b") ∧
    ∃ q, read? (p.taken "\"é\" | fun(x): | \x7b" ++ "\n[]") = some q ∧ q.type = p.type ∧
      q.bytes (p.taken "\"é\" | fun(x): | \x7b" ++ "\n[]") = p.bytes "\"é\" | fun(x): | \x7b" ∧
      q.ambiguous = p.ambiguous := by
  have h : read? "\"é\" | fun(x): | \x7b" = some
      ⟨.union [.literal "\"é\"", .function [(['x'], none)] none] false, ": | \x7b", true⟩ := by
    decide +kernel
  obtain ⟨-, -, -, -, -, hvisible, hagain⟩ := read?_taken _ _ h
  exact ⟨_, h, by decide, by decide, rfl, hvisible, hagain _ (Or.inr rfl)⟩

end LuaStubs.TypeExpr
