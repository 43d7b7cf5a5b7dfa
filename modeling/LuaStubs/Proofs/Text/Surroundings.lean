import LuaStubs.Text.Basic
import Mathlib.Data.List.Basic

namespace LuaStubs

inductive Bracket where
  | round
  | square
  | curly
  | angle
deriving DecidableEq, Repr

/-- The bracket that a character opens. -/
def Bracket.opened? : Char → Option Bracket
  | '(' => some .round
  | '[' => some .square
  | '\x7b' => some .curly
  | '<' => some .angle
  | _ => none

/-- The bracket that a character closes. -/
def Bracket.closed? : Char → Option Bracket
  | ')' => some .round
  | ']' => some .square
  | '\x7d' => some .curly
  | '>' => some .angle
  | _ => none

/-- What a place in a text lies in. -/
structure Surroundings where
  /-- The string around the place: its quote, and whether a backslash guards the next character. -/
  string : Option (Char × Bool) := none
  /-- The brackets around the place, innermost first. -/
  brackets : List Bracket := []
deriving DecidableEq, Repr

namespace Surroundings

def isQuote (c : Char) : Bool := c == '\x22' || c == '\x27'

/-- Behind a bracket that opens. -/
def enter (s : Surroundings) (b : Bracket) : Surroundings := { s with brackets := b :: s.brackets }

/-- What the place after a character lies in. Inside a string brackets have no meaning. -/
def step (s : Surroundings) (c : Char) : Surroundings :=
  match s.string with
  | some (q, true) => { s with string := some (q, false) }
  | some (q, false) =>
    if c = '\\' then { s with string := some (q, true) }
    else if c = q then { s with string := none }
    else s
  | none =>
    if isQuote c then { s with string := some (c, false) }
    else match Bracket.opened? c with
      | some b => s.enter b
      | none => match Bracket.closed? c with
        | some b => if s.brackets.head? = some b then { s with brackets := s.brackets.tail } else s
        | none => s

/-- What the place after a text lies in. -/
def after (s : Surroundings) (t : Text) : Surroundings := t.foldl step s

end Surroundings

namespace Text

/-- The place after a text lies in no string and in no brackets. -/
def IsOutside (t : Text) : Prop := Surroundings.after {} t = {}

def StartsBlank (t : Text) : Prop := ∃ c, t.head? = some c ∧ isBlank c = true

def EndsBlank (t : Text) : Prop := ∃ c, t.getLast? = some c ∧ isBlank c = true

/-- A bar that lies in no string and in no brackets has a blank beside it. -/
def HasSpacedBar (t : Text) : Prop :=
  ∃ before after, t = before ++ '|' :: after ∧ IsOutside before ∧
    (EndsBlank before ∨ StartsBlank after)

end Text

namespace Surroundings
variable {s : Surroundings}

theorem after_append (s : Surroundings) (t u : Text) : s.after (t ++ u) = (s.after t).after u :=
  List.foldl_append

theorem after_cons (s : Surroundings) (c : Char) (t : Text) :
    s.after (c :: t) = (s.step c).after t := rfl

/-- A character that neither quotes nor brackets. -/
def isPlain (c : Char) : Bool :=
  !isQuote c && (Bracket.opened? c).isNone && (Bracket.closed? c).isNone

/-- The characters that quote or bracket, and the bar. -/
def marks : List Char := ['\x22', '\x27', '(', '[', '\x7b', '<', ')', ']', '\x7d', '>', '|']

theorem isPlain_of_not_mem_marks {c : Char} (hc : c ∉ marks) : isPlain c = true := by
  simp only [marks, List.mem_cons, List.not_mem_nil, or_false, not_or] at hc
  have hopen : Bracket.opened? c = none := by
    unfold Bracket.opened?
    split <;> simp_all
  have hclose : Bracket.closed? c = none := by
    unfold Bracket.closed?
    split <;> simp_all
  simp [isPlain, isQuote, hc, hopen, hclose]

theorem step_plain (hs : s.string = none) {c : Char} (hc : isPlain c = true) : s.step c = s := by
  simp only [isPlain, Bool.and_eq_true, Bool.not_eq_true', Option.isNone_iff_eq_none] at hc
  obtain ⟨⟨hquote, hopen⟩, hclose⟩ := hc
  simp [step, hs, hquote, hopen, hclose]

theorem step_quote (hs : s.string = none) {c : Char} (hc : isQuote c = true) :
    s.step c = { s with string := some (c, false) } := by
  simp [step, hs, hc]

theorem not_isQuote_of_bracket {c : Char} {b : Bracket}
    (h : Bracket.opened? c = some b ∨ Bracket.closed? c = some b) : isQuote c = false := by
  by_contra hq
  simp only [isQuote, Bool.not_eq_false, Bool.or_eq_true, beq_iff_eq] at hq
  obtain rfl | rfl := hq <;> obtain h | h := h <;> cases h

theorem step_open (hs : s.string = none) {c : Char} {b : Bracket}
    (hc : Bracket.opened? c = some b) : s.step c = s.enter b := by
  have hquote := not_isQuote_of_bracket (Or.inl hc)
  simp [step, hs, hquote, hc]

/-- A closing bracket ends the surroundings that the opening one began. -/
theorem step_close (hs : s.string = none) {c : Char} {b : Bracket}
    (hc : Bracket.closed? c = some b) : (s.enter b).step c = s := by
  have hquote := not_isQuote_of_bracket (Or.inr hc)
  have hopen : Bracket.opened? c = none := by
    unfold Bracket.closed? at hc
    split at hc
    all_goals first | rfl | cases hc
  obtain ⟨string, brackets⟩ := s
  obtain rfl : string = none := hs
  simp [step, enter, hquote, hopen, hc]

theorem after_plain (hs : s.string = none) {t : Text} (ht : ∀ c ∈ t, isPlain c = true) :
    s.after t = s := by
  induction t with
  | nil => rfl
  | cons c t ih =>
    rw [List.forall_mem_cons] at ht
    rw [after_cons, step_plain hs ht.1, ih ht.2]

end Surroundings

namespace Text

open Surroundings (after_append after_cons isPlain)

/-- A place in two texts put together is a place in one of them. -/
theorem append_eq_append_cons {a b before rest : Text} {c : Char}
    (h : a ++ b = before ++ c :: rest) :
    (∃ mid, a = before ++ c :: mid ∧ rest = mid ++ b) ∨
      ∃ mid, before = a ++ mid ∧ b = mid ++ c :: rest := by
  obtain ⟨mid, hbefore, hb⟩ | ⟨mid, ha, hrest⟩ := List.append_eq_append_iff.mp h
  · exact Or.inr ⟨mid, hbefore, hb⟩
  · obtain ⟨rfl, hb⟩ | ⟨mid', rfl, hrest'⟩ := List.cons_eq_append_iff.mp hrest
    · exact Or.inr ⟨[], by simpa using ha.symm, hb⟩
    · exact Or.inl ⟨mid', ha, hrest'⟩

/-- A text that closes what it opens and no bracket besides. -/
structure IsClosed (t : Text) : Prop where
  returns : ∀ s : Surroundings, s.string = none → s.after t = s
  stays : ∀ s : Surroundings, s.string = none → ∀ before c rest, t = before ++ c :: rest →
    s.brackets.length ≤ (s.after before).brackets.length

/-- Each bar in a closed text lies in a string or in brackets of the text. -/
structure IsGuarded (t : Text) : Prop extends IsClosed t where
  bars : ∀ s : Surroundings, s.string = none → ∀ before rest, t = before ++ '|' :: rest →
    s.after before ≠ s

theorem IsClosed.append {t u : Text} (ht : IsClosed t) (hu : IsClosed u) : IsClosed (t ++ u) where
  returns s hs := by rw [after_append, ht.returns s hs, hu.returns s hs]
  stays := by
    intro s hs before c rest h
    obtain ⟨mid, rfl, -⟩ | ⟨mid, rfl, rfl⟩ := append_eq_append_cons h
    · exact ht.stays s hs before c mid rfl
    · rw [after_append, ht.returns s hs]
      exact hu.stays s hs mid c rest rfl

theorem IsGuarded.append {t u : Text} (ht : IsGuarded t) (hu : IsGuarded u) :
    IsGuarded (t ++ u) where
  toIsClosed := ht.toIsClosed.append hu.toIsClosed
  bars := by
    intro s hs before rest h
    obtain ⟨mid, rfl, -⟩ | ⟨mid, rfl, rfl⟩ := append_eq_append_cons h
    · exact ht.bars s hs before mid rfl
    · rw [after_append, ht.returns s hs]
      exact hu.bars s hs mid rest rfl

theorem isClosed_of_plain {t : Text} (ht : ∀ c ∈ t, isPlain c = true) : IsClosed t where
  returns s hs := Surroundings.after_plain hs ht
  stays := by
    intro s hs before c rest h
    have hbefore : ∀ d ∈ before, isPlain d = true := by
      intro d hd
      apply ht
      rw [h]
      exact List.mem_append_left _ hd
    exact Nat.le_of_eq (by rw [Surroundings.after_plain hs hbefore])

theorem IsClosed.cons {c : Char} {t : Text} (hc : isPlain c = true) (ht : IsClosed t) :
    IsClosed (c :: t) :=
  (isClosed_of_plain (t := [c]) (by simpa using hc)).append ht

theorem isGuarded_of_plain {t : Text} (ht : ∀ c ∈ t, isPlain c = true ∧ c ≠ '|') : IsGuarded t where
  toIsClosed := isClosed_of_plain fun c hc => (ht c hc).1
  bars := by
    intro s hs before rest h
    exact absurd rfl (ht '|' (by simp [h])).2

/-- Characters of a class without marks are guarded. -/
theorem isGuarded_of_class {p : Char → Bool} (hp : Surroundings.marks.any p = false) {t : Text}
    (ht : ∀ c ∈ t, p c = true) : IsGuarded t := by
  have hnot : ∀ c ∈ t, c ∉ Surroundings.marks := by
    intro c hc hmark
    exact List.any_eq_false.mp hp c hmark (ht c hc)
  apply isGuarded_of_plain
  intro c hc
  refine ⟨Surroundings.isPlain_of_not_mem_marks (hnot c hc), ?_⟩
  rintro rfl
  exact hnot '|' hc (by decide)

/-- Brackets guard what they enclose. -/
theorem IsClosed.bracket {t : Text} (ht : IsClosed t) {c d : Char} {b : Bracket}
    (hc : Bracket.opened? c = some b) (hd : Bracket.closed? d = some b) :
    IsGuarded (c :: (t ++ [d])) := by
  -- up to the closing bracket there is one bracket more than before the opening one
  have hinside (s : Surroundings) (hs : s.string = none) (before : Text) (x : Char) (rest : Text)
      (h : c :: (t ++ [d]) = before ++ x :: rest) :
      before = [] ∨ s.brackets.length + 1 ≤ (s.after before).brackets.length := by
    obtain ⟨rfl, -⟩ | ⟨mid, rfl, hmid⟩ := List.cons_eq_append_iff.mp h
    · exact Or.inl rfl
    · right
      rw [after_cons, Surroundings.step_open hs hc]
      obtain ⟨mid', hmid', -⟩ | ⟨mid', rfl, hmid'⟩ := append_eq_append_cons hmid
      · exact ht.stays (s.enter b) hs mid x mid' hmid'
      · obtain ⟨rfl, -⟩ | ⟨_, -, hnone⟩ := List.cons_eq_append_iff.mp hmid'
        · rw [List.append_nil, ht.returns (s.enter b) hs]
          exact Nat.le_refl _
        · simp at hnone
  refine ⟨⟨?_, ?_⟩, ?_⟩
  · intro s hs
    rw [after_cons, Surroundings.step_open hs hc, after_append,
      ht.returns (s.enter b) hs]
    exact Surroundings.step_close hs hd
  · intro s hs before x rest h
    obtain rfl | hle := hinside s hs before x rest h
    · exact Nat.le_refl _
    · omega
  · intro s hs before rest h heq
    obtain rfl | hle := hinside s hs before '|' rest h
    · obtain rfl : c = '|' := (List.cons.inj h).1
      cases hc
    · rw [heq] at hle
      omega

/-- An outer bar of a text comes after what is guarded in front. -/
theorem IsGuarded.outer_bar {a t before rest : Text} (ha : IsGuarded a)
    (h : a ++ t = before ++ '|' :: rest) (ho : IsOutside before) :
    ∃ mid, before = a ++ mid ∧ t = mid ++ '|' :: rest ∧ IsOutside mid := by
  obtain ⟨mid, hmid, -⟩ | ⟨mid, rfl, ht⟩ := append_eq_append_cons h
  · exact absurd ho (ha.bars {} rfl before mid hmid)
  · refine ⟨mid, rfl, ht, ?_⟩
    rwa [IsOutside, after_append, ha.returns {} rfl] at ho

theorem IsClosed.isOutside_append {a : Text} (ha : IsClosed a) (t : Text) :
    IsOutside (a ++ t) ↔ IsOutside t := by
  rw [IsOutside, after_append, ha.returns {} rfl, IsOutside]

theorem IsGuarded.not_hasSpacedBar {t : Text} (ht : IsGuarded t) : ¬HasSpacedBar t := by
  rintro ⟨before, rest, hsplit, houtside, -⟩
  exact ht.bars {} rfl before rest hsplit houtside

theorem endsBlank_append {a t : Text} (ht : t ≠ []) : EndsBlank (a ++ t) ↔ EndsBlank t := by
  rw [EndsBlank, List.getLast?_append_of_ne_nil a ht, EndsBlank]

/-- What is guarded in front has no part in the bars after it. -/
theorem IsGuarded.hasSpacedBar_append {a t : Text} (ha : IsGuarded a) (ht : t.head? ≠ some '|') :
    HasSpacedBar (a ++ t) ↔ HasSpacedBar t := by
  have hne {mid rest : Text} (h : t = mid ++ '|' :: rest) : mid ≠ [] := by
    rintro rfl
    exact ht (by rw [h]; rfl)
  constructor
  · rintro ⟨before, rest, hsplit, houtside, hspaced⟩
    obtain ⟨mid, rfl, hbar, hmid⟩ := ha.outer_bar hsplit houtside
    rw [endsBlank_append (hne hbar)] at hspaced
    exact ⟨mid, rest, hbar, hmid, hspaced⟩
  · rintro ⟨mid, rest, hbar, hmid, hspaced⟩
    rw [← endsBlank_append (a := a) (hne hbar)] at hspaced
    refine ⟨a ++ mid, rest, by rw [hbar, List.append_assoc], ?_, hspaced⟩
    exact (ha.toIsClosed.isOutside_append mid).mpr hmid

/-- The first outer bar has a blank beside it, or a later one has. -/
theorem IsGuarded.hasSpacedBar_append_bar {a t : Text} (ha : IsGuarded a) :
    HasSpacedBar (a ++ '|' :: t) ↔ (EndsBlank a ∨ StartsBlank t) ∨ HasSpacedBar t := by
  have hclosed : IsClosed (a ++ ['|']) := ha.toIsClosed.append
    (isClosed_of_plain (List.forall_mem_singleton.mpr rfl))
  have hends (mid : Text) : EndsBlank (a ++ '|' :: mid) ↔ EndsBlank mid := by
    rw [endsBlank_append (List.cons_ne_nil _ _)]
    cases mid with
    | nil => simp [EndsBlank, isBlank]
    | cons c mid => rfl
  constructor
  · rintro ⟨before, rest, hsplit, houtside, hspaced⟩
    obtain ⟨mid, rfl, hbar, hmid⟩ := ha.outer_bar hsplit houtside
    obtain ⟨rfl, hrest⟩ | ⟨mid', rfl, ht⟩ := List.cons_eq_append_iff.mp hbar
    · obtain rfl : rest = t := (List.cons.inj hrest).2
      rw [List.append_nil] at hspaced
      exact Or.inl hspaced
    · rw [hends] at hspaced
      refine Or.inr ⟨mid', rest, ht, ?_, hspaced⟩
      rwa [List.append_cons, hclosed.isOutside_append] at houtside
  · rintro (hspaced | ⟨mid, rest, rfl, hmid, hspaced⟩)
    · exact ⟨a, t, rfl, ha.returns {} rfl, hspaced⟩
    · rw [← hends] at hspaced
      refine ⟨a ++ '|' :: mid, rest, by simp, ?_, hspaced⟩
      rw [List.append_cons, hclosed.isOutside_append]
      exact hmid

end Text

end LuaStubs
