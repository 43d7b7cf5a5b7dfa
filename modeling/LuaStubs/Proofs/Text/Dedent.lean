import LuaStubs.Proofs.Text.NormalForm
import Mathlib.Data.List.Forall2

namespace LuaStubs.Text

section Shared
variable {ls : List Text} {p q : Text}

/--
White space that every line with something on it begins with, and the longest such; no white space
if there is no such line.
-/
structure IsSharedIndentation (ls : List Text) (p : Text) : Prop where
  white : isWhite p = true
  shared : ∀ l ∈ ls, isWhite l = false → p <+: l
  longest : (∃ l ∈ ls, isWhite l = false) → ∀ q, isWhite q = true →
    (∀ l ∈ ls, isWhite l = false → q <+: l) → q.length ≤ p.length
  absent : (∀ l ∈ ls, isWhite l = true) → p = []

theorem isSharedIndentation_sharedIndentation (ls : List Text) :
    IsSharedIndentation ls (sharedIndentation ls) where
  white := isWhite_sharedIndentation ls
  shared _ hl hw := sharedIndentation_prefix hl hw
  longest hne _ hq hall := (prefix_sharedIndentation hq hne hall).length_le
  absent := sharedIndentation_of_white

theorem IsSharedIndentation.unique (hp : IsSharedIndentation ls p)
    (hq : IsSharedIndentation ls q) : q = p := by
  by_cases hne : ∃ l ∈ ls, isWhite l = false
  · have hlength : q.length = p.length := Nat.le_antisymm
      (hp.longest hne q hq.white hq.shared) (hq.longest hne p hp.white hp.shared)
    obtain ⟨l, hl, hw⟩ := hne
    -- both are fronts of one line
    have hpre : q <+: p := List.prefix_of_prefix_length_le (hq.shared l hl hw) (hp.shared l hl hw)
      (Nat.le_of_eq hlength)
    exact hpre.eq_of_length hlength
  · have hall : ∀ l ∈ ls, isWhite l = true := by simpa using hne
    rw [hp.absent hall, hq.absent hall]

theorem isSharedIndentation_iff : IsSharedIndentation ls p ↔ p = sharedIndentation ls := by
  constructor
  · exact (isSharedIndentation_sharedIndentation ls).unique
  · rintro rfl
    exact isSharedIndentation_sharedIndentation ls

/-- White space in front of all lines is shared in addition. -/
theorem IsSharedIndentation.map_append {w : Text} (h : IsSharedIndentation ls p)
    (hw : isWhite w = true) (hne : ∃ l ∈ ls, isWhite l = false) :
    IsSharedIndentation (ls.map (w ++ ·)) (w ++ p) := by
  have hvisible (l : Text) : isWhite (w ++ l) = isWhite l := by simp [isWhite_append, hw]
  obtain ⟨m, hm, hmw⟩ := hne
  refine ⟨by rw [hvisible, h.white], ?_, ?_, ?_⟩
  · intro l hl hlw
    obtain ⟨k, hk, rfl⟩ := List.mem_map.mp hl
    rw [hvisible] at hlw
    exact (List.prefix_append_right_inj w).mpr (h.shared k hk hlw)
  · intro _ q hq hall
    have hall : ∀ l ∈ ls, isWhite l = false → q <+: w ++ l := by
      intro l hl hlw
      exact hall (w ++ l) (List.mem_map_of_mem hl) (by rw [hvisible, hlw])
    rw [List.length_append]
    by_cases hshort : q.length ≤ w.length
    · omega
    · -- a longer one begins with the white space, and what follows is shared without it
      have hwq : w <+: q := List.prefix_of_prefix_length_le (List.prefix_append w m)
        (hall m hm hmw) (by omega)
      obtain ⟨r, rfl⟩ := hwq
      have hr : r.length ≤ p.length := by
        apply h.longest ⟨m, hm, hmw⟩ r (by rwa [hvisible] at hq)
        intro l hl hlw
        exact (List.prefix_append_right_inj w).mp (hall l hl hlw)
      rw [List.length_append]
      omega
  · intro hall
    have hmw' := hall (w ++ m) (List.mem_map_of_mem hm)
    rw [hvisible, hmw] at hmw'
    cases hmw'

end Shared

section Segments
variable {ls : List Text} {p l s : Text}

/-- What is left of a line: all after the indentation, and nothing of a white line without it. -/
structure IsSegment (p l s : Text) : Prop where
  indented : p <+: l → l = p ++ s
  white : ¬p <+: l → isWhite l = true ∧ s = []

theorem after?_append (w p l : Text) : after? (w ++ p) (w ++ l) = after? p l := by
  induction w with
  | nil => rfl
  | cons c w ih => simpa [after?] using ih

theorem stripIndentation_append (p l : Text) : stripIndentation p (p ++ l) = l := by
  have hafter : after? p (p ++ l) = some l := by
    simpa [after?] using after?_append p [] l
  simp [stripIndentation, hafter]

/-- White space in front of the indentation and of the line has no part in what is left. -/
theorem stripIndentation_append_append {w : Text} (hw : isWhite w = true) (p l : Text) :
    stripIndentation (w ++ p) (w ++ l) = stripIndentation p l := by
  have htrim : trimStart (w ++ l) = trimStart l :=
    List.dropWhile_append_of_pos ((isWhite_iff w).mp hw)
  rw [stripIndentation, stripIndentation, after?_append, htrim]

theorem IsSharedIndentation.isSegment (h : IsSharedIndentation ls p) (hl : l ∈ ls) :
    IsSegment p l (stripIndentation p l) := by
  constructor
  · rintro ⟨s, rfl⟩
    rw [stripIndentation_append]
  · intro hp
    have hwhite : isWhite l = true := by
      by_contra hw
      exact hp (h.shared l hl (by simpa using hw))
    have hnone : after? p l = none := by
      rw [← Option.not_isSome_iff_eq_none, isSome_after?_iff]
      exact hp
    refine ⟨hwhite, ?_⟩
    simp only [stripIndentation, hnone, trimStart_eq_nil_iff, hwhite]

theorem indentation_append (hp : isWhite p = true) (s : Text) :
    indentation (p ++ s) = p ++ indentation s :=
  List.takeWhile_append_of_pos ((isWhite_iff p).mp hp)

end Segments

section Indented

/-- Texts are given line by line: each line but the last is ended. -/
theorem line_induction {motive : Text → Prop} (last : ∀ l, '\n' ∉ l → motive l)
    (line : ∀ l t, '\n' ∉ l → motive t → motive (l ++ '\n' :: t)) (t : Text) : motive t := by
  have hparts : ∀ ls : List Text, ls ≠ [] → (∀ l ∈ ls, '\n' ∉ l) →
      motive (['\n'].intercalate ls) := by
    intro ls hne hn
    induction ls with
    | nil => exact absurd rfl hne
    | cons l ls ih =>
      rw [List.forall_mem_cons] at hn
      cases ls with
      | nil =>
        rw [List.intercalate_singleton]
        exact last l hn.1
      | cons m ls =>
        rw [List.intercalate_cons_cons, List.append_assoc]
        exact line l _ hn.1 (ih (by simp) hn.2)
  have hjoin : ['\n'].intercalate (t.splitOn '\n') = t := List.intercalate_splitOn '\n'
  rw [← hjoin]
  exact hparts _ (List.splitOn_ne_nil '\n' t) fun l hl => not_mem_of_mem_splitOn hl

theorem lines_of_not_mem {l : Text} (h : '\n' ∉ l) : lines l = if l = [] then [] else [l] := by
  rw [lines, List.splitOn_eq_singleton h, terminated]

theorem lines_append_newline {l : Text} (h : '\n' ∉ l) (t : Text) :
    lines (l ++ '\n' :: t) = dropReturn l :: lines t := by
  rw [lines, List.splitOn_append_cons_self, List.splitOn_eq_singleton h, lines]
  cases hparts : t.splitOn '\n' with
  | nil => exact absurd hparts (List.splitOn_ne_nil '\n' t)
  | cons m ms => rfl

/-- A text with `w` in front of every character that a line begins with. -/
def indentFrom (w : Text) (atStart : Bool) : Text → Text
  | [] => []
  | c :: t => (if atStart then w else []) ++ c :: indentFrom w (c == '\n') t

def indentLines (w t : Text) : Text := indentFrom w true t

variable {w : Text}

theorem indentFrom_cons {c : Char} (hc : c ≠ '\n') (atStart : Bool) (t : Text) :
    indentFrom w atStart (c :: t) = (if atStart then w else []) ++ c :: indentFrom w false t := by
  rw [indentFrom, beq_false_of_ne hc]

theorem indentFrom_false {l : Text} (h : '\n' ∉ l) (t : Text) :
    indentFrom w false (l ++ t) = l ++ indentFrom w false t := by
  induction l with
  | nil => rfl
  | cons c l ih =>
    rw [List.mem_cons, not_or] at h
    rw [List.cons_append, indentFrom_cons (Ne.symm h.1), ih h.2]
    rfl

/-- Up to its end, a line that holds something is indented at its front alone. -/
theorem indentLines_append {l : Text} (hne : l ≠ []) (h : '\n' ∉ l) (t : Text) :
    indentLines w (l ++ t) = w ++ l ++ indentFrom w false t := by
  obtain ⟨c, l, rfl⟩ := List.exists_cons_of_ne_nil hne
  rw [List.mem_cons, not_or] at h
  rw [indentLines, List.cons_append, indentFrom_cons (Ne.symm h.1), indentFrom_false h.2]
  simp

theorem indentLines_of_not_mem {l : Text} (h : '\n' ∉ l) :
    indentLines w l = if l = [] then [] else w ++ l := by
  split
  · next hl => rw [hl]; rfl
  · next hl => simpa [indentFrom] using indentLines_append hl h []

theorem indentLines_append_newline {l : Text} (h : '\n' ∉ l) (t : Text) :
    indentLines w (l ++ '\n' :: t) = w ++ l ++ '\n' :: indentLines w t := by
  by_cases hl : l = []
  · simp [hl, indentLines, indentFrom]
  · rw [indentLines_append hl h]
    rfl

theorem lines_indentLines (hn : '\n' ∉ w) (hr : w.getLast? ≠ some '\r') (t : Text) :
    lines (indentLines w t) = (lines t).map (w ++ ·) := by
  induction t using line_induction with
  | last l h =>
    have hwl : '\n' ∉ w ++ l := by simp [hn, h]
    rw [indentLines_of_not_mem h, lines_of_not_mem h]
    by_cases hl : l = []
    · simp [hl, lines, terminated]
    · simp [hl, lines_of_not_mem hwl]
  | line l t h ih =>
    have hwl : '\n' ∉ w ++ l := by simp [hn, h]
    rw [indentLines_append_newline h, lines_append_newline hwl, lines_append_newline h,
      dropReturn_append hr, ih, List.map_cons]

/-- A text that is indented as a whole is dedented as before. -/
theorem dedent_indentLines (hw : ∀ c ∈ w, isBlank c = true) {t : Text}
    (hne : ∃ l ∈ lines t, isWhite l = false) : dedent (indentLines w t) = dedent t := by
  have hn : '\n' ∉ w := fun hc => absurd (hw '\n' hc) (by decide)
  have hr : w.getLast? ≠ some '\r' := by
    intro hlast
    exact absurd (hw '\r' (List.mem_of_getLast? hlast)) (by decide)
  have hwhite : isWhite w = true := (isWhite_iff w).mpr fun c hc => isSpace_of_isBlank (hw c hc)
  have hshared : sharedIndentation ((lines t).map (w ++ ·)) = w ++ sharedIndentation (lines t) :=
    (isSharedIndentation_iff.mp
      ((isSharedIndentation_sharedIndentation (lines t)).map_append hwhite hne)).symm
  rw [dedent, dedent, lines_indentLines hn hr, hshared, List.map_map]
  congr 2
  funext l
  exact stripIndentation_append_append hwhite _ l

end Indented

/--
The longest white space that all lines with something on them begin with is taken off each line that
begins with it; any other line is white, and nothing of it is left. So lines with something on them
keep their indentation relative to each other, and blanks in front of all lines have no effect.
-/
theorem dedent_segments (t : Text) : ∃ p, (∀ q, IsSharedIndentation (lines t) q ↔ q = p) ∧
    (∃ segments, dedent t = ['\n'].intercalate segments ∧
      List.Forall₂ (IsSegment p) (lines t) segments ∧
      (∀ x ∈ (lines t).zip segments, isWhite x.1 = false → x.1 = p ++ x.2) ∧
      ∀ x ∈ (lines t).zip segments, ∀ y ∈ (lines t).zip segments,
        isWhite x.1 = false → isWhite y.1 = false →
        ∀ r, indentation y.1 = indentation x.1 ++ r ↔ indentation y.2 = indentation x.2 ++ r) ∧
    ∀ w, (∀ c ∈ w, isBlank c = true) → (∃ l ∈ lines t, isWhite l = false) →
      dedent (indentLines w t) = dedent t := by
  have hshared := isSharedIndentation_sharedIndentation (lines t)
  have hsegments : List.Forall₂ (IsSegment (sharedIndentation (lines t))) (lines t)
      ((lines t).map (stripIndentation (sharedIndentation (lines t)))) := by
    rw [List.forall₂_map_right_iff, List.forall₂_same]
    intro l hl
    exact hshared.isSegment hl
  have hvisible : ∀ x ∈ (lines t).zip
      ((lines t).map (stripIndentation (sharedIndentation (lines t)))), isWhite x.1 = false →
      x.1 = sharedIndentation (lines t) ++ x.2 := by
    intro x hx hw
    have hsegment := List.forall₂_zip hsegments hx
    exact hsegment.indented (hshared.shared x.1 (List.of_mem_zip hx).1 hw)
  refine ⟨sharedIndentation (lines t), fun q => isSharedIndentation_iff,
    ⟨_, rfl, hsegments, hvisible, ?_⟩, fun w hw hne => dedent_indentLines hw hne⟩
  intro x hx y hy hxw hyw r
  rw [hvisible x hx hxw, hvisible y hy hyw, indentation_append hshared.white,
    indentation_append hshared.white, List.append_assoc, List.append_right_inj]

end LuaStubs.Text
