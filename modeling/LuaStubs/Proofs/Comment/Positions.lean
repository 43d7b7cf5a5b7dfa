import LuaStubs.Proofs.Comment.Progress
import Mathlib.Data.Prod.Lex

namespace LuaStubs

/-- By line, then by column. -/
instance : LinearOrder Position :=
  LinearOrder.lift' (fun p => toLex (p.line, p.column)) fun p q h => by
    cases p
    cases q
    simpa using h

namespace Position
variable {p q : Position}

theorem le_iff : p ≤ q ↔ p.line < q.line ∨ p.line = q.line ∧ p.column ≤ q.column := Prod.Lex.le_iff

theorem lt_iff : p < q ↔ p.line < q.line ∨ p.line = q.line ∧ p.column < q.column := Prod.Lex.lt_iff

/-- The place between two parts of a line. -/
structure Splits (p : Position) (ls : List Text) (before after : Text) : Prop where
  line_pos : 0 < p.line
  line : ls[p.line - 1]? = some (before ++ after)
  column : p.column = before.length + 1

end Position

/-- A `///` line: blanks, three slashes exactly, and a text. -/
def Text.IsDocLine (line : Text) : Prop := ∃ indent text : Text,
  line = indent ++ ("///".toList ++ text) ∧ (∀ c ∈ indent, isBlank c = true) ∧
    text.head? ≠ some '/'

namespace Comment

/-- From `/***` to the end of `*/`. -/
structure IsBlock (ls : List Text) (start stop : Position) : Prop where
  opens : ∃ before after, start.Splits ls before ("/***".toList ++ after)
  closes : ∃ before after, stop.Splits ls (before ++ "*/".toList) after

/-- From the slashes of the first of some `///` lines to the end of the last one. -/
structure IsRun (ls : List Text) (start stop : Position) : Prop where
  opens : ∃ before after, start.Splits ls before ("///".toList ++ after)
  ends : ∃ line, stop.Splits ls line []
  le : start.line ≤ stop.line
  docLines : ∀ n, start.line ≤ n → n ≤ stop.line → ∃ l, ls[n - 1]? = some l ∧ l.IsDocLine

/-- A comment whose positions are those of its marks. -/
structure IsExact (ls : List Text) (c : Comment) : Prop where
  lt : c.start < c.stop
  marks : IsBlock ls c.start c.stop ∨ IsRun ls c.start c.stop

end Comment

namespace Scan

theorem docLine?_eq_some {l t : Text} {col : Nat} (h : docLine? l = some (col, t)) :
    ∃ indent, l = indent ++ ("///".toList ++ t) ∧ (∀ c ∈ indent, Text.isBlank c = true) ∧
      t.head? ≠ some '/' ∧ col = indent.length + 1 := by
  unfold docLine? at h
  split at h
  · next rest hrest =>
    split at h
    · cases h
    · next hslash =>
      obtain ⟨rfl, rfl⟩ := Prod.mk.inj (Option.some.inj h)
      refine ⟨l.takeWhile Text.isBlank, ?_, fun c hc => List.mem_takeWhile_imp hc, hslash, rfl⟩
      conv_lhs => rw [← List.takeWhile_append_dropWhile (p := Text.isBlank) (l := l), hrest]
      rfl
  · cases h

/-- A block that is open and of which some has been read, after all comments that are closed. -/
structure OpenBlock (ls : List Text) (here start : Position) (closed : List Comment) : Prop where
  opens : ∃ before after, start.Splits ls before ("/***".toList ++ after)
  lt : start < here
  behind : ∀ c ∈ closed, c.stop ≤ start

/-- A run that has come to the line `last`, after all comments that are closed. -/
structure OpenRun (ls : List Text) (last : Nat) (here start lineEnd : Position)
    (closed : List Comment) : Prop where
  run : Comment.IsRun ls start lineEnd
  lt : start < lineEnd
  last : lineEnd.line = last
  le : lineEnd ≤ here
  behind : ∀ c ∈ closed, c.stop ≤ start

/-- What has been found up to `here` is in its place; `last` is the line that was read last. -/
structure Placed (ls : List Text) (last : Nat) (here : Position) (s : Scan) : Prop where
  exact : ∀ c ∈ s.closed, c.IsExact ls
  ordered : s.closed.Pairwise fun c d => d.stop ≤ c.start
  behind : ∀ c ∈ s.closed, c.stop ≤ here
  quiet : ∀ w ∈ s.raised, ∀ p, w ≠ .unclosedComment p
  block : s.mode = .docBlock → OpenBlock ls here s.start s.closed
  run : s.mode = .docLine → OpenRun ls last here s.start s.lineEnd s.closed

section Placed
variable {ls : List Text} {last : Nat} {here there : Position} {s s' : Scan}

theorem placed_start (ls : List Text) (last : Nat) (here : Position) : Placed ls last here {} := by
  constructor <;> simp [mode]

theorem Placed.mono (h : Placed ls last here s) (hle : here ≤ there) : Placed ls last there s := by
  refine ⟨h.exact, h.ordered, fun c hc => (h.behind c hc).trans hle, h.quiet, ?_, ?_⟩
  · intro hm
    have hblock := h.block hm
    exact ⟨hblock.opens, hblock.lt.trans_le hle, hblock.behind⟩
  · intro hm
    have hrun := h.run hm
    exact ⟨hrun.run, hrun.lt, hrun.last, hrun.le.trans hle, hrun.behind⟩

theorem Placed.warn (h : Placed ls last here s) {ws : List Warning}
    (hws : ∀ w ∈ ws, ∀ p, w ≠ .unclosedComment p) : Placed ls last here (s.warn ws) := by
  refine ⟨h.exact, h.ordered, h.behind, ?_, h.block, h.run⟩
  intro w hw
  obtain hw | hw := List.mem_append.mp hw
  · exact hws w (List.mem_reverse.mp hw)
  · exact h.quiet w hw

theorem Placed.add (h : Placed ls last here s) (t : Text) : Placed ls last here (s.add t) :=
  ⟨h.exact, h.ordered, h.behind, h.quiet, h.block, h.run⟩

/-- Outside of doc comments there is nothing but what is closed. -/
theorem Placed.withModes (h : Placed ls last here s) {m : Mode} (ms : List Mode)
    (hm : m = .code ∨ m = .plainBlock) : Placed ls last here { s with modes := m :: ms } := by
  refine ⟨h.exact, h.ordered, h.behind, h.quiet, ?_, ?_⟩
  · obtain rfl | rfl := hm <;> simp [mode]
  · obtain rfl | rfl := hm <;> simp [mode]

/-- The line that was read last matters to runs only. -/
theorem Placed.of_last (h : Placed ls last here s) (hm : s.mode ≠ .docLine) (last' : Nat) :
    Placed ls last' here s :=
  ⟨h.exact, h.ordered, h.behind, h.quiet, h.block, fun hm' => absurd hm' hm⟩

/-- The comment at hand is closed where it ends. -/
theorem Placed.close (h : Placed ls last here s) {m : Mode} (hs : s.modes = [m, .code])
    {stop : Position} (hclose : s.close stop = .ok s') (hlt : s.start < stop)
    (hmarks : Comment.IsBlock ls s.start stop ∨ Comment.IsRun ls s.start stop)
    (hbehind : ∀ c ∈ s.closed, c.stop ≤ s.start) (hstop : stop ≤ there) (last' : Nat) :
    Placed ls last' there s' := by
  obtain ⟨s₁, hs₁, hmodes, hraised, hclosed⟩ := close_outermost hs stop
  obtain rfl := Except.ok.inj (hs₁.symm.trans hclose)
  have hmode := mode_eq hmodes
  refine ⟨?_, ?_, ?_, ?_, ?_, ?_⟩
  · rw [hclosed, List.forall_mem_cons]
    exact ⟨⟨hlt, hmarks⟩, h.exact⟩
  · rw [hclosed, List.pairwise_cons]
    exact ⟨hbehind, h.ordered⟩
  · rw [hclosed, List.forall_mem_cons]
    exact ⟨hstop, fun c hc => ((hbehind c hc).trans hlt.le).trans hstop⟩
  · rw [hraised]
    exact h.quiet
  · simp [hmode]
  · simp [hmode]

theorem Placed.openAt_docBlock (h : Placed ls last here s) (hlt : here < there)
    (hopens : ∃ before after, here.Splits ls before ("/***".toList ++ after)) :
    Placed ls last there (s.openAt .docBlock here) := by
  refine ⟨h.exact, h.ordered, fun c hc => (h.behind c hc).trans hlt.le, h.quiet, ?_, ?_⟩
  · intro _
    exact ⟨hopens, hlt, h.behind⟩
  · intro hm
    cases hm

/-- A run begins on a line of which nothing has been read. -/
theorem Placed.openAt_docLine {number col : Nat} {l t : Text}
    (h : Placed ls last ⟨number, 1⟩ s) (hnumber : 0 < number) (hl : ls[number - 1]? = some l)
    (hd : docLine? l = some (col, t)) :
    Placed ls number ⟨number, l.length + 1⟩
      ((s.openAt .docLine ⟨number, col⟩).addLine t ⟨number, l.length + 1⟩) := by
  obtain ⟨indent, hline, hblank, hslash, hcol⟩ := docLine?_eq_some hd
  have hlength : l.length = indent.length + (3 + t.length) := by
    rw [hline, List.length_append, List.length_append]
    rfl
  have hstart : (⟨number, 1⟩ : Position) ≤ ⟨number, col⟩ :=
    Position.le_iff.mpr (.inr ⟨rfl, by simp only; omega⟩)
  have hstop : (⟨number, col⟩ : Position) < ⟨number, l.length + 1⟩ :=
    Position.lt_iff.mpr (.inr ⟨rfl, by simp only; omega⟩)
  have hrun : Comment.IsRun ls ⟨number, col⟩ ⟨number, l.length + 1⟩ := by
    refine ⟨⟨indent, t, hnumber, hline ▸ hl, hcol⟩, ⟨l, hnumber, ?_, rfl⟩, Nat.le_refl _, ?_⟩
    · rw [hl, List.append_nil]
    · intro n hle hge
      obtain rfl : n = number := Nat.le_antisymm hge hle
      exact ⟨l, hl, indent, t, hline, hblank, hslash⟩
  have hbehind : ∀ c ∈ s.closed, c.stop ≤ ⟨number, col⟩ := fun c hc => (h.behind c hc).trans hstart
  refine ⟨h.exact, h.ordered, fun c hc => (hbehind c hc).trans hstop.le, h.quiet, ?_, ?_⟩
  · intro hm
    cases hm
  · intro _
    exact ⟨hrun, hstop, rfl, le_rfl, hbehind⟩

/-- A run goes on with the next line. -/
theorem Placed.addLine {number col : Nat} {l t : Text} (h : Placed ls last ⟨number, 1⟩ s)
    (hm : s.mode = .docLine) (hlast : last + 1 = number) (hl : ls[number - 1]? = some l)
    (hd : docLine? l = some (col, t)) :
    Placed ls number ⟨number, l.length + 1⟩ (s.addLine t ⟨number, l.length + 1⟩) := by
  obtain ⟨indent, hline, hblank, hslash, -⟩ := docLine?_eq_some hd
  have hopen := h.run hm
  have hbelow : s.lineEnd < ⟨number, l.length + 1⟩ := by
    rw [Position.lt_iff, hopen.last]
    exact .inl (by simp only; omega)
  have hrun : Comment.IsRun ls s.start ⟨number, l.length + 1⟩ := by
    have hle := hopen.run.le
    rw [hopen.last] at hle
    refine ⟨hopen.run.opens, ⟨l, by simp only; omega, ?_, rfl⟩, by simp only; omega, ?_⟩
    · rw [hl, List.append_nil]
    · -- the run has come to the line above, so no line between is left out
      intro n hstart hstop
      by_cases hn : n = number
      · rw [hn]
        exact ⟨l, hl, indent, t, hline, hblank, hslash⟩
      · apply hopen.run.docLines n hstart
        rw [hopen.last]
        simp only at hstop
        omega
  have hlt := hopen.lt.trans hbelow
  refine ⟨h.exact, h.ordered, fun c hc => (hopen.behind c hc).trans hlt.le, h.quiet, ?_, ?_⟩
  · intro hm'
    rw [show (s.addLine t ⟨number, l.length + 1⟩).mode = s.mode from rfl, hm] at hm'
    cases hm'
  · intro _
    exact ⟨hrun, hlt, rfl, le_rfl, hopen.behind⟩

theorem quiet_nestedOpeners (line col : Nat) (t : Text) :
    ∀ w ∈ nestedOpeners line col t, ∀ p, w ≠ .unclosedComment p := by
  induction t generalizing col with
  | nil => simp [nestedOpeners]
  | cons c t ih =>
    rw [nestedOpeners]
    split
    · rw [List.forall_mem_cons]
      exact ⟨by simp, ih (col + 1)⟩
    · exact ih (col + 1)

section Step
variable {number k : Nat} {taken rest : Text}

theorem Placed.codeStep (h : Placed ls number ⟨number, taken.length + 1⟩ s) (hnumber : 0 < number)
    (hl : ls[number - 1]? = some (taken ++ rest)) (hne : rest ≠ [])
    (hlt : (⟨number, taken.length + 1⟩ : Position) < ⟨number, taken.length + k + 1⟩)
    (hstep : codeStep number (taken.length + 1) rest s = (k, s')) :
    Placed ls number ⟨number, taken.length + k + 1⟩ s' := by
  obtain ⟨j, -, -, hj⟩ := codeStep_cases (taken.length + 1) hne
  cases hj with
  | pass hk =>
    obtain ⟨rfl, rfl⟩ := Prod.mk.inj ((hk number s).symm.trans hstep)
    exact h.mono hlt.le
  | stray hk =>
    obtain ⟨rfl, rfl⟩ := Prod.mk.inj ((hk number s).symm.trans hstep)
    exact (h.warn (by simp)).mono hlt.le
  | plainBlock hk =>
    obtain ⟨rfl, rfl⟩ := Prod.mk.inj ((hk number s).symm.trans hstep)
    exact (h.withModes s.modes (.inr rfl)).mono hlt.le
  | docBlock hmark hk =>
    obtain ⟨rfl, rfl⟩ := Prod.mk.inj ((hk number s).symm.trans hstep)
    obtain ⟨after, rfl⟩ := hmark
    exact h.openAt_docBlock hlt ⟨taken, after, hnumber, hl, rfl⟩
  | docLine slashes t hcol hwhole hline hk =>
    obtain ⟨rfl, rfl⟩ := Prod.mk.inj ((hk number s).symm.trans hstep)
    -- in the first column, nothing of the line is behind
    obtain rfl : taken = [] := List.eq_nil_of_length_eq_zero (by omega)
    rw [hwhole, List.length_nil, Nat.zero_add]
    exact h.openAt_docLine hnumber hl hline

theorem Placed.docBlockStep (h : Placed ls number ⟨number, taken.length + 1⟩ s) (hn : s.Nested)
    (hm : s.mode = .docBlock) (hnumber : 0 < number)
    (hl : ls[number - 1]? = some (taken ++ rest))
    (hlt : (⟨number, taken.length + 1⟩ : Position) < ⟨number, taken.length + k + 1⟩)
    (hstep : docBlockStep number (taken.length + 1) rest s = .ok (k, s')) :
    Placed ls number ⟨number, taken.length + k + 1⟩ s' := by
  have hopen := h.block hm
  unfold Scan.docBlockStep at hstep
  split at hstep
  · next inside hinside =>
    obtain ⟨rfl, hclose⟩ := eq_of_map_ok hstep
    obtain ⟨after, rfl⟩ := Text.before?_eq_some hinside
    have hadd := (h.warn (quiet_nestedOpeners number (taken.length + 1) inside)).add
      (Text.dropEndWhile (· == '*') inside)
    have hstop : taken.length + 1 + inside.length + 2 =
        taken.length + (inside.length + 2) + 1 := by omega
    rw [hstop] at hclose
    have hcloses : (⟨number, taken.length + (inside.length + 2) + 1⟩ : Position).Splits ls
        (taken ++ inside ++ "*/".toList) after := by
      refine ⟨hnumber, ?_, ?_⟩
      · rw [hl]
        simp only [List.append_assoc]
      · simp only [List.length_append]
        rfl
    exact hadd.close (hn.comment (by rw [hm]; decide)) hclose (hopen.lt.trans hlt)
      (.inl ⟨hopen.opens, _, _, hcloses⟩) hopen.behind le_rfl number
  · obtain ⟨rfl, rfl⟩ := Prod.mk.inj (Except.ok.inj hstep)
    exact ((h.warn (quiet_nestedOpeners number (taken.length + 1) rest)).add rest).mono hlt.le

/-- What a step finds is in its place. -/
theorem Placed.step (h : Placed ls number ⟨number, taken.length + 1⟩ s) (hn : s.Nested)
    (hnumber : 0 < number) (hl : ls[number - 1]? = some (taken ++ rest)) (hne : rest ≠ [])
    (hstep : s.step number (taken.length + 1) rest = .ok (k, s')) :
    Placed ls number ⟨number, (taken ++ rest.take k).length + 1⟩ s' := by
  obtain ⟨hpos, hle⟩ := hn.bounds_of_step hne hstep
  have hlength : (taken ++ rest.take k).length = taken.length + k := by
    rw [List.length_append, List.length_take_of_le hle]
  rw [hlength]
  have hlt : (⟨number, taken.length + 1⟩ : Position) < ⟨number, taken.length + k + 1⟩ :=
    Position.lt_iff.mpr (.inr ⟨rfl, by simp only; omega⟩)
  unfold Scan.step at hstep
  cases hm : s.mode with
  | code =>
    rw [hm] at hstep
    exact h.codeStep hnumber hl hne hlt (Except.ok.inj hstep)
  | docBlock =>
    rw [hm] at hstep
    exact h.docBlockStep hn hm hnumber hl hlt hstep
  | plainBlock =>
    simp only [hm, plainBlockStep] at hstep
    split at hstep
    · obtain ⟨-, hleave⟩ := eq_of_map_ok hstep
      rw [leave_outermost (hn.comment (by rw [hm]; decide))] at hleave
      obtain rfl := Except.ok.inj hleave
      exact (h.withModes [] (.inl rfl)).mono hlt.le
    · obtain ⟨-, rfl⟩ := Prod.mk.inj (Except.ok.inj hstep)
      exact h.mono hlt.le
  | docLine =>
    rw [hm] at hstep
    obtain ⟨-, rfl⟩ := Prod.mk.inj (Except.ok.inj hstep)
    exact h.mono hlt.le

end Step

/-- What each step keeps at its point of the line, the loop over the line keeps. -/
theorem steps_induction (number : Nat) {P : Text → Text → Scan → Prop}
    (hstep : ∀ taken rest s k s', s.Nested → P taken rest s → rest ≠ [] →
      s.step number (taken.length + 1) rest = .ok (k, s') →
        P (taken ++ rest.take k) (rest.drop k) s')
    {taken rest : Text} {s s' : Scan} (hn : s.Nested) (h : P taken rest s)
    (hs : steps number (taken.length + 1) 0 rest s = .ok s') : P (taken ++ rest) [] s' := by
  by_cases hne : rest = []
  · subst hne
    rw [steps] at hs
    obtain rfl := Except.ok.inj hs
    rwa [List.append_nil]
  · obtain ⟨k, s₁, hk, hpos, hle, hn₁⟩ := hn.step number (taken.length + 1) hne
    have h₁ := hstep taken rest s k s₁ hn h hne hk
    have hcol : taken.length + 1 + k = (taken ++ rest.take k).length + 1 := by
      rw [List.length_append, List.length_take_of_le hle]
      omega
    rw [steps_step hne hpos hk, hcol] at hs
    have hshorter : (rest.drop k).length < rest.length := by
      rw [List.length_drop]
      omega
    have hrest := steps_induction number hstep hn₁ h₁ hs
    rwa [List.append_assoc, List.take_append_drop] at hrest
termination_by rest.length

theorem Placed.steps {number : Nat} {taken rest : Text}
    (h : Placed ls number ⟨number, taken.length + 1⟩ s) (hn : s.Nested) (hnumber : 0 < number)
    (hl : ls[number - 1]? = some (taken ++ rest))
    (hs : steps number (taken.length + 1) 0 rest s = .ok s') :
    Placed ls number ⟨number, (taken ++ rest).length + 1⟩ s' := by
  have hstep (taken rest : Text) (s : Scan) (k : Nat) (s' : Scan) (hn : s.Nested)
      (h : ls[number - 1]? = some (taken ++ rest) ∧
        Placed ls number ⟨number, taken.length + 1⟩ s) (hne : rest ≠ [])
      (hs : s.step number (taken.length + 1) rest = .ok (k, s')) :
      ls[number - 1]? = some (taken ++ rest.take k ++ rest.drop k) ∧
        Placed ls number ⟨number, (taken ++ rest.take k).length + 1⟩ s' := by
    refine ⟨?_, h.2.step hn hnumber h.1 hne hs⟩
    rw [h.1, List.append_assoc, List.take_append_drop]
  exact (steps_induction number hstep hn ⟨hl, h⟩ hs).2

section Lines
variable {number : Nat} {l : Text}

/-- A run that has ended is in its place. -/
theorem Placed.beforeLine (h : Placed ls last here s) (hn : s.Nested) (hs : s.beforeLine = .ok s')
    (last' : Nat) : Placed ls last' here s' := by
  unfold Scan.beforeLine at hs
  split at hs
  · next hm =>
    have hopen := h.run hm
    exact h.close (hn.comment (by rw [hm]; decide)) hs hopen.lt (.inr hopen.run) hopen.behind
      hopen.le last'
  · next hm =>
    obtain rfl := Except.ok.inj hs
    exact h.of_last hm last'

theorem Placed.endLine (h : Placed ls last here s) : Placed ls last here s.endLine := by
  unfold Scan.endLine
  split
  · exact h.add ['\n']
  · exact h

theorem Placed.freshLine (h : Placed ls number ⟨number, 1⟩ s) (hn : s.Nested) (hnumber : 0 < number)
    (hl : ls[number - 1]? = some l) (hs : s.freshLine number l = .ok s') :
    Placed ls number ⟨number, l.length + 1⟩ s' := by
  rw [freshLine_eq] at hs
  generalize s.margin l = m at hs
  have hline : l.take m ++ l.drop m = l := List.take_append_drop m l
  have hmargin : (⟨number, 1⟩ : Position) ≤ ⟨number, (l.take m).length + 1⟩ :=
    Position.le_iff.mpr (.inr ⟨rfl, Nat.le_add_left 1 _⟩)
  obtain ⟨s₁, hs₁, -⟩ := hn.steps number ((l.take m).length + 1) 0 (l.drop m)
  have h₁ := (h.mono hmargin).steps hn hnumber (hline.symm ▸ hl) hs₁
  rw [hs₁] at hs
  obtain rfl := Except.ok.inj hs
  rw [hline] at h₁
  exact h₁.endLine

/-- What a line holds is in its place. -/
theorem Placed.line (h : Placed ls last ⟨number, 1⟩ s) (hn : s.Nested) (hlast : last + 1 = number)
    (hl : ls[number - 1]? = some l) (hs : s.line number l = .ok s') :
    Placed ls number ⟨number + 1, 1⟩ s' := by
  have hnext : (⟨number, l.length + 1⟩ : Position) ≤ ⟨number + 1, 1⟩ :=
    Position.le_iff.mpr (.inl (Nat.lt_succ_self number))
  by_cases hrun : s.mode = .docLine → docLine? l = none
  · obtain ⟨s₁, hs₁, hn₁⟩ := hn.beforeLine
    rw [line_of_fresh hrun hs₁] at hs
    have h₁ := h.beforeLine hn hs₁ number
    exact (h₁.freshLine hn₁ (by omega) hl hs).mono hnext
  · obtain ⟨hm, hd⟩ := Classical.not_imp.mp hrun
    obtain ⟨p, hp⟩ := Option.ne_none_iff_exists'.mp hd
    rw [Scan.line, if_pos hm, hp] at hs
    obtain rfl := Except.ok.inj hs
    exact (h.addLine hm hlast hl hp).mono hnext

/-- What all lines hold is in its place. -/
theorem Placed.lines {above below : List Text}
    (h : Placed (above ++ below) above.length ⟨above.length + 1, 1⟩ s) (hn : s.Nested)
    (hs : lines (above.length + 1) below s = .ok s') :
    Placed (above ++ below) (above ++ below).length ⟨(above ++ below).length + 1, 1⟩ s' := by
  induction below generalizing above s with
  | nil =>
    obtain rfl := Except.ok.inj hs
    rwa [List.append_nil] at h ⊢
  | cons l below ih =>
    obtain ⟨s₁, hs₁, hn₁⟩ := hn.line (above.length + 1) l
    have h₁ := h.line hn rfl (by simp) hs₁
    rw [lines_cons, hs₁] at hs
    have hsplit : above ++ l :: below = above ++ [l] ++ below := by simp
    have hlength : above.length + 1 = (above ++ [l]).length := by simp
    rw [hsplit] at h₁ ⊢
    rw [hlength] at h₁
    exact ih h₁ hn₁ (hlength ▸ hs)

/-- At the end of a source, a run is closed and a block is given up. -/
theorem Placed.finish (h : Placed ls last here s) (hn : s.Nested) (hs : s.finish = .ok s') :
    (∀ c ∈ s'.closed, c.IsExact ls) ∧ (s'.closed.Pairwise fun c d => d.stop ≤ c.start) ∧
    ∃ early, (∀ w ∈ early, ∀ p, w ≠ .unclosedComment p) ∧
      (s'.raised = early ∨ ∃ start, s'.raised = .unclosedComment start :: early ∧
        OpenBlock ls here start s'.closed) := by
  cases hm : s.mode with
  | docLine =>
    have hopen := h.run hm
    simp only [Scan.finish, hm] at hs
    have h' := h.close (hn.comment (by rw [hm]; decide)) hs hopen.lt (.inr hopen.run) hopen.behind
      hopen.le last
    exact ⟨h'.exact, h'.ordered, s'.raised, h'.quiet, .inl rfl⟩
  | docBlock =>
    simp only [Scan.finish, hm] at hs
    obtain rfl := Except.ok.inj hs
    exact ⟨h.exact, h.ordered, s.raised, h.quiet, .inr ⟨s.start, rfl, h.block hm⟩⟩
  | plainBlock | code =>
    simp only [Scan.finish, hm] at hs
    obtain rfl := Except.ok.inj hs
    exact ⟨h.exact, h.ordered, s.raised, h.quiet, .inl rfl⟩

end Lines

end Placed

end Scan

namespace Comment

/--
The comments of a source stand where they are said to, one after the other. Only the last warning
can be that a block is never closed, and that block opens after all comments.
-/
theorem scan_placed (source : Text) : ∃ cs ws, scan source = .ok (cs, ws) ∧
    (∀ c ∈ cs, c.IsExact (Text.sourceLines source)) ∧
    (cs.Pairwise fun c d => c.stop ≤ d.start) ∧
    ∃ early, (∀ w ∈ early, ∀ p, w ≠ .unclosedComment p) ∧
      (ws = early ∨ ∃ start before after, ws = early ++ [.unclosedComment start] ∧
        start.Splits (Text.sourceLines source) before ("/***".toList ++ after) ∧
        ∀ c ∈ cs, c.stop ≤ start) := by
  obtain ⟨s, s', hs, hn, hfinish, hscan⟩ := Scan.exists_scan source
  have hstart : Scan.Placed ([] ++ Text.sourceLines source) ([] : List Text).length ⟨1, 1⟩ {} :=
    Scan.placed_start _ _ _
  have hplaced := hstart.lines Scan.nested_start hs
  rw [List.nil_append] at hplaced
  obtain ⟨hexact, hordered, early, hquiet, hraised⟩ := hplaced.finish hn hfinish
  refine ⟨_, _, hscan, ?_, List.pairwise_reverse.mpr hordered, early.reverse, ?_, ?_⟩
  · intro c hc
    exact hexact c (List.mem_reverse.mp hc)
  · intro w hw
    exact hquiet w (List.mem_reverse.mp hw)
  · obtain hraised | ⟨start, hraised, hopen⟩ := hraised
    · exact .inl (congrArg List.reverse hraised)
    · obtain ⟨before, after, hopens⟩ := hopen.opens
      refine .inr ⟨start, before, after, ?_, hopens, ?_⟩
      · rw [Scan.warnings, hraised, List.reverse_cons]
      · intro c hc
        exact hopen.behind c (List.mem_reverse.mp hc)

end Comment

end LuaStubs
