import LuaStubs.Comment.Scanner
import LuaStubs.Proofs.Text.NormalForm

namespace LuaStubs

open Text (indented normalForm IsNormal)

namespace Comment

/-- A line of a doc block. -/
def starred (line : Text) : Text := " *" ++ indented line

/-- A doc line. -/
def slashed (line : Text) : Text := "///" ++ indented line

/-- A text as a doc block. -/
def blockForm (t : Text) : Text :=
  "/***\n" ++ ((t.splitOn '\n').map (starred · ++ "\n")).flatten ++ " */\n"

/-- A text as a run of doc lines. -/
def lineForm (t : Text) : Text := List.intercalate "\n" ((t.splitOn '\n').map slashed)

end Comment

namespace Scan

open Comment (starred slashed)

theorem steps_skipped (n col skip : Nat) (t : Text) (s : Scan) (h : t.length ≤ skip) :
    steps n col skip t s = .ok s := by
  induction t generalizing col skip with
  | nil => rw [steps]
  | cons c t ih =>
    cases skip with
    | zero => simp at h
    | succ skip => exact ih (col + 1) skip (Nat.le_of_succ_le_succ h)

/-- A step that takes the rest of a line is its last. -/
theorem steps_of_step {n col : Nat} {t : Text} {s s' : Scan} (ht : t ≠ [])
    (h : s.step n col t = .ok (t.length, s')) : steps n col 0 t s = .ok s' := by
  cases t with
  | nil => exact absurd rfl ht
  | cons c t =>
    rw [steps, h]
    exact steps_skipped n (col + 1) _ t s' (by simp)

theorem lines_singleton (n : Nat) (l : Text) (s : Scan) : lines n [l] s = s.line n l := by
  rw [lines]
  cases s.line n l <;> rfl

theorem lines_append (n : Nat) (ls ms : List Text) (s : Scan) :
    lines n (ls ++ ms) s = (lines n ls s).bind (lines (n + ls.length) ms) := by
  induction ls generalizing n s with
  | nil => rfl
  | cons l ls ih =>
    rw [List.cons_append, lines, lines]
    cases s.line n l with
    | error e => rfl
    | ok s' =>
      simp only [ih, List.length_cons]
      rw [show n + 1 + ls.length = n + (ls.length + 1) by omega]

theorem mode_eq {s : Scan} {m : Mode} {ms : List Mode} (h : s.modes = m :: ms) : s.mode = m := by
  rw [mode, h]
  rfl

/-- Inside a doc block that began with the source. -/
structure InBlock (s : Scan) (body : Text) : Prop where
  modes : s.modes = [.docBlock, .code]
  start : s.start = ⟨1, 1⟩
  closed : s.closed = []
  body : s.body = body

theorem open_block : ∃ s, line 1 "/***" {} = .ok s ∧ InBlock s ['\n'] :=
  ⟨_, rfl, rfl, rfl, rfl, rfl⟩

theorem InBlock.add {s : Scan} {b : Text} (h : InBlock s b) (ws : List Warning) (t : Text) :
    InBlock ((s.warn ws).add t) (b ++ t) := by
  refine ⟨h.modes, h.start, h.closed, ?_⟩
  rw [body_add, ← h.body]
  rfl

theorem step_inside {s : Scan} (hm : s.mode = .docBlock) {t : Text}
    (ht : Text.before? "*/" t = none) (n col : Nat) :
    s.step n col t = .ok (t.length, (s.warn (nestedOpeners n col t)).add t) := by
  rw [step, hm]
  unfold docBlockStep
  rw [ht]

theorem before?_closer_indented {l : Text} (hl : ¬"*/".toList <:+: l) :
    Text.before? "*/" (indented l) = none := by
  apply Text.before?_eq_none
  unfold indented
  split
  · next h => rwa [← h]
  · intro hi
    obtain hp | hi := List.infix_cons_iff.mp hi
    · exact absurd (List.cons_prefix_cons.mp hp).1 (by decide)
    · exact hl hi

theorem InBlock.line_inside {s : Scan} {b l : Text} (h : InBlock s b) (hl : ¬"*/".toList <:+: l)
    (n : Nat) :
    ∃ s', s.line n (starred l) = .ok s' ∧ InBlock s' (b ++ (indented l ++ ['\n'])) := by
  have hmode := mode_eq h.modes
  have hdec : decoration (starred l) = 2 := by
    unfold starred indented
    split <;> rfl
  have hsteps : ∃ s', steps n 3 0 (indented l) s = .ok s' ∧ InBlock s' (b ++ indented l) := by
    by_cases hnil : indented l = []
    · rw [hnil, List.append_nil]
      exact ⟨s, rfl, h⟩
    · exact ⟨_, steps_of_step hnil (step_inside hmode (before?_closer_indented hl) n 3), h.add _ _⟩
  obtain ⟨s', hs', h'⟩ := hsteps
  have hskip : steps n 1 2 (starred l) s = .ok s' := hs'
  refine ⟨s'.add ['\n'], ?_, ?_⟩
  · rw [line, if_neg (by rw [hmode]; decide), freshLine, hdec, if_pos hmode, hskip]
    simp only [Except.map, mode_eq h'.modes, if_true]
  · rw [← List.append_assoc]
    exact h'.add [] ['\n']

/-- Through the lines of a block, the text after the stars is gathered. -/
theorem InBlock.lines_inside {s : Scan} {b : Text} (h : InBlock s b) (ls : List Text)
    (hls : ∀ l ∈ ls, ¬"*/".toList <:+: l) (n : Nat) :
    ∃ s', lines n (ls.map starred) s = .ok s' ∧
      InBlock s' (b ++ (ls.map (indented · ++ ['\n'])).flatten) := by
  induction ls generalizing s b n with
  | nil => exact ⟨s, rfl, by simpa using h⟩
  | cons l ls ih =>
    obtain ⟨s₁, hs₁, h₁⟩ := h.line_inside (hls l (by simp)) n
    obtain ⟨s₂, hs₂, h₂⟩ := ih h₁ (fun m hm => hls m (List.mem_cons_of_mem l hm)) (n + 1)
    refine ⟨s₂, ?_, by simpa using h₂⟩
    rw [List.map_cons, lines, hs₁]
    exact hs₂

/-- A doc comment on its own is closed over plain code. -/
theorem close_outermost {s : Scan} {m : Mode} (h : s.modes = [m, .code]) (stop : Position) :
    ∃ s', s.close stop = .ok s' ∧ s'.modes = [.code] ∧ s'.raised = s.raised ∧
      s'.closed = ⟨s.start, stop, normalForm s.body⟩ :: s.closed := by
  refine ⟨{ s with modes := [.code], pieces := [],
                   closed := ⟨s.start, stop, normalForm s.body⟩ :: s.closed }, ?_, rfl, rfl, rfl⟩
  rw [close, leave, h]
  rfl

theorem line_nil {s : Scan} (h : s.mode = .code) (n : Nat) : s.line n [] = .ok s := by
  rw [line, if_neg (by rw [h]; decide), freshLine, steps, Except.map]
  simp only [h]
  rfl

/-- The line that ends a block, and the empty line after it. -/
theorem InBlock.lines_end {s : Scan} {b : Text} (h : InBlock s b) (n : Nat) :
    ∃ s', lines n [" */", []] s = .ok s' ∧ s'.modes = [.code] ∧
      s'.closed = [⟨⟨1, 1⟩, ⟨n, 4⟩, normalForm (b ++ [' '])⟩] := by
  have hmode := mode_eq h.modes
  have hadd := h.add [] [' ']
  obtain ⟨s', hclose, hmodes, -, hclosed⟩ := close_outermost hadd.modes ⟨n, 4⟩
  have hbefore : Text.before? "*/" " */" = some [' '] := by decide
  have hstep : s.step n 1 " */" = .ok (3, s') := by
    rw [step, hmode]
    unfold docBlockStep
    rw [hbefore]
    exact congrArg (Except.map (3, ·)) hclose
  have hline : s.line n " */" = .ok s' := by
    have hcode := mode_eq hmodes
    rw [line, if_neg (by rw [hmode]; decide), freshLine, if_pos hmode,
      show decoration " */" = 0 from rfl, steps_of_step (by decide) hstep]
    simp only [Except.map, hcode]
    rfl
  refine ⟨s', ?_, hmodes, ?_⟩
  · rw [lines, hline]
    simp only [lines, line_nil (mode_eq hmodes)]
  · rw [hclosed, hadd.start, hadd.closed, hadd.body]

/-- Inside a run of `///` lines that began with the source. -/
structure InRun (s : Scan) (body : Text) (stop : Position) : Prop where
  modes : s.modes = [.docLine, .code]
  start : s.start = ⟨1, 1⟩
  closed : s.closed = []
  raised : s.raised = []
  body : s.body = body
  lineEnd : s.lineEnd = stop

theorem docLine?_slashed (l : Text) : docLine? (slashed l) = some (1, indented l) := by
  unfold slashed indented
  split <;> rfl

theorem open_run (l : Text) : ∃ s, line 1 (slashed l) {} = .ok s ∧
    InRun s (indented l ++ ['\n']) ⟨1, (slashed l).length + 1⟩ := by
  have hstep : step 1 1 (slashed l) {} =
      .ok ((slashed l).length, (openAt {} .docLine ⟨1, 1⟩).addLine (indented l)
        ⟨1, (slashed l).length + 1⟩) := by
    rw [step, show mode {} = .code from rfl]
    simp only [codeStep, if_true, docLine?_slashed]
  refine ⟨(openAt {} .docLine ⟨1, 1⟩).addLine (indented l) ⟨1, (slashed l).length + 1⟩, ?_,
    rfl, rfl, rfl, rfl, List.append_nil _, rfl⟩
  have hne : slashed l ≠ [] := by simp [slashed]
  rw [line, if_neg (by decide), freshLine, if_neg (by decide), steps_of_step hne hstep]
  rfl

theorem InRun.line_next {s : Scan} {b : Text} {stop : Position} (h : InRun s b stop) (n : Nat)
    (l : Text) : ∃ s', s.line n (slashed l) = .ok s' ∧
      InRun s' (b ++ (indented l ++ ['\n'])) ⟨n, (slashed l).length + 1⟩ := by
  refine ⟨s.addLine (indented l) ⟨n, (slashed l).length + 1⟩, ?_, ?_⟩
  · rw [line, if_pos (mode_eq h.modes), docLine?_slashed]
  · refine ⟨h.modes, h.start, h.closed, h.raised, ?_, rfl⟩
    rw [← h.body]
    exact body_add s (indented l ++ ['\n'])

/-- Through a run of lines, the text after the slashes is gathered. -/
theorem lines_run {ls : List Text} (hne : ls ≠ []) :
    ∃ s, lines 1 (ls.map slashed) {} = .ok s ∧
      InRun s (ls.map (indented · ++ ['\n'])).flatten
        ⟨ls.length, ((ls.map slashed).getLastD []).length + 1⟩ := by
  -- from the end, since the run ends where its last line does
  induction ls using List.reverseRecOn with
  | nil => exact absurd rfl hne
  | append_singleton ls l ih =>
    by_cases hls : ls = []
    · subst hls
      obtain ⟨s, hs, h⟩ := open_run l
      exact ⟨s, (lines_singleton 1 _ {}).trans hs, by simpa using h⟩
    · obtain ⟨s, hs, h⟩ := ih hls
      obtain ⟨s', hs', h'⟩ := h.line_next (1 + ls.length) l
      refine ⟨s', ?_, ?_⟩
      · rw [List.map_append, lines_append, hs, List.length_map]
        exact (lines_singleton _ _ s).trans hs'
      · simpa [Nat.add_comm] using h'

end Scan

namespace Comment

theorem sourceLines_intercalate {ls : List Text} (hne : ls ≠ [])
    (h : ∀ l ∈ ls, '\n' ∉ l ∧ '\r' ∉ l) : Text.sourceLines (['\n'].intercalate ls) = ls := by
  rw [Text.sourceLines, List.splitOn_intercalate '\n' (fun l hl => (h l hl).1) hne,
    Text.map_dropReturn fun l hl => (h l hl).2]

theorem not_mem_marked {t mark : Text} (hr : '\r' ∉ t) (hmark : '\n' ∉ mark ∧ '\r' ∉ mark) :
    ∀ l ∈ (t.splitOn '\n').map (mark ++ indented ·), '\n' ∉ l ∧ '\r' ∉ l := by
  intro l hl
  obtain ⟨m, hm, rfl⟩ := List.mem_map.mp hl
  obtain ⟨hn', hr'⟩ := Text.not_mem_indented_line hr hm
  simp only [List.mem_append, not_or]
  exact ⟨⟨hmark.1, hn'⟩, hmark.2, hr'⟩

theorem sourceLines_blockForm {t : Text} (hr : '\r' ∉ t) :
    Text.sourceLines (blockForm t) =
      "/***".toList :: ((t.splitOn '\n').map starred ++ [" */".toList, []]) := by
  have hform : blockForm t = ['\n'].intercalate
      ("/***".toList :: (t.splitOn '\n').map starred ++ [" */".toList] ++ [[]]) := by
    rw [Text.intercalate_append_last]
    change "/***\n".toList ++ ((t.splitOn '\n').map (starred · ++ "\n".toList)).flatten ++
      " */\n".toList = _
    simp [Function.comp_def]
  rw [hform, List.append_assoc]
  apply sourceLines_intercalate (by simp)
  intro l hl
  obtain rfl | hl := List.mem_cons.mp hl
  · decide
  obtain hl | hl := List.mem_append.mp hl
  · exact not_mem_marked hr (by decide) l hl
  · obtain rfl | rfl : l = " */".toList ∨ l = [] := by simpa using hl
    · decide
    · decide

theorem sourceLines_lineForm {t : Text} (hr : '\r' ∉ t) :
    Text.sourceLines (lineForm t) = (t.splitOn '\n').map slashed :=
  sourceLines_intercalate (by simp [List.splitOn_ne_nil]) (not_mem_marked hr (by decide))

theorem scan_blockForm {t : Text} (h : IsNormal t) (hr : '\r' ∉ t) (hc : ¬"*/".toList <:+: t) :
    ∃ ws, scan (blockForm t) = .ok ([⟨⟨1, 1⟩, ⟨(t.splitOn '\n').length + 2, 4⟩, t⟩], ws) := by
  obtain ⟨s₁, hs₁, h₁⟩ := Scan.open_block
  obtain ⟨s₂, hs₂, h₂⟩ := h₁.lines_inside (t.splitOn '\n')
    (fun l hl hi => hc (hi.trans (Text.infix_of_mem_splitOn hl))) 2
  obtain ⟨s₃, hs₃, hmodes, hclosed⟩ := h₂.lines_end (2 + (t.splitOn '\n').length)
  have hlines : Scan.ofSource (blockForm t) = .ok s₃ := by
    rw [Scan.ofSource, sourceLines_blockForm hr, Scan.lines, hs₁]
    simp only [Scan.lines_append, hs₂, List.length_map]
    exact hs₃
  refine ⟨s₃.warnings, ?_⟩
  have hbody :
      ['\n'].intercalate (List.replicate 1 [] ++ (t.splitOn '\n').map indented ++ [[' ']]) =
        ['\n'] ++ ((t.splitOn '\n').map (indented · ++ ['\n'])).flatten ++ [' '] := by
    rw [Text.intercalate_append_last]
    simp [Function.comp_def]
  rw [← hbody, h.normalForm_indented hr 1 (Or.inr rfl)] at hclosed
  rw [scan, hlines]
  simp only [Scan.finish, Scan.mode_eq hmodes, Except.map, Scan.comments, hclosed]
  rw [Nat.add_comm 2]
  rfl

theorem scan_lineForm {t : Text} (h : IsNormal t) (hr : '\r' ∉ t) :
    scan (lineForm t) = .ok ([⟨⟨1, 1⟩, ⟨(t.splitOn '\n').length,
      (((t.splitOn '\n').map slashed).getLastD []).length + 1⟩, t⟩], []) := by
  obtain ⟨s, hs, hrun⟩ := Scan.lines_run (List.splitOn_ne_nil '\n' t)
  obtain ⟨s', hclose, -, hraised, hclosed⟩ := Scan.close_outermost hrun.modes s.lineEnd
  have hfinish : s.finish = .ok s' := by
    rw [Scan.finish, Scan.mode_eq hrun.modes]
    exact hclose
  have hbody : ['\n'].intercalate (List.replicate 0 [] ++ (t.splitOn '\n').map indented ++ [[]]) =
      ((t.splitOn '\n').map (indented · ++ ['\n'])).flatten := by
    simp [Text.intercalate_append_last, Function.comp_def]
  rw [hrun.start, hrun.lineEnd, hrun.body, hrun.closed, ← hbody,
    h.normalForm_indented hr 0 (Or.inl rfl)] at hclosed
  rw [hrun.raised] at hraised
  rw [scan, Scan.ofSource, sourceLines_lineForm hr, hs]
  simp only [hfinish, Except.map, Scan.comments, Scan.warnings, hclosed, hraised]
  rfl

/--
A text in normal form is found again, as one comment that spans all that was written, in both forms
of doc comments.
-/
theorem scan_written (t : Text) (h : IsNormal t) (hr : '\r' ∉ t) :
    (¬"*/".toList <:+: t → ∃ ws, scan (blockForm t) =
      .ok ([⟨⟨1, 1⟩, ⟨(t.splitOn '\n').length + 2, 4⟩, t⟩], ws)) ∧
    scan (lineForm t) = .ok ([⟨⟨1, 1⟩, ⟨(t.splitOn '\n').length,
      (((t.splitOn '\n').map slashed).getLastD []).length + 1⟩, t⟩], []) :=
  ⟨scan_blockForm h hr, scan_lineForm h hr⟩

/-- Lines that look like marks themselves, and one that is empty. -/
theorem scan_written_marks : ∃ t : Text, t = "a *\n\n  /*** b\n\t/// c" ∧ IsNormal t ∧ '\r' ∉ t ∧
    ¬"*/".toList <:+: t ∧ (∃ ws, scan (blockForm t) = .ok ([⟨⟨1, 1⟩, ⟨6, 4⟩, t⟩], ws)) ∧
    scan (lineForm t) = .ok ([⟨⟨1, 1⟩, ⟨4, 11⟩, t⟩], []) := by
  obtain ⟨t, ht⟩ : ∃ t : Text, t = "a *\n\n  /*** b\n\t/// c" := ⟨_, rfl⟩
  have h : IsNormal t := by
    rw [ht]
    decide +kernel
  have hr : '\r' ∉ t := by
    rw [ht]
    decide
  have hc : ¬"*/".toList <:+: t := by
    rw [ht]
    decide +kernel
  have hlines : (t.splitOn '\n').length = 4 ∧
      (((t.splitOn '\n').map slashed).getLastD []).length = 10 := by
    rw [ht]
    decide +kernel
  obtain ⟨hblock, hline⟩ := scan_written t h hr
  rw [hlines.1] at hblock hline
  rw [hlines.2] at hline
  exact ⟨t, ht, h, hr, hc, hblock hc, hline⟩

end Comment

end LuaStubs
