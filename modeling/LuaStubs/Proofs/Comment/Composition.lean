import LuaStubs.Proofs.Comment.Progress

namespace LuaStubs

/-- The same place in a source with `n` more lines above it. -/
def Position.below (n : Nat) (p : Position) : Position := { p with line := p.line + n }

def Comment.below (n : Nat) (c : Comment) : Comment :=
  { c with start := c.start.below n, stop := c.stop.below n }

def Warning.below (n : Nat) : Warning → Warning
  | .strayClose p => .strayClose (p.below n)
  | .nestedOpen p => .nestedOpen (p.below n)
  | .unclosedComment p => .unclosedComment (p.below n)
  | .ambiguousType p candidates => .ambiguousType (p.below n) candidates
  | .missingName tag p => .missingName tag (p.below n)
  | .missingType tag name p => .missingType tag name (p.below n)
  | .conflictingDeclarations path p attributes declarations =>
    .conflictingDeclarations path (p.below n) attributes declarations

namespace Scan

/--
`s` has come as far as `t`, but with `n` more lines above and after what `prior` has found in them.
What a scan holds of a doc comment is of the past unless it is inside of one.
-/
structure Continues (n : Nat) (prior s t : Scan) : Prop where
  modes : s.modes = t.modes
  closed : s.closed = t.closed.map (Comment.below n) ++ prior.closed
  raised : s.raised = t.raised.map (Warning.below n) ++ prior.raised
  doc : t.mode = .docBlock ∨ t.mode = .docLine →
    s.pieces = t.pieces ∧ s.start = t.start.below n
  run : t.mode = .docLine → s.lineEnd = t.lineEnd.below n

namespace Continues
variable {n : Nat} {prior s t : Scan}

theorem mode (h : Continues n prior s t) : s.mode = t.mode := by
  rw [Scan.mode, Scan.mode, h.modes]

theorem warn (h : Continues n prior s t) (ws : List Warning) :
    Continues n prior (s.warn (ws.map (Warning.below n))) (t.warn ws) := by
  refine ⟨h.modes, h.closed, ?_, h.doc, h.run⟩
  simp [Scan.warn, h.raised]

theorem add (h : Continues n prior s t) (text : Text) :
    Continues n prior (s.add text) (t.add text) := by
  refine ⟨h.modes, h.closed, h.raised, fun hm => ?_, h.run⟩
  obtain ⟨hpieces, hstart⟩ := h.doc hm
  exact ⟨congrArg (text :: ·) hpieces, hstart⟩

theorem addLine (h : Continues n prior s t) (text : Text) (stop : Position) :
    Continues n prior (s.addLine text (stop.below n)) (t.addLine text stop) := by
  have hadd := h.add (text ++ ['\n'])
  exact ⟨hadd.modes, hadd.closed, hadd.raised, hadd.doc, fun _ => rfl⟩

theorem enter_plainBlock (h : Continues n prior s t) :
    Continues n prior (s.enter .plainBlock) (t.enter .plainBlock) := by
  refine ⟨congrArg (Mode.plainBlock :: ·) h.modes, h.closed, h.raised, ?_, ?_⟩
  · rintro (hm | hm) <;> cases hm
  · intro hm
    cases hm

theorem openAt_docBlock (h : Continues n prior s t) (start : Position) :
    Continues n prior (s.openAt .docBlock (start.below n)) (t.openAt .docBlock start) := by
  refine ⟨congrArg (Mode.docBlock :: ·) h.modes, h.closed, h.raised, fun _ => ⟨rfl, rfl⟩, ?_⟩
  intro hm
  cases hm

/-- A run is opened with its first line, which sets where it ends so far. -/
theorem openAt_docLine (h : Continues n prior s t) (start stop : Position) (text : Text) :
    Continues n prior ((s.openAt .docLine (start.below n)).addLine text (stop.below n))
      ((t.openAt .docLine start).addLine text stop) :=
  ⟨congrArg (Mode.docLine :: ·) h.modes, h.closed, h.raised, fun _ => ⟨rfl, rfl⟩, fun _ => rfl⟩

/-- In code nothing but the comments and warnings found so far counts. -/
theorem of_code (hs : s.modes = [.code]) (ht : t.modes = [.code])
    (hclosed : s.closed = t.closed.map (Comment.below n) ++ prior.closed)
    (hraised : s.raised = t.raised.map (Warning.below n) ++ prior.raised) :
    Continues n prior s t := by
  refine ⟨hs.trans ht.symm, hclosed, hraised, ?_, ?_⟩ <;> rw [mode_eq ht]
  · rintro (hm | hm) <;> cases hm
  · intro hm
    cases hm

theorem close (h : Continues n prior s t) (hn : t.Nested)
    (hm : t.mode = .docBlock ∨ t.mode = .docLine) (stop : Position) :
    ∃ s' t', s.close (stop.below n) = .ok s' ∧ t.close stop = .ok t' ∧
      Continues n prior s' t' ∧ t'.Nested := by
  have hmodes : t.modes = [t.mode, .code] := by
    apply hn.comment
    obtain hm | hm := hm <;> rw [hm] <;> decide
  obtain ⟨s', hs', hs'modes, hs'raised, hs'closed⟩ :=
    close_outermost (h.modes.trans hmodes) (stop.below n)
  obtain ⟨t', ht', ht'modes, ht'raised, ht'closed⟩ := close_outermost hmodes stop
  obtain ⟨hpieces, hstart⟩ := h.doc hm
  refine ⟨s', t', hs', ht', of_code hs'modes ht'modes ?_ ?_, Or.inl ht'modes⟩
  · rw [hs'closed, ht'closed, hstart, body, body, hpieces, h.closed]
    rfl
  · rw [hs'raised, ht'raised, h.raised]

theorem nestedOpeners_below (n number col : Nat) (text : Text) :
    nestedOpeners (number + n) col text =
      (nestedOpeners number col text).map (Warning.below n) := by
  induction text generalizing col with
  | nil => rfl
  | cons c text ih =>
    rw [nestedOpeners, nestedOpeners]
    split
    · rw [ih]
      rfl
    · exact ih (col + 1)

theorem step (h : Continues n prior s t) (hn : t.Nested) (number col : Nat) {rest : Text}
    (hne : rest ≠ []) :
    ∃ k s' t', s.step (number + n) col rest = .ok (k, s') ∧ t.step number col rest = .ok (k, t') ∧
      Continues n prior s' t' := by
  rw [Scan.step, Scan.step, h.mode]
  cases hm : t.mode with
  | code =>
    obtain ⟨k, -, -, hk⟩ := codeStep_cases col hne
    refine ⟨k, (codeStep (number + n) col rest s).2, (codeStep number col rest t).2, ?_⟩
    cases hk with
    | pass hk =>
      simp only [hk, true_and]
      exact h
    | stray hk =>
      simp only [hk, true_and]
      exact h.warn [.strayClose ⟨number, col⟩]
    | plainBlock hk =>
      simp only [hk, true_and]
      exact h.enter_plainBlock
    | docBlock _ hk =>
      simp only [hk, true_and]
      exact h.openAt_docBlock ⟨number, col⟩
    | docLine slashes text _ _ _ hk =>
      simp only [hk, true_and]
      exact h.openAt_docLine ⟨number, slashes⟩ ⟨number, rest.length + 1⟩ text
  | docBlock =>
    dsimp only [docBlockStep]
    cases hi : Text.before? "*/" rest with
    | none =>
      refine ⟨rest.length, _, _, rfl, rfl, ?_⟩
      rw [nestedOpeners_below]
      exact (h.warn (nestedOpeners number col rest)).add rest
    | some inside =>
      have hadd := (h.warn (nestedOpeners number col inside)).add
        (Text.dropEndWhile (· == '*') inside)
      obtain ⟨s', t', hs', ht', h', -⟩ :=
        hadd.close hn (Or.inl hm) ⟨number, col + inside.length + 2⟩
      rw [← nestedOpeners_below] at hs'
      exact ⟨_, s', t', congrArg (Except.map _) hs', congrArg (Except.map _) ht', h'⟩
  | plainBlock =>
    have hmodes := hn.comment (by rw [hm]; decide)
    dsimp only [plainBlockStep]
    cases hi : Text.before? "*/" rest with
    | none => exact ⟨rest.length, s, t, rfl, rfl, h⟩
    | some inside =>
      have hs := leave_outermost (h.modes.trans hmodes) ⟨number + n, col + inside.length + 2⟩
      have ht := leave_outermost hmodes ⟨number, col + inside.length + 2⟩
      exact ⟨_, _, _, congrArg (Except.map _) hs, congrArg (Except.map _) ht,
        of_code rfl rfl h.closed h.raised⟩
  | docLine => exact ⟨rest.length, s, t, rfl, rfl, h⟩

theorem steps (h : Continues n prior s t) (hn : t.Nested) (number col skip : Nat) (text : Text) :
    ∃ s' t', steps (number + n) col skip text s = .ok s' ∧ steps number col skip text t = .ok t' ∧
      Continues n prior s' t' ∧ t'.Nested := by
  induction text generalizing col skip s t with
  | nil => exact ⟨s, t, by rw [Scan.steps], by rw [Scan.steps], h, hn⟩
  | cons c text ih =>
    cases skip with
    | succ skip => exact ih h hn (col + 1) skip
    | zero =>
      have hne := List.cons_ne_nil c text
      obtain ⟨k, s₁, t₁, hs₁, ht₁, h₁⟩ := h.step hn number col hne
      obtain ⟨s₂, t₂, hs₂, ht₂, h₂⟩ := ih h₁ (hn.of_step hne ht₁) (col + 1) (k - 1)
      refine ⟨s₂, t₂, ?_, ?_, h₂⟩
      · rw [Scan.steps, hs₁]
        exact hs₂
      · rw [Scan.steps, ht₁]
        exact ht₂

theorem freshLine (h : Continues n prior s t) (hn : t.Nested) (number : Nat) (l : Text) :
    ∃ s' t', s.freshLine (number + n) l = .ok s' ∧ t.freshLine number l = .ok t' ∧
      Continues n prior s' t' ∧ t'.Nested := by
  obtain ⟨s', t', hs', ht', h', hn'⟩ := h.steps hn number 1 (t.margin l) l
  rw [margin] at hs' ht'
  rw [Scan.freshLine, Scan.freshLine, h.mode, hs', ht']
  refine ⟨_, _, rfl, rfl, ?_⟩
  dsimp only
  rw [h'.mode]
  split
  · exact ⟨h'.add ['\n'], hn'⟩
  · exact ⟨h', hn'⟩

theorem line (h : Continues n prior s t) (hn : t.Nested) (number : Nat) (l : Text) :
    ∃ s' t', s.line (number + n) l = .ok s' ∧ t.line number l = .ok t' ∧
      Continues n prior s' t' ∧ t'.Nested := by
  unfold Scan.line
  rw [h.mode]
  split
  · next hm =>
    cases docLine? l with
    | some p => exact ⟨_, _, rfl, rfl, h.addLine p.2 ⟨number, l.length + 1⟩, hn⟩
    | none =>
      obtain ⟨s', t', hs', ht', h', hn'⟩ := h.close hn (Or.inr hm) t.lineEnd
      rw [← h.run hm] at hs'
      simp only [hs', ht']
      exact h'.freshLine hn' number l
  · exact h.freshLine hn number l

theorem lines (h : Continues n prior s t) (hn : t.Nested) (number : Nat) (ls : List Text) :
    ∃ s' t', lines (number + n) ls s = .ok s' ∧ lines number ls t = .ok t' ∧
      Continues n prior s' t' ∧ t'.Nested := by
  induction ls generalizing number s t with
  | nil => exact ⟨s, t, rfl, rfl, h, hn⟩
  | cons l ls ih =>
    obtain ⟨s₁, t₁, hs₁, ht₁, h₁, hn₁⟩ := h.line hn number l
    obtain ⟨s₂, t₂, hs₂, ht₂, h₂⟩ := ih h₁ hn₁ (number + 1)
    refine ⟨s₂, t₂, ?_, ?_, h₂⟩
    · rw [Scan.lines, hs₁, ← hs₂, Nat.add_right_comm]
    · rw [Scan.lines, ht₁]
      exact ht₂

/-- At the end, what was found stands after what `prior` had found. -/
theorem finish (h : Continues n prior s t) (hn : t.Nested) :
    ∃ s' t', s.finish = .ok s' ∧ t.finish = .ok t' ∧
      s'.comments = prior.comments ++ t'.comments.map (Comment.below n) ∧
      s'.warnings = prior.warnings ++ t'.warnings.map (Warning.below n) := by
  have hfound {s t : Scan} (hc : s.closed = t.closed.map (Comment.below n) ++ prior.closed)
      (hr : s.raised = t.raised.map (Warning.below n) ++ prior.raised) :
      s.comments = prior.comments ++ t.comments.map (Comment.below n) ∧
      s.warnings = prior.warnings ++ t.warnings.map (Warning.below n) := by
    simp [comments, warnings, hc, hr]
  unfold Scan.finish
  rw [h.mode]
  cases hm : t.mode with
  | docLine =>
    obtain ⟨s', t', hs', ht', h', -⟩ := h.close hn (Or.inr hm) t.lineEnd
    rw [← h.run hm] at hs'
    exact ⟨s', t', hs', ht', hfound h'.closed h'.raised⟩
  | docBlock =>
    have hwarn := h.warn [.unclosedComment t.start]
    rw [List.map_singleton, Warning.below, ← (h.doc (Or.inl hm)).2] at hwarn
    exact ⟨_, _, rfl, rfl, hfound hwarn.closed hwarn.raised⟩
  | plainBlock => exact ⟨s, t, rfl, rfl, hfound h.closed h.raised⟩
  | code => exact ⟨s, t, rfl, rfl, hfound h.closed h.raised⟩

end Continues

/-- Lines that do not go on with a run are scanned as if it had ended before them. -/
theorem lines_after_run {s s' : Scan} {l : Text} (hl : s.mode = .docLine → docLine? l = none)
    (hbefore : s.beforeLine = .ok s') (hcode : s'.mode = .code) (number : Nat) (ls : List Text) :
    lines number (l :: ls) s = lines number (l :: ls) s' := by
  have hl' : s'.mode = .docLine → docLine? l = none := by
    rw [hcode]
    intro hm
    cases hm
  have hbefore' : s'.beforeLine = .ok s' := by
    rw [beforeLine, hcode]
    rfl
  rw [lines, lines, line_of_fresh hl hbefore, line_of_fresh hl' hbefore']

/-- Outside of blocks, the end of a source is the end of a run. -/
theorem finish_eq_beforeLine {s : Scan} (h : s.mode = .code ∨ s.mode = .docLine) :
    s.finish = s.beforeLine := by
  rw [finish, beforeLine]
  obtain h | h := h <;> rw [h] <;> rfl

theorem Nested.code_of_beforeLine {s s' : Scan} (h : s.Nested)
    (hm : s.mode = .code ∨ s.mode = .docLine) (hbefore : s.beforeLine = .ok s') :
    s'.modes = [.code] := by
  unfold Scan.beforeLine at hbefore
  obtain hm | hm := hm
  · rw [hm] at hbefore
    rw [← Except.ok.inj hbefore]
    exact h.code hm
  · rw [if_pos hm] at hbefore
    obtain ⟨s₁, hs₁, hcode, -⟩ := close_outermost (h.comment (by rw [hm]; decide)) s.lineEnd
    rw [← Except.ok.inj (hs₁.symm.trans hbefore)]
    exact hcode

end Scan

namespace Comment

theorem sourceLines_append (a b : Text) :
    Text.sourceLines (a ++ '\n' :: b) = Text.sourceLines a ++ Text.sourceLines b := by
  rw [Text.sourceLines, List.splitOn_append_cons_self, List.map_append]
  rfl

/--
A source that ends in code, or with a run of `///` lines that the next source does not go on with,
has no part in what is found in the next one.
-/
theorem scan_append (a b : Text) (s : Scan) (hs : Scan.ofSource a = .ok s)
    (hend : s.mode = .code ∨
      s.mode = .docLine ∧ ∀ l ∈ (Text.sourceLines b).head?, Scan.docLine? l = none) :
    ∃ ca wa cb wb, scan a = .ok (ca, wa) ∧ scan b = .ok (cb, wb) ∧
      scan (a ++ '\n' :: b) =
        .ok (ca ++ cb.map (Comment.below (Text.sourceLines a).length),
          wa ++ wb.map (Warning.below (Text.sourceLines a).length)) := by
  obtain ⟨s₀, hs₀, hnested⟩ := Scan.exists_ofSource a
  obtain rfl := Except.ok.inj (hs₀.symm.trans hs)
  have hmode : s₀.mode = .code ∨ s₀.mode = .docLine := hend.imp_right And.left
  obtain ⟨prior, hprior, -⟩ := hnested.beforeLine
  have hcode := hnested.code_of_beforeLine hmode hprior
  -- the second source, on its own and after what the first one leaves
  have hstart : Scan.Continues (Text.sourceLines a).length prior prior {} :=
    .of_code hcode rfl rfl rfl
  obtain ⟨s₁, t₁, hs₁, ht₁, h₁, hn₁⟩ := hstart.lines Scan.nested_start 1 (Text.sourceLines b)
  obtain ⟨s₂, t₂, hs₂, ht₂, hcomments, hwarnings⟩ := h₁.finish hn₁
  have hboth : Scan.ofSource (a ++ '\n' :: b) = .ok s₁ := by
    have hlines : Scan.lines 1 (Text.sourceLines a) {} = .ok s₀ := hs
    rw [Scan.ofSource, sourceLines_append, Scan.lines_append, hlines]
    cases hb : Text.sourceLines b with
    | nil => exact absurd hb (by simp [Text.sourceLines, List.splitOn_ne_nil])
    | cons l ls =>
      rw [hb] at hs₁ hend
      have hl : s₀.mode = .docLine → Scan.docLine? l = none := by
        intro hm
        obtain hm' | ⟨-, hl⟩ := hend
        · rw [hm'] at hm
          cases hm
        · exact hl l rfl
      exact (Scan.lines_after_run hl hprior (Scan.mode_eq hcode) _ ls).trans hs₁
  refine ⟨prior.comments, prior.warnings, t₂.comments, t₂.warnings, ?_, ?_, ?_⟩
  · rw [scan, hs]
    simp only [Scan.finish_eq_beforeLine hmode, hprior, Except.map]
  · rw [scan, Scan.ofSource, ht₁]
    simp only [ht₂, Except.map]
  · rw [scan, hboth]
    simp only [hs₂, Except.map, hcomments, hwarnings]

/-- A run at the end of the one source, a block and a stray mark in the other. -/
theorem scan_append_run : ∃ (a b : Text) (s : Scan), a = "*/\n/// é\r" ∧ b = "/*** b\n */ */" ∧
    Scan.ofSource a = .ok s ∧ s.mode = .docLine ∧
    (∀ l ∈ (Text.sourceLines b).head?, Scan.docLine? l = none) ∧
    ∃ ca wa cb wb, scan a = .ok (ca, wa) ∧ scan b = .ok (cb, wb) ∧
      scan (a ++ '\n' :: b) = .ok (ca ++ cb.map (Comment.below 2), wa ++ wb.map (Warning.below 2)) ∧
      wb.map (Warning.below 2) = [.strayClose ⟨4, 5⟩] := by
  obtain ⟨a, ha⟩ : ∃ a : Text, a = "*/\n/// é\r" := ⟨_, rfl⟩
  obtain ⟨b, hb⟩ : ∃ b : Text, b = "/*** b\n */ */" := ⟨_, rfl⟩
  obtain ⟨s, hs, hm⟩ : ∃ s, Scan.ofSource a = .ok s ∧ s.mode = .docLine := by
    rw [ha]
    exact ⟨_, rfl, rfl⟩
  have hfirst : ∀ l ∈ (Text.sourceLines b).head?, Scan.docLine? l = none := by
    rw [hb]
    decide +kernel
  have hlength : (Text.sourceLines a).length = 2 := by
    rw [ha]
    decide +kernel
  have hfound : scan b = .ok ([⟨⟨1, 1⟩, ⟨2, 4⟩, ['b']⟩], [.strayClose ⟨2, 5⟩]) := by
    rw [hb]
    rfl
  obtain ⟨ca, wa, cb, wb, hsa, hsb, hsab⟩ := scan_append a b s hs (Or.inr ⟨hm, hfirst⟩)
  rw [hlength] at hsab
  obtain ⟨-, rfl⟩ := Prod.mk.inj (Except.ok.inj (hsb.symm.trans hfound))
  exact ⟨a, b, s, ha, hb, hs, hm, hfirst, ca, wa, cb, _, hsa, hsb, hsab, rfl⟩

end Comment

end LuaStubs
