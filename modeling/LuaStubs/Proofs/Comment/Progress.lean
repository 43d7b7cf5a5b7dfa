import LuaStubs.Proofs.Comment.RoundTrip

namespace LuaStubs.Scan

/-- In code, or in a comment that stands in code. -/
def Nested (s : Scan) : Prop := s.modes = [.code] ∨ ∃ m, m ≠ .code ∧ s.modes = [m, .code]

theorem Nested.code {s : Scan} (h : s.Nested) (hm : s.mode = .code) : s.modes = [.code] := by
  obtain h | ⟨m, hne, h⟩ := h
  · exact h
  · exact absurd ((mode_eq h).symm.trans hm) hne

theorem Nested.comment {s : Scan} (h : s.Nested) (hm : s.mode ≠ .code) :
    s.modes = [s.mode, .code] := by
  obtain h | ⟨m, -, h⟩ := h
  · exact absurd (mode_eq h) hm
  · rw [mode_eq h, h]

theorem Nested.enter {s : Scan} (h : s.Nested) (hs : s.mode = .code) {m : Mode} (hm : m ≠ .code) :
    (s.enter m).Nested := by
  refine Or.inr ⟨m, hm, ?_⟩
  rw [Scan.enter, h.code hs]

theorem leave_outermost {s : Scan} {m : Mode} (h : s.modes = [m, .code]) (pos : Position) :
    s.leave pos = .ok { s with modes := [.code] } := by
  unfold leave
  rw [h]

theorem eq_of_map_ok {r : Except ScanError Scan} {n k : Nat} {s : Scan}
    (h : r.map (n, ·) = .ok (k, s)) : k = n ∧ r = .ok s := by
  cases r with
  | error e => cases h
  | ok s' =>
    obtain ⟨rfl, rfl⟩ := Prod.mk.inj (Except.ok.inj h)
    exact ⟨rfl, rfl⟩

section Code

theorem literalLength_le (quote : Char) (t : Text) : literalLength quote t ≤ t.length := by
  fun_induction literalLength quote t with
  | case1 => exact Nat.le_refl 0
  | case2 c t ih => simpa using ih
  | case3 t => simp
  | case4 c t _ _ ih => simpa using ih

/--
What a step in code can do. How many characters it takes depends on the text alone, and what it does
to the scan is the same on every line.
-/
inductive CodeStep (col : Nat) (rest : Text) (k : Nat) : Prop
  | pass (h : ∀ line s, codeStep line col rest s = (k, s))
  | stray (h : ∀ line s, codeStep line col rest s = (k, s.warn [.strayClose ⟨line, col⟩]))
  | plainBlock (h : ∀ line s, codeStep line col rest s = (k, s.enter .plainBlock))
  | docBlock (hmark : "/***".toList <+: rest)
      (h : ∀ line s, codeStep line col rest s = (k, s.openAt .docBlock ⟨line, col⟩))
  | docLine (slashes : Nat) (t : Text) (hcol : col = 1) (hk : k = rest.length)
      (hline : docLine? rest = some (slashes, t)) (h : ∀ line s, codeStep line col rest s =
        (k, (s.openAt .docLine ⟨line, slashes⟩).addLine t ⟨line, rest.length + 1⟩))

theorem stars_prefix {t : Text} (h : 2 ≤ (t.takeWhile (· == '*')).length) : ['*', '*'] <+: t := by
  have hstars := List.eq_replicate_of_mem (a := '*') (l := t.takeWhile (· == '*'))
    fun c hc => by simpa using List.mem_takeWhile_imp hc
  obtain ⟨n, hn⟩ := Nat.exists_eq_add_of_le h
  have hpre : ['*', '*'] <+: t.takeWhile (· == '*') := by
    rw [hstars, hn, Nat.add_comm]
    exact ⟨List.replicate n '*', rfl⟩
  exact hpre.trans (List.takeWhile_prefix _)

theorem codeStep_opener {col : Nat} {t : Text}
    (h : ∀ line s, codeStep line col ('/' :: '*' :: t) s = openerStep line col t s) :
    ∃ k, 0 < k ∧ k ≤ t.length + 2 ∧ CodeStep col ('/' :: '*' :: t) k := by
  have hsplit := congrArg List.length (List.takeWhile_append_dropWhile (p := (· == '*')) (l := t))
  rw [List.length_append] at hsplit
  by_cases hstars : (t.takeWhile (· == '*')).length + 1 < 3
  · refine ⟨2, by omega, by omega, .plainBlock fun line s => ?_⟩
    rw [h, openerStep]
    simp only [hstars, if_true]
  by_cases hslash : (t.dropWhile (· == '*')).head? = some '/'
  · have hpos : (t.dropWhile (· == '*')).length ≠ 0 := by
      intro hnil
      rw [List.eq_nil_of_length_eq_zero hnil] at hslash
      cases hslash
    refine ⟨(t.takeWhile (· == '*')).length + 3, by omega, by omega, .pass fun line s => ?_⟩
    rw [h, openerStep]
    simp only [hstars, hslash, if_true, if_false]
  · have hmark : "/***".toList <+: '/' :: '*' :: t :=
      List.cons_prefix_cons.mpr ⟨rfl, List.cons_prefix_cons.mpr ⟨rfl, stars_prefix (by omega)⟩⟩
    refine ⟨(t.takeWhile (· == '*')).length + 2, by omega, by omega,
      .docBlock hmark fun line s => ?_⟩
    rw [h, openerStep]
    simp only [hstars, hslash, if_false]

theorem codeStep_plain {col : Nat} {rest : Text} (hne : rest ≠ [])
    (h : ∀ line s, codeStep line col rest s = plainCodeStep line col rest s) :
    ∃ k, 0 < k ∧ k ≤ rest.length ∧ CodeStep col rest k := by
  unfold plainCodeStep at h
  split at h
  · next t => exact codeStep_opener h
  · next t => exact ⟨t.length + 2, by omega, by simp, .pass h⟩
  · next t => exact ⟨2, by omega, by simp, .stray h⟩
  · next t =>
    have hl := literalLength_le '\x22' t
    exact ⟨literalLength '\x22' t + 1, by omega, by simpa using hl, .pass h⟩
  · next t =>
    have hl := literalLength_le '\x27' t
    exact ⟨literalLength '\x27' t + 1, by omega, by simpa using hl, .pass h⟩
  · exact ⟨1, by omega, List.length_pos_iff.mpr hne, .pass h⟩

theorem codeStep_cases (col : Nat) {rest : Text} (hne : rest ≠ []) :
    ∃ k, 0 < k ∧ k ≤ rest.length ∧ CodeStep col rest k := by
  by_cases hcol : col = 1
  · cases hd : docLine? rest with
    | some p =>
      refine ⟨rest.length, List.length_pos_iff.mpr hne, Nat.le_refl _,
        .docLine p.1 p.2 hcol rfl hd ?_⟩
      intro line s
      rw [codeStep, if_pos hcol, hd]
    | none =>
      apply codeStep_plain hne
      intro line s
      rw [codeStep, if_pos hcol, hd]
  · apply codeStep_plain hne
    intro line s
    rw [codeStep, if_neg hcol]

end Code

/-- Every step goes on, by as much as there is at most, and comments do not nest after it. -/
theorem Nested.step {s : Scan} (h : s.Nested) (number col : Nat) {rest : Text} (hne : rest ≠ []) :
    ∃ k s', s.step number col rest = .ok (k, s') ∧ 0 < k ∧ k ≤ rest.length ∧ s'.Nested := by
  have hlength : 0 < rest.length := List.length_pos_iff.mpr hne
  -- where the comment is left
  have hclosed {inside : Text} (hi : Text.before? "*/" rest = some inside) :
      inside.length + 2 ≤ rest.length := by
    obtain ⟨after, rfl⟩ := Text.before?_eq_some hi
    simp
  unfold Scan.step
  cases hm : s.mode with
  | code =>
    obtain ⟨k, hpos, hle, hk⟩ := codeStep_cases col hne
    cases hk with
    | pass hk => exact ⟨k, s, congrArg Except.ok (hk number s), hpos, hle, h⟩
    | stray hk => exact ⟨k, _, congrArg Except.ok (hk number s), hpos, hle, h⟩
    | plainBlock hk =>
      exact ⟨k, _, congrArg Except.ok (hk number s), hpos, hle, h.enter hm (by decide)⟩
    | docBlock _ hk =>
      have hopen : (s.enter .docBlock).Nested := h.enter hm (by decide)
      exact ⟨k, _, congrArg Except.ok (hk number s), hpos, hle, hopen⟩
    | docLine slashes t _ _ _ hk =>
      have hopen : (s.enter .docLine).Nested := h.enter hm (by decide)
      exact ⟨k, _, congrArg Except.ok (hk number s), hpos, hle, hopen⟩
  | docBlock =>
    have hmodes := h.comment (by rw [hm]; decide)
    dsimp only [docBlockStep]
    cases hi : Text.before? "*/" rest with
    | none => exact ⟨rest.length, _, rfl, hlength, Nat.le_refl _, h⟩
    | some inside =>
      obtain ⟨s', hs', hcode, -⟩ := close_outermost
        (s := (s.warn (nestedOpeners number col inside)).add
          (Text.dropEndWhile (· == '*') inside)) hmodes ⟨number, col + inside.length + 2⟩
      exact ⟨inside.length + 2, s', congrArg (Except.map _) hs', by omega, hclosed hi, Or.inl hcode⟩
  | plainBlock =>
    have hmodes := h.comment (by rw [hm]; decide)
    dsimp only [plainBlockStep]
    cases hi : Text.before? "*/" rest with
    | none => exact ⟨rest.length, s, rfl, hlength, Nat.le_refl _, h⟩
    | some inside =>
      have hleave := leave_outermost hmodes ⟨number, col + inside.length + 2⟩
      exact ⟨inside.length + 2, _, congrArg (Except.map _) hleave, by omega, hclosed hi, Or.inl rfl⟩
  | docLine => exact ⟨rest.length, s, rfl, hlength, Nat.le_refl _, h⟩

theorem Nested.of_step {s s' : Scan} (h : s.Nested) {number col k : Nat} {rest : Text}
    (hne : rest ≠ []) (hstep : s.step number col rest = .ok (k, s')) : s'.Nested := by
  obtain ⟨j, s₁, hs₁, -, -, h₁⟩ := h.step number col hne
  obtain ⟨-, rfl⟩ := Prod.mk.inj (Except.ok.inj (hs₁.symm.trans hstep))
  exact h₁

theorem Nested.bounds_of_step {s s' : Scan} (h : s.Nested) {number col k : Nat} {rest : Text}
    (hne : rest ≠ []) (hstep : s.step number col rest = .ok (k, s')) :
    0 < k ∧ k ≤ rest.length := by
  obtain ⟨j, s₁, hs₁, hpos, hle, -⟩ := h.step number col hne
  obtain ⟨rfl, -⟩ := Prod.mk.inj (Except.ok.inj (hs₁.symm.trans hstep))
  exact ⟨hpos, hle⟩

theorem Nested.steps {s : Scan} (h : s.Nested) (number col skip : Nat) (t : Text) :
    ∃ s', steps number col skip t s = .ok s' ∧ s'.Nested := by
  induction t generalizing col skip s with
  | nil => exact ⟨s, by rw [Scan.steps], h⟩
  | cons c t ih =>
    cases skip with
    | succ skip => exact ih h (col + 1) skip
    | zero =>
      obtain ⟨k, s', hstep, -, -, h'⟩ := h.step number col (List.cons_ne_nil c t)
      obtain ⟨s'', hsteps, h''⟩ := ih h' (col + 1) (k - 1)
      refine ⟨s'', ?_, h''⟩
      rw [Scan.steps, hstep]
      exact hsteps

/-- What is skipped is left out. -/
theorem steps_skip (number col skip : Nat) (t : Text) (s : Scan) :
    steps number col skip t s = steps number (col + skip) 0 (t.drop skip) s := by
  induction skip generalizing col t with
  | zero => rfl
  | succ skip ih =>
    cases t with
    | nil => simp only [steps, List.drop_nil]
    | cons c t =>
      rw [steps, ih, List.drop_succ_cons, Nat.add_assoc, Nat.add_comm 1 skip]

/-- The loop over a line goes on where a step leaves it. -/
theorem steps_step {number col k : Nat} {rest : Text} {s s' : Scan} (hne : rest ≠ []) (hk : 0 < k)
    (h : s.step number col rest = .ok (k, s')) :
    steps number col 0 rest s = steps number (col + k) 0 (rest.drop k) s' := by
  cases rest with
  | nil => exact absurd rfl hne
  | cons c rest =>
    obtain ⟨k, rfl⟩ : ∃ j, k = j + 1 := ⟨k - 1, by omega⟩
    rw [steps, h]
    dsimp only
    rw [Nat.add_sub_cancel, steps_skip, List.drop_succ_cons, Nat.add_assoc, Nat.add_comm 1 k]

section Lines

/-- The scan with which the loop over a line begins: a run of `///` lines has ended before it. -/
def beforeLine (s : Scan) : Except ScanError Scan :=
  if s.mode = .docLine then s.close s.lineEnd else .ok s

/-- The length of what stands in front of the loop over a line. -/
def margin (line : Text) (s : Scan) : Nat := if s.mode = .docBlock then decoration line else 0

theorem margin_le (l : Text) (s : Scan) : s.margin l ≤ l.length := by
  have hsplit := congrArg List.length
    (List.takeWhile_append_dropWhile (p := Text.isBlank) (l := l))
  rw [List.length_append] at hsplit
  unfold margin
  split
  · unfold decoration
    split
    · next rest hrest =>
      rw [hrest, List.length_cons] at hsplit
      split <;> omega
    · exact Nat.zero_le _
  · exact Nat.zero_le _

/-- What becomes of a scan at the end of a line. -/
def endLine (s : Scan) : Scan := if s.mode = .docBlock then s.add ['\n'] else s

theorem freshLine_eq (number : Nat) (l : Text) (s : Scan) :
    s.freshLine number l = (steps number ((l.take (s.margin l)).length + 1) 0
      (l.drop (s.margin l)) s).map endLine := by
  rw [freshLine, steps_skip, Nat.add_comm 1, List.length_take_of_le (margin_le l s)]
  rfl

theorem lines_cons (number : Nat) (l : Text) (ls : List Text) (s : Scan) :
    lines number (l :: ls) s = (s.line number l).bind (lines (number + 1) ls) := by
  rw [lines]
  cases s.line number l <;> rfl

theorem line_of_fresh {s s' : Scan} {l : Text} (hl : s.mode = .docLine → docLine? l = none)
    (h : s.beforeLine = .ok s') (number : Nat) : s.line number l = s'.freshLine number l := by
  unfold line
  unfold beforeLine at h
  split
  · next hm =>
    rw [if_pos hm] at h
    rw [hl hm, h]
  · next hm =>
    rw [if_neg hm] at h
    rw [Except.ok.inj h]

theorem Nested.beforeLine {s : Scan} (h : s.Nested) :
    ∃ s', s.beforeLine = .ok s' ∧ s'.Nested := by
  unfold Scan.beforeLine
  split
  · next hm =>
    obtain ⟨s', hs', hcode, -⟩ := close_outermost (h.comment (by rw [hm]; decide)) s.lineEnd
    exact ⟨s', hs', Or.inl hcode⟩
  · exact ⟨s, rfl, h⟩

theorem Nested.freshLine {s : Scan} (h : s.Nested) (number : Nat) (l : Text) :
    ∃ s', s.freshLine number l = .ok s' ∧ s'.Nested := by
  obtain ⟨s', hs', h'⟩ := h.steps number 1 (s.margin l) l
  have hfresh : s.freshLine number l =
      .ok (if s'.mode = .docBlock then s'.add ['\n'] else s') := congrArg (Except.map _) hs'
  refine ⟨_, hfresh, ?_⟩
  split <;> exact h'

theorem Nested.line {s : Scan} (h : s.Nested) (number : Nat) (l : Text) :
    ∃ s', s.line number l = .ok s' ∧ s'.Nested := by
  by_cases hl : s.mode = .docLine → docLine? l = none
  · obtain ⟨s', hs', h'⟩ := h.beforeLine
    rw [line_of_fresh hl hs']
    exact h'.freshLine number l
  · obtain ⟨hm, hd⟩ := Classical.not_imp.mp hl
    obtain ⟨p, hp⟩ := Option.ne_none_iff_exists'.mp hd
    refine ⟨s.addLine p.2 ⟨number, l.length + 1⟩, ?_, h⟩
    rw [Scan.line, if_pos hm, hp]

/-- Comments do not nest after any number of lines. -/
theorem Nested.lines {s : Scan} (h : s.Nested) (number : Nat) (ls : List Text) :
    ∃ s', lines number ls s = .ok s' ∧ s'.Nested := by
  induction ls generalizing number s with
  | nil => exact ⟨s, rfl, h⟩
  | cons l ls ih =>
    obtain ⟨s', hs', h'⟩ := h.line number l
    obtain ⟨s'', hs'', h''⟩ := ih h' (number + 1)
    refine ⟨s'', ?_, h''⟩
    rw [Scan.lines, hs']
    exact hs''

theorem Nested.finish {s : Scan} (h : s.Nested) : ∃ s', s.finish = .ok s' := by
  unfold Scan.finish
  cases hm : s.mode with
  | docLine =>
    obtain ⟨s', hs', -⟩ := close_outermost (h.comment (by rw [hm]; decide)) s.lineEnd
    exact ⟨s', hs'⟩
  | docBlock => exact ⟨_, rfl⟩
  | plainBlock => exact ⟨s, rfl⟩
  | code => exact ⟨s, rfl⟩

end Lines

theorem nested_start : Nested {} := Or.inl rfl

theorem exists_ofSource (source : Text) : ∃ s, ofSource source = .ok s ∧ s.Nested :=
  nested_start.lines 1 (Text.sourceLines source)

theorem exists_scan (source : Text) : ∃ s s', ofSource source = .ok s ∧ s.Nested ∧
    s.finish = .ok s' ∧ Comment.scan source = .ok (s'.comments, s'.warnings) := by
  obtain ⟨s, hs, h⟩ := exists_ofSource source
  obtain ⟨s', hs'⟩ := h.finish
  refine ⟨s, s', hs, h, hs', ?_⟩
  rw [Comment.scan, hs]
  exact congrArg (Except.map _) hs'

/--
The points that the loop over the lines of a source comes to: in the line of that number, `taken` is
behind it and `rest` is ahead.
-/
inductive Visits (source : Text) : Nat → Text → Text → Scan → Prop
  | start {above below : List Text} {l : Text} {s s' : Scan}
      (hlines : Text.sourceLines source = above ++ l :: below) (habove : lines 1 above {} = .ok s)
      (hl : s.mode = .docLine → docLine? l = none) (hbefore : s.beforeLine = .ok s') :
      Visits source (above.length + 1) (l.take (s'.margin l)) (l.drop (s'.margin l)) s'
  | turn {number k : Nat} {taken rest : Text} {s s' : Scan} (h : Visits source number taken rest s)
      (hne : rest ≠ []) (hstep : s.step number (taken.length + 1) rest = .ok (k, s')) :
      Visits source number (taken ++ rest.take k) (rest.drop k) s'

section Visits
variable {source : Text} {number : Nat} {taken rest : Text} {s : Scan}

theorem Visits.nested (h : Visits source number taken rest s) : s.Nested := by
  induction h with
  | start hlines habove hl hbefore =>
    obtain ⟨s₁, hs₁, h₁⟩ := nested_start.lines 1 _
    obtain rfl := Except.ok.inj (hs₁.symm.trans habove)
    obtain ⟨s₂, hs₂, h₂⟩ := h₁.beforeLine
    obtain rfl := Except.ok.inj (hs₂.symm.trans hbefore)
    exact h₂
  | turn _ hne hstep ih => exact ih.of_step hne hstep

theorem Visits.line (h : Visits source number taken rest s) :
    (Text.sourceLines source)[number - 1]? = some (taken ++ rest) := by
  induction h with
  | start hlines => simp [hlines]
  | turn _ _ _ ih => rw [ih, List.append_assoc, List.take_append_drop]

end Visits

/--
The scan of a source never fails. After any number of its lines, and at every point inside a line,
comments do not nest; and each turn of the loop goes from one boundary between characters to one
further on in the line.
-/
theorem scan_advances (source : Text) :
    (∃ found, Comment.scan source = .ok found) ∧
    (∀ above below, Text.sourceLines source = above ++ below →
      ∃ s, lines 1 above {} = .ok s ∧ s.Nested) ∧
    ∀ number taken rest s, Visits source number taken rest s →
      s.Nested ∧ (Text.sourceLines source)[number - 1]? = some (taken ++ rest) ∧
      (rest ≠ [] → ∃ k s', s.step number (taken.length + 1) rest = .ok (k, s') ∧
        steps number (taken.length + 1) 0 rest s =
          steps number ((taken ++ rest.take k).length + 1) 0 (rest.drop k) s' ∧
        k ≤ rest.length ∧ Text.byteLength taken < Text.byteLength (taken ++ rest.take k) ∧
        Text.byteLength (taken ++ rest.take k) ≤ Text.byteLength (taken ++ rest) ∧
        Text.IsBoundary (taken ++ rest) (Text.byteLength (taken ++ rest.take k))) := by
  refine ⟨?_, fun above _ _ => nested_start.lines 1 above, ?_⟩
  · obtain ⟨s, hs, h⟩ := exists_ofSource source
    obtain ⟨s', hs'⟩ := h.finish
    refine ⟨(s'.comments, s'.warnings), ?_⟩
    rw [Comment.scan, hs]
    exact congrArg (Except.map _) hs'
  · intro number taken rest s hvisit
    refine ⟨hvisit.nested, hvisit.line, fun hne => ?_⟩
    obtain ⟨k, s', hstep, hpos, hle, -⟩ := hvisit.nested.step number (taken.length + 1) hne
    have hcol : taken.length + 1 + k = (taken ++ rest.take k).length + 1 := by
      rw [List.length_append, List.length_take, Nat.min_eq_left hle]
      omega
    have hsome : rest.take k ≠ [] := by
      intro hnil
      have hlen := congrArg List.length hnil
      rw [List.length_take, Nat.min_eq_left hle] at hlen
      exact absurd hlen (by simpa using Nat.ne_of_gt hpos)
    have hfront : taken ++ rest.take k <+: taken ++ rest :=
      (List.prefix_append_right_inj taken).mpr (List.take_prefix k rest)
    obtain ⟨after, hafter⟩ := hfront
    refine ⟨k, s', hstep, hcol ▸ steps_step hne hpos hstep, hle, ?_, ?_, _, ⟨after, hafter⟩, rfl⟩
    · rw [Text.byteLength_append]
      exact Nat.lt_add_of_pos_right (Text.byteLength_pos hsome)
    · rw [← hafter, Text.byteLength_append (taken ++ rest.take k)]
      exact Nat.le_add_right _ _

/-- After a character of two bytes, a mark that closes nothing. -/
theorem scan_advances_wide : ∃ (source : Text) (s : Scan), source = "é*/" ∧
    Visits source 1 ['é'] ['*', '/'] s ∧ s.Nested ∧
    ∃ k s', s.step 1 2 ['*', '/'] = .ok (k, s') ∧ k ≤ 2 ∧
      2 < Text.byteLength ('é' :: ['*', '/'].take k) ∧
      Text.byteLength ('é' :: ['*', '/'].take k) ≤ 4 ∧
      Text.IsBoundary source (Text.byteLength ('é' :: ['*', '/'].take k)) := by
  have hstart : Visits "é*/" 1 [] "é*/" {} :=
    @Visits.start _ [] [] _ {} {} rfl rfl (by decide) rfl
  have hvisit : Visits "é*/" 1 ['é'] ['*', '/'] {} := hstart.turn (by decide) rfl
  obtain ⟨hnested, -, hturn⟩ := (scan_advances "é*/").2.2 1 _ _ _ hvisit
  obtain ⟨k, s', hstep, -, hk, hlt, hle, hboundary⟩ := hturn (by decide)
  exact ⟨"é*/", {}, rfl, hvisit, hnested, k, s', hstep, hk, hlt, hle, hboundary⟩

end LuaStubs.Scan
