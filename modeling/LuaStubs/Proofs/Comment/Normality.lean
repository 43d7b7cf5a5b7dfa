import LuaStubs.Proofs.Comment.Progress
import LuaStubs.Proofs.Text.Dedent
import LuaStubs.Proofs.Text.Tidy

namespace LuaStubs

namespace Text

/-- No indentation is shared by all lines with something on them. -/
def IsFlush (ls : List Text) : Prop :=
  ∀ p, isWhite p = true → (∀ l ∈ ls, isWhite l = false → p <+: l) → p = []

/-- Lines stay flush as long as each line with something on it keeps its front. -/
theorem IsFlush.of_fronts {ls ms : List Text} (h : IsFlush ls)
    (hfront : ∀ l ∈ ls, isWhite l = false → ∃ m ∈ ms, isWhite m = false ∧ m <+: l) :
    IsFlush ms := by
  intro p hp hms
  apply h p hp
  intro l hl hw
  obtain ⟨m, hm, hmw, hpre⟩ := hfront l hl hw
  exact (hms m hm hmw).trans hpre

/-- Without the indentation that they share, lines are flush. -/
theorem isFlush_stripped {ls : List Text} (hne : ∃ l ∈ ls, isWhite l = false) :
    IsFlush (ls.map (stripIndentation (sharedIndentation ls))) := by
  intro p hp hall
  have hshared := isWhite_sharedIndentation ls
  have hboth : isWhite (sharedIndentation ls ++ p) = true := by simp [isWhite_append, hshared, hp]
  have hlonger : sharedIndentation ls ++ p <+: sharedIndentation ls := by
    apply prefix_sharedIndentation hboth hne
    intro l hl hw
    obtain ⟨r, rfl⟩ := sharedIndentation_prefix hl hw
    have hstrip := stripIndentation_append (sharedIndentation ls) r
    have hr : isWhite r = false := by simpa [isWhite_append, hshared] using hw
    have hpr : p <+: r := hall r (List.mem_map.mpr ⟨_, hl, hstrip⟩) hr
    exact (List.prefix_append_right_inj _).mpr hpr
  have hlength := hlonger.length_le
  rw [List.length_append] at hlength
  exact List.eq_nil_of_length_eq_zero (by omega)

theorem isWhite_dropEndWhile {p : Char → Bool} (hp : ∀ c, p c = true → isSpace c = true)
    (t : Text) : isWhite (dropEndWhile p t) = isWhite t := by
  have hreverse (u : Text) : isWhite u.reverse = isWhite u := by simp [isWhite]
  rw [dropEndWhile, hreverse, isWhite_dropWhile p hp, hreverse]

theorem dropEndWhile_prefix (p : Char → Bool) (t : Text) : dropEndWhile p t <+: t :=
  List.rdropWhile_prefix p t

theorem not_mem_of_mem_lines {t l : Text} (h : l ∈ lines t) : '\n' ∉ l := by
  obtain ⟨ls, last, hsplit⟩ := (List.eq_nil_or_concat' _).resolve_left (List.splitOn_ne_nil '\n' t)
  have hparts : ∀ m ∈ ls ++ [last], '\n' ∉ m := by
    intro m hm
    rw [← hsplit] at hm
    exact not_mem_of_mem_splitOn hm
  rw [lines, hsplit, terminated_append_last] at h
  obtain h | h := List.mem_append.mp h
  · obtain ⟨m, hm, rfl⟩ := List.mem_map.mp h
    have hsub : dropReturn m ⊆ m := by
      unfold dropReturn
      split
      · exact List.dropLast_subset m
      · exact List.Subset.refl m
    intro hn
    exact hparts m (List.mem_append_left _ hm) (hsub hn)
  · obtain rfl : l = last := by
      split at h
      · cases h
      · simpa using h
    exact hparts l (by simp)

theorem lines_newline_ne_nil (t : Text) : lines ('\n' :: t) ≠ [] := by
  cases hsplit : t.splitOn '\n' with
  | nil => exact absurd hsplit (List.splitOn_ne_nil '\n' t)
  | cons l ls => simp [lines, List.splitOn_cons_eq_if_modifyHead, hsplit, terminated]

theorem splitOn_dedent {t : Text} (hne : lines t ≠ []) :
    (dedent t).splitOn '\n' = (lines t).map (stripIndentation (sharedIndentation (lines t))) := by
  apply List.splitOn_intercalate
  · intro l hl hn
    obtain ⟨m, hm, rfl⟩ := List.mem_map.mp hl
    apply not_mem_of_mem_lines hm
    unfold stripIndentation at hn
    split at hn
    · next rest hrest =>
      rw [after?_eq_some hrest]
      exact List.mem_append_right _ hn
    · exact (List.dropWhile_suffix isSpace).subset hn
  · simpa using hne

theorem isWhite_stripIndentation {p : Text} (hp : isWhite p = true) (l : Text) :
    isWhite (stripIndentation p l) = isWhite l := by
  unfold stripIndentation
  split
  · next rest hrest => simp [after?_eq_some hrest, isWhite_append, hp]
  · exact isWhite_trimStart l

theorem isFlush_dedent {t : Text} (hne : lines t ≠ [])
    (hvisible : ∃ l ∈ (dedent t).splitOn '\n', isWhite l = false) :
    IsFlush ((dedent t).splitOn '\n') := by
  rw [splitOn_dedent hne] at hvisible ⊢
  apply isFlush_stripped
  obtain ⟨l, hl, hw⟩ := hvisible
  obtain ⟨m, hm, rfl⟩ := List.mem_map.mp hl
  rw [isWhite_stripIndentation (isWhite_sharedIndentation _)] at hw
  exact ⟨m, hm, hw⟩

theorem IsFlush.trimLineEnds {t : Text} (h : IsFlush (t.splitOn '\n')) :
    IsFlush ((trimLineEnds t).splitOn '\n') := by
  apply h.of_fronts
  intro l hl hw
  refine ⟨dropEndWhile isBlank l, ?_, ?_, dropEndWhile_prefix isBlank l⟩
  · rw [splitOn_trimLineEnds]
    exact List.mem_map_of_mem hl
  · rw [isWhite_dropEndWhile (fun _ => isSpace_of_isBlank), hw]

theorem dropWhiteLines_suffix (ls : List Text) : dropWhiteLines ls <:+ ls := by
  induction ls with
  | nil => exact List.suffix_rfl
  | cons l ls ih =>
    unfold dropWhiteLines
    split
    · exact ih.trans (List.suffix_cons l ls)
    · exact List.suffix_rfl

theorem head?_dropWhiteLines (ls : List Text) :
    ∀ l ∈ (dropWhiteLines ls).head?, isWhite l = false := by
  induction ls with
  | nil => simp [dropWhiteLines]
  | cons l ls ih =>
    unfold dropWhiteLines
    split
    · exact ih
    · next hw => simpa using hw

theorem mem_dropWhiteLines {ls : List Text} {l : Text} (hl : l ∈ ls) (hw : isWhite l = false) :
    l ∈ dropWhiteLines ls := by
  induction ls with
  | nil => cases hl
  | cons m ls ih =>
    unfold dropWhiteLines
    split
    · next hm =>
      obtain rfl | hl := List.mem_cons.mp hl
      · simp [hw] at hm
      · exact ih hl
    · exact hl

theorem IsFlush.dropWhiteLines {ls : List Text} (h : IsFlush ls) :
    IsFlush (Text.dropWhiteLines ls) := by
  apply h.of_fronts
  intro l hl hw
  exact ⟨l, mem_dropWhiteLines hl hw, hw, List.prefix_rfl⟩

/-- Of a text that is trimmed, the lines are those of the whole up to one that is cut at its end. -/
theorem exists_splitOn_trimEnd (t : Text) : ∃ ls l w ws,
    (trimEnd t).splitOn '\n' = ls ++ [l] ∧ t.splitOn '\n' = ls ++ (l ++ w) :: ws ∧
      isWhite w = true ∧ ∀ m ∈ ws, isWhite m = true := by
  obtain ⟨white, ht, hwhite⟩ := exists_trimEnd_append t
  obtain ⟨ls, l, hfront⟩ :=
    (List.eq_nil_or_concat' _).resolve_left (List.splitOn_ne_nil '\n' (trimEnd t))
  cases hback : white.splitOn '\n' with
  | nil => exact absurd hback (List.splitOn_ne_nil '\n' white)
  | cons w ws =>
    have hparts : ∀ m ∈ w :: ws, isWhite m = true := by
      intro m hm
      rw [← hback] at hm
      rw [isWhite_iff] at hwhite ⊢
      intro c hc
      exact hwhite c ((infix_of_mem_splitOn hm).subset hc)
    refine ⟨ls, l, w, ws, hfront, ?_, hparts w (by simp), ?_⟩
    · rw [ht, splitOn_append_parts hfront hback]
    · intro m hm
      exact hparts m (List.mem_cons_of_mem w hm)

/-- What is left of flush lines is in normal form once nothing invisible is at the end. -/
theorem isNormal_trimEnd {t : Text} (hfirst : ∀ l ∈ (t.splitOn '\n').head?, isWhite l = false)
    (hends : ∀ l ∈ t.splitOn '\n', ∀ c ∈ l.getLast?, isBlank c = false)
    (hflush : IsFlush (t.splitOn '\n')) : IsNormal (trimEnd t) := by
  obtain ⟨ls, l, w, ws, htrim, hwhole, hw, hws⟩ := exists_splitOn_trimEnd t
  have hlast := getLast?_dropEndWhile isSpace t
  rw [hwhole] at hfirst hends hflush
  have hcut : isWhite (l ++ w) = isWhite l := by simp [isWhite_append, hw]
  refine ⟨?_, hlast, ?_, ?_⟩
  · rw [htrim]
    cases ls with
    | nil => simpa [hcut] using hfirst
    | cons m ls => simpa using hfirst
  · intro m hm c hc
    rw [htrim] at hm
    obtain hm | hm := List.mem_append.mp hm
    · exact hends m (List.mem_append_left _ hm) c hc
    · -- the end of the last line is the end of the text
      obtain rfl := List.mem_singleton.mp hm
      have hjoin : ['\n'].intercalate ((trimEnd t).splitOn '\n') = trimEnd t :=
        List.intercalate_splitOn '\n'
      rw [htrim, intercalate_append_last] at hjoin
      have hend : c ∈ (trimEnd t).getLast? := by
        rw [← hjoin, List.getLast?_append]
        simp [show m.getLast? = some c from hc]
      by_contra hblank
      have hspace := isSpace_of_isBlank (by simpa using hblank)
      rw [hlast c hend] at hspace
      cases hspace
  · rw [htrim]
    apply hflush.of_fronts
    intro m hm hvisible
    obtain hm | hm := List.mem_append.mp hm
    · exact ⟨m, List.mem_append_left _ hm, hvisible, List.prefix_rfl⟩
    obtain rfl | hm := List.mem_cons.mp hm
    · rw [hcut] at hvisible
      exact ⟨l, by simp, hvisible, List.prefix_append l w⟩
    · simp [hws m hm] at hvisible

/-- The rewrites after the dedenting make the normal form of lines that are flush. -/
theorem isNormal_of_isFlush {t : Text}
    (hflush : (∃ l ∈ t.splitOn '\n', isWhite l = false) → IsFlush (t.splitOn '\n'))
    (hne : dropWhiteLines ((trimLineEnds t).splitOn '\n') ≠ []) :
    IsNormal (trimEnd (['\n'].intercalate (dropWhiteLines ((trimLineEnds t).splitOn '\n')))) := by
  have hsuffix := dropWhiteLines_suffix ((trimLineEnds t).splitOn '\n')
  have hfirst := head?_dropWhiteLines ((trimLineEnds t).splitOn '\n')
  have hsplit := List.splitOn_intercalate '\n'
    (fun l hl => not_mem_of_mem_splitOn (hsuffix.subset hl)) hne
  have hvisible : ∃ l ∈ t.splitOn '\n', isWhite l = false := by
    obtain ⟨m, hm⟩ := Option.ne_none_iff_exists'.mp (mt List.head?_eq_none_iff.mp hne)
    have hw := hfirst m hm
    have hmem := hsuffix.subset (List.mem_of_head? hm)
    rw [splitOn_trimLineEnds] at hmem
    obtain ⟨l, hl, rfl⟩ := List.mem_map.mp hmem
    rw [isWhite_dropEndWhile (fun _ => isSpace_of_isBlank)] at hw
    exact ⟨l, hl, hw⟩
  apply isNormal_trimEnd
  · rwa [hsplit]
  · rw [hsplit]
    intro l hl
    exact getLast?_of_mem_trimLineEnds (hsuffix.subset hl)
  · rw [hsplit]
    exact (hflush hvisible).trimLineEnds.dropWhiteLines

theorem normalForm_cases (body : Text) : normalForm body = [] ∨ IsNormal (normalForm body) := by
  by_cases hnil : dropWhiteLines ((trimLineEnds (dedent ('\n' :: body))).splitOn '\n') = []
  · left
    rw [normalForm, hnil]
    rfl
  · right
    exact isNormal_of_isFlush (isFlush_dedent (lines_newline_ne_nil body)) hnil

end Text

namespace Scan

/-- On the way from one scan to the other, comments were closed, each with a text in normal form. -/
def Closes (s s' : Scan) : Prop :=
  ∃ new, s'.closed = new ++ s.closed ∧ ∀ c ∈ new, ∃ body, c.text = Text.normalForm body

section Closes
variable {s s' s'' : Scan}

theorem Closes.of_eq (h : s'.closed = s.closed) : Closes s s' := ⟨[], h, by simp⟩

theorem Closes.trans (h : Closes s s') (h' : Closes s' s'') : Closes s s'' := by
  obtain ⟨new, hnew, htexts⟩ := h
  obtain ⟨new', hnew', htexts'⟩ := h'
  refine ⟨new' ++ new, by simp [hnew', hnew], ?_⟩
  intro c hc
  obtain hc | hc := List.mem_append.mp hc
  · exact htexts' c hc
  · exact htexts c hc

theorem closed_of_leave {pos : Position} (h : s.leave pos = .ok s') : s'.closed = s.closed := by
  unfold leave at h
  split at h
  · rw [← Except.ok.inj h]
  · cases h

theorem closes_of_close {stop : Position} (h : s.close stop = .ok s') : Closes s s' := by
  unfold close at h
  cases hleave : s.leave stop with
  | error e => simp [hleave, Except.map] at h
  | ok s₁ =>
    rw [hleave] at h
    rw [← Except.ok.inj h]
    refine ⟨[⟨s₁.start, stop, Text.normalForm s₁.body⟩], ?_, by simp⟩
    simp [closed_of_leave hleave]

theorem closed_codeStep (line col : Nat) {rest : Text} (hne : rest ≠ []) (s : Scan) :
    (codeStep line col rest s).2.closed = s.closed := by
  obtain ⟨k, -, -, hk⟩ := codeStep_cases col hne
  cases hk with
  | pass h => rw [h]
  | stray h => rw [h]; rfl
  | plainBlock h => rw [h]; rfl
  | docBlock _ h => rw [h]; rfl
  | docLine _ _ _ _ _ h => rw [h]; rfl

theorem closes_of_step {line col k : Nat} {rest : Text} (hne : rest ≠ [])
    (h : s.step line col rest = .ok (k, s')) : Closes s s' := by
  unfold step at h
  split at h
  · have hstep := closed_codeStep line col hne s
    rw [Except.ok.inj h] at hstep
    exact .of_eq hstep
  · unfold docBlockStep at h
    split at h
    · obtain ⟨-, hclose⟩ := eq_of_map_ok h
      have hadd := closes_of_close hclose
      exact hadd
    · obtain ⟨-, rfl⟩ := Prod.mk.inj (Except.ok.inj h)
      exact .of_eq rfl
  · unfold plainBlockStep at h
    split at h
    · obtain ⟨-, hleave⟩ := eq_of_map_ok h
      exact .of_eq (closed_of_leave hleave)
    · obtain ⟨-, rfl⟩ := Prod.mk.inj (Except.ok.inj h)
      exact .of_eq rfl
  · obtain ⟨-, rfl⟩ := Prod.mk.inj (Except.ok.inj h)
    exact .of_eq rfl

theorem closes_of_steps {line col skip : Nat} {t : Text}
    (h : steps line col skip t s = .ok s') : Closes s s' := by
  induction t generalizing col skip s with
  | nil =>
    rw [steps] at h
    obtain rfl := Except.ok.inj h
    exact .of_eq rfl
  | cons c t ih =>
    cases skip with
    | succ skip => exact ih h
    | zero =>
      rw [steps] at h
      split at h
      · cases h
      · next k s₁ hstep => exact (closes_of_step (List.cons_ne_nil c t) hstep).trans (ih h)

theorem closes_of_freshLine {number : Nat} {l : Text} (h : s.freshLine number l = .ok s') :
    Closes s s' := by
  unfold freshLine at h
  cases hsteps : steps number 1 (if s.mode = .docBlock then decoration l else 0) l s with
  | error e => simp [hsteps, Except.map] at h
  | ok s₁ =>
    rw [hsteps] at h
    have hend : s'.closed = s₁.closed := by
      rw [← Except.ok.inj h]
      dsimp only
      split <;> rfl
    exact (closes_of_steps hsteps).trans (.of_eq hend)

theorem closes_of_line {number : Nat} {l : Text} (h : s.line number l = .ok s') :
    Closes s s' := by
  unfold line at h
  split at h
  · split at h
    · rw [← Except.ok.inj h]
      exact .of_eq rfl
    · split at h
      · cases h
      · next s₁ hclose => exact (closes_of_close hclose).trans (closes_of_freshLine h)
  · exact closes_of_freshLine h

theorem closes_of_lines {number : Nat} {ls : List Text} (h : lines number ls s = .ok s') :
    Closes s s' := by
  induction ls generalizing number s with
  | nil =>
    obtain rfl := Except.ok.inj h
    exact .of_eq rfl
  | cons l ls ih =>
    rw [lines] at h
    split at h
    · cases h
    · next s₁ hline => exact (closes_of_line hline).trans (ih h)

theorem closes_of_finish (h : s.finish = .ok s') : Closes s s' := by
  unfold finish at h
  split at h
  · exact closes_of_close h
  · rw [← Except.ok.inj h]
    exact .of_eq rfl
  · obtain rfl := Except.ok.inj h
    exact .of_eq rfl
  · obtain rfl := Except.ok.inj h
    exact .of_eq rfl

end Closes

end Scan

/--
The texts of comments are in normal form: they begin with a line that holds something and end
visibly, no line ends in a blank, and no indentation is shared by all lines. An empty comment has
the empty text.
-/
theorem Comment.scan_isNormal (source : Text) : ∃ cs ws, scan source = .ok (cs, ws) ∧
    ∀ c ∈ cs, c.text = [] ∨ Text.IsNormal c.text := by
  obtain ⟨s, s', hs, -, hfinish, hscan⟩ := Scan.exists_scan source
  obtain ⟨new, hnew, htexts⟩ := (Scan.closes_of_lines hs).trans (Scan.closes_of_finish hfinish)
  refine ⟨_, _, hscan, ?_⟩
  intro c hc
  have hmem : c ∈ new := by simpa [hnew] using List.mem_reverse.mp hc
  obtain ⟨body, hbody⟩ := htexts c hmem
  rw [hbody]
  exact Text.normalForm_cases body

end LuaStubs
