import LuaStubs.Proofs.Text.Parts
import LuaStubs.Text.Lines

namespace LuaStubs.Text

theorem commonPrefix_prefix_left (s t : Text) : commonPrefix s t <+: s := by
  fun_induction commonPrefix s t with
  | case1 s d t ih => exact List.cons_prefix_cons.mpr ⟨rfl, ih⟩
  | case2 => exact List.nil_prefix
  | case3 => exact List.nil_prefix

theorem commonPrefix_prefix_right (s t : Text) : commonPrefix s t <+: t := by
  fun_induction commonPrefix s t with
  | case1 s d t ih => exact List.cons_prefix_cons.mpr ⟨rfl, ih⟩
  | case2 => exact List.nil_prefix
  | case3 => exact List.nil_prefix

theorem prefix_commonPrefix {p s t : Text} (hs : p <+: s) (ht : p <+: t) :
    p <+: commonPrefix s t := by
  induction p generalizing s t with
  | nil => exact List.nil_prefix
  | cons c p ih =>
    obtain ⟨s, rfl⟩ := hs
    obtain ⟨t, rfl⟩ := ht
    simp only [List.cons_append, commonPrefix, if_true]
    exact List.cons_prefix_cons.mpr ⟨rfl, ih (List.prefix_append p s) (List.prefix_append p t)⟩

theorem foldl_commonPrefix_prefix (i : Text) (is : List Text) :
    is.foldl commonPrefix i <+: i ∧ ∀ j ∈ is, is.foldl commonPrefix i <+: j := by
  induction is generalizing i with
  | nil => exact ⟨List.prefix_rfl, by simp⟩
  | cons k ks ih =>
    obtain ⟨hi, hks⟩ := ih (commonPrefix i k)
    refine ⟨hi.trans (commonPrefix_prefix_left i k), ?_⟩
    intro j hj
    obtain rfl | hj := List.mem_cons.mp hj
    · exact hi.trans (commonPrefix_prefix_right i j)
    · exact hks j hj

theorem prefix_foldl_commonPrefix {p i : Text} {is : List Text} (hi : p <+: i)
    (his : ∀ j ∈ is, p <+: j) : p <+: is.foldl commonPrefix i := by
  induction is generalizing i with
  | nil => exact hi
  | cons k ks ih =>
    apply ih (prefix_commonPrefix hi (his k (by simp)))
    intro j hj
    exact his j (List.mem_cons_of_mem k hj)

theorem prefix_indentation {p l : Text} (hp : isWhite p = true) (h : p <+: l) :
    p <+: indentation l := by
  obtain ⟨r, rfl⟩ := h
  rw [indentation, List.takeWhile_append_of_pos ((isWhite_iff p).mp hp)]
  exact List.prefix_append p _

theorem sharedIndentation_of_white {ls : List Text} (h : ∀ l ∈ ls, isWhite l = true) :
    sharedIndentation ls = [] := by
  have hnil : ls.filter (!isWhite ·) = [] := by simpa using h
  rw [sharedIndentation, hnil]
  rfl

theorem sharedIndentation_prefix_indentation {ls : List Text} {l : Text} (hl : l ∈ ls)
    (hw : isWhite l = false) : sharedIndentation ls <+: indentation l := by
  have hmem : indentation l ∈ (ls.filter (!isWhite ·)).map indentation :=
    List.mem_map_of_mem (List.mem_filter.mpr ⟨hl, by simp [hw]⟩)
  unfold sharedIndentation
  split
  · exact List.nil_prefix
  · next i is his =>
    rw [his] at hmem
    obtain ⟨hi, hall⟩ := foldl_commonPrefix_prefix i is
    obtain h | h := List.mem_cons.mp hmem
    · rw [h]
      exact hi
    · exact hall _ h

theorem sharedIndentation_prefix {ls : List Text} {l : Text} (hl : l ∈ ls)
    (hw : isWhite l = false) : sharedIndentation ls <+: l :=
  (sharedIndentation_prefix_indentation hl hw).trans (List.takeWhile_prefix isSpace)

theorem isWhite_sharedIndentation (ls : List Text) : isWhite (sharedIndentation ls) = true := by
  by_cases h : ∃ l ∈ ls, isWhite l = false
  · obtain ⟨l, hl, hw⟩ := h
    rw [isWhite_iff]
    intro c hc
    exact List.mem_takeWhile_imp ((sharedIndentation_prefix_indentation hl hw).subset hc)
  · rw [sharedIndentation_of_white (by simpa using h)]
    rfl

/-- No indentation that the lines share is longer. -/
theorem prefix_sharedIndentation {p : Text} {ls : List Text} (hp : isWhite p = true)
    (hne : ∃ l ∈ ls, isWhite l = false) (h : ∀ l ∈ ls, isWhite l = false → p <+: l) :
    p <+: sharedIndentation ls := by
  have hall : ∀ i ∈ (ls.filter (!isWhite ·)).map indentation, p <+: i := by
    intro i hi
    obtain ⟨l, hl, rfl⟩ := List.mem_map.mp hi
    obtain ⟨hl, hw⟩ := List.mem_filter.mp hl
    exact prefix_indentation hp (h l hl (by simpa using hw))
  unfold sharedIndentation
  split
  · next hnil =>
    obtain ⟨l, hl, hw⟩ := hne
    rw [List.map_eq_nil_iff, List.filter_eq_nil_iff] at hnil
    exact absurd (by simp [hw]) (hnil l hl)
  · next i is his =>
    rw [his] at hall
    apply prefix_foldl_commonPrefix (hall i (by simp))
    intro j hj
    exact hall j (List.mem_cons_of_mem i hj)

/-- The texts that comments hold. -/
structure IsNormal (t : Text) : Prop where
  first : ∀ l ∈ (t.splitOn '\n').head?, isWhite l = false
  last : ∀ c ∈ t.getLast?, isSpace c = false
  lineEnds : ∀ l ∈ t.splitOn '\n', ∀ c ∈ l.getLast?, isBlank c = false
  flush : ∀ p, isWhite p = true → (∀ l ∈ t.splitOn '\n', isWhite l = false → p <+: l) → p = []

theorem IsNormal.exists_visible {t : Text} (h : IsNormal t) :
    ∃ l ∈ t.splitOn '\n', isWhite l = false := by
  cases hl : t.splitOn '\n' with
  | nil => exact absurd hl (List.splitOn_ne_nil '\n' t)
  | cons l ls => exact ⟨l, by simp, h.first l (by rw [hl]; rfl)⟩

theorem isNormal_iff (t : Text) : IsNormal t ↔
    (t.splitOn '\n').head?.all (!isWhite ·) ∧ t.getLast?.all (!isSpace ·) ∧
    (t.splitOn '\n').all (·.getLast?.all (!isBlank ·)) ∧
    sharedIndentation (t.splitOn '\n') = [] := by
  simp only [Option.all_eq_true, List.all_eq_true, Bool.not_eq_true']
  constructor
  · intro h
    exact ⟨h.first, h.last, h.lineEnds, h.flush _ (isWhite_sharedIndentation _)
      fun l hl hw => sharedIndentation_prefix hl hw⟩
  · intro ⟨hfirst, hlast, hends, hshared⟩
    refine ⟨hfirst, hlast, hends, ?_⟩
    intro p hp hall
    cases hl : t.splitOn '\n' with
    | nil => exact absurd hl (List.splitOn_ne_nil '\n' t)
    | cons l ls =>
      have hpre := prefix_sharedIndentation hp ⟨l, by simp [hl], hfirst l (by rw [hl]; rfl)⟩ hall
      rw [hshared] at hpre
      exact List.prefix_nil.mp hpre

instance (t : Text) : Decidable (IsNormal t) := decidable_of_iff _ (isNormal_iff t).symm

/-- A line after a space; an empty line stays empty. -/
def indented (line : Text) : Text := if line = [] then [] else ' ' :: line

theorem isWhite_indented (l : Text) : isWhite (indented l) = isWhite l := by
  unfold indented
  split
  · next h => rw [h]
  · rfl

theorem stripIndentation_indented (l : Text) : stripIndentation [' '] (indented l) = l := by
  unfold indented
  split
  · next h => rw [h]; rfl
  · rfl

theorem indented_of_not_white {l : Text} (h : isWhite l = false) : indented l = ' ' :: l := by
  apply if_neg
  intro hl
  rw [hl] at h
  cases h

theorem not_mem_indented {c : Char} (hc : c ≠ ' ') {l : Text} (h : c ∉ l) : c ∉ indented l := by
  unfold indented
  split <;> simp [hc, h]

theorem not_mem_indented_line {t l : Text} (hr : '\r' ∉ t) (hl : l ∈ t.splitOn '\n') :
    '\n' ∉ indented l ∧ '\r' ∉ indented l := by
  have hr' : '\r' ∉ l := fun hc => hr ((infix_of_mem_splitOn hl).subset hc)
  exact ⟨not_mem_indented (by decide) (not_mem_of_mem_splitOn hl),
    not_mem_indented (by decide) hr'⟩

theorem dropReturn_of_not_mem {l : Text} (h : '\r' ∉ l) : dropReturn l = l := by
  apply if_neg
  intro hl
  exact h (List.mem_of_getLast? hl)

theorem dropReturn_append {s : Text} (hs : s.getLast? ≠ some '\r') (t : Text) :
    dropReturn (s ++ t) = s ++ dropReturn t := by
  obtain rfl | ⟨t, c, rfl⟩ := List.eq_nil_or_concat' t
  · simp [dropReturn, hs]
  · unfold dropReturn
    rw [← List.append_assoc, List.getLast?_concat, List.getLast?_concat, List.dropLast_concat,
      List.dropLast_concat]
    split
    · rfl
    · exact List.append_assoc s t [c]

theorem map_dropReturn {ls : List Text} (h : ∀ l ∈ ls, '\r' ∉ l) : ls.map dropReturn = ls := by
  have hid : ls.map dropReturn = ls.map id :=
    List.map_congr_left fun l hl => dropReturn_of_not_mem (h l hl)
  rw [hid, List.map_id]

theorem terminated_append_last (ls : List Text) (last : Text) :
    terminated (ls ++ [last]) = ls.map dropReturn ++ if last = [] then [] else [last] := by
  induction ls with
  | nil => rfl
  | cons l ls ih =>
    rw [List.map_cons, List.cons_append, List.cons_append, ← ih]
    cases ls <;> rfl

theorem lines_intercalate {ls : List Text} (h : ∀ l ∈ ls, '\n' ∉ l ∧ '\r' ∉ l) {last : Text}
    (hlast : '\n' ∉ last) :
    lines (['\n'].intercalate (ls ++ [last])) = ls ++ if last = [] then [] else [last] := by
  have hn : ∀ l ∈ ls ++ [last], '\n' ∉ l := by
    intro l hl
    obtain hl | hl := List.mem_append.mp hl
    · exact (h l hl).1
    · rwa [List.mem_singleton.mp hl]
  rw [lines, List.splitOn_intercalate '\n' hn (by simp), terminated_append_last,
    map_dropReturn fun l hl => (h l hl).2]

theorem dropEndWhile_eq_self {p : Char → Bool} {t : Text} (h : ∀ c ∈ t.getLast?, p c = false) :
    dropEndWhile p t = t := by
  apply List.rdropWhile_eq_self_iff.mpr
  intro hl
  rw [h _ (List.getLast?_eq_some_getLast hl)]
  exact Bool.false_ne_true

theorem trimLineEnds_intercalate {ls : List Text} (hne : ls ≠ []) (hn : ∀ l ∈ ls, '\n' ∉ l)
    (h : ∀ l ∈ ls, ∀ c ∈ l.getLast?, isBlank c = false) :
    trimLineEnds (['\n'].intercalate ls) = ['\n'].intercalate ls := by
  have hmap : ls.map (dropEndWhile isBlank) = ls.map id :=
    List.map_congr_left fun l hl => dropEndWhile_eq_self (h l hl)
  rw [trimLineEnds, List.splitOn_intercalate '\n' hn hne, hmap, List.map_id]

theorem trimLineEnds_append (s t : Text) :
    trimLineEnds (s ++ '\n' :: t) = trimLineEnds s ++ '\n' :: trimLineEnds t := by
  have hne (t : Text) : (t.splitOn '\n').map (dropEndWhile isBlank) ≠ [] := by
    simp [List.splitOn_ne_nil]
  rw [trimLineEnds, List.splitOn_append_cons_self, List.map_append,
    intercalate_append _ (hne s) (hne t), List.append_assoc]
  rfl

/-- Only white space is trimmed away. -/
theorem isWhite_of_trimLineEnds_eq_nil {t : Text} (h : trimLineEnds t = []) : isWhite t = true := by
  have hjoin : ['\n'].intercalate (t.splitOn '\n') = t := List.intercalate_splitOn '\n'
  rw [← hjoin]
  refine isWhite_intercalate rfl ?_
  intro l hl
  have hinfix := infix_intercalate ['\n'] (List.mem_map_of_mem (f := dropEndWhile isBlank) hl)
  rw [show ['\n'].intercalate ((t.splitOn '\n').map (dropEndWhile isBlank)) = [] from h] at hinfix
  have hblank := List.rdropWhile_eq_nil_iff.mp (List.infix_nil.mp hinfix)
  exact (isWhite_iff l).mpr fun c hc => isSpace_of_isBlank (hblank c hc)

theorem dropWhiteLines_replicate (k : Nat) (ls : List Text) :
    dropWhiteLines (List.replicate k [] ++ ls) = dropWhiteLines ls := by
  induction k with
  | zero => rfl
  | succ k ih => exact ih

namespace IsNormal
variable {t : Text} (h : IsNormal t)
include h

theorem sharedIndentation_indented {ls : List Text}
    (hls : ∀ l ∈ ls, isWhite l = true ∨ ∃ m ∈ t.splitOn '\n', l = indented m)
    (hall : ∀ m ∈ t.splitOn '\n', indented m ∈ ls) : sharedIndentation ls = [' '] := by
  have hspace : [' '] <+: sharedIndentation ls := by
    refine prefix_sharedIndentation rfl ?_ ?_
    · obtain ⟨m, hm, hw⟩ := h.exists_visible
      exact ⟨indented m, hall m hm, by rw [isWhite_indented, hw]⟩
    · intro l hl hw
      obtain hw' | ⟨m, -, rfl⟩ := hls l hl
      · rw [hw] at hw'
        cases hw'
      · rw [isWhite_indented] at hw
        rw [indented_of_not_white hw]
        exact List.prefix_append [' '] m
  -- a longer indentation would be shared by the lines of the text as well
  obtain ⟨p, hp⟩ := hspace
  have hwhite := isWhite_sharedIndentation ls
  rw [← hp, isWhite_append, Bool.and_eq_true] at hwhite
  have hnil : p = [] := by
    refine h.flush p hwhite.2 ?_
    intro m hm hw
    have hpre := sharedIndentation_prefix (hall m hm) (by rw [isWhite_indented, hw])
    rw [← hp, indented_of_not_white hw] at hpre
    exact (List.cons_prefix_cons.mp hpre).2
  rw [← hp, hnil]
  rfl

omit h in
theorem not_mem_of_mem_indented (hr : '\r' ∉ t) (k : Nat) :
    ∀ l ∈ List.replicate k [] ++ (t.splitOn '\n').map indented, '\n' ∉ l ∧ '\r' ∉ l := by
  intro l hl
  obtain hl | hl := List.mem_append.mp hl
  · rw [List.eq_of_mem_replicate hl]
    simp
  · obtain ⟨m, hm, rfl⟩ := List.mem_map.mp hl
    exact not_mem_indented_line hr hm

/-- Lines that are indented by a space, between white lines, are dedented. -/
theorem dedent_indented (hr : '\r' ∉ t) (k : Nat) {tail : Text} (htail : tail = [] ∨ tail = [' ']) :
    ∃ j, dedent (['\n'].intercalate
        (List.replicate k [] ++ (t.splitOn '\n').map indented ++ [tail])) =
      ['\n'].intercalate (List.replicate k [] ++ t.splitOn '\n' ++ List.replicate j []) := by
  have hshared : sharedIndentation (List.replicate k [] ++ (t.splitOn '\n').map indented ++
      if tail = [] then [] else [tail]) = [' '] := by
    apply h.sharedIndentation_indented
    · intro l hl
      obtain hl | hl := List.mem_append.mp hl
      · obtain hl | hl := List.mem_append.mp hl
        · rw [List.eq_of_mem_replicate hl]
          exact Or.inl rfl
        · obtain ⟨m, hm, rfl⟩ := List.mem_map.mp hl
          exact Or.inr ⟨m, hm, rfl⟩
      · obtain rfl | rfl := htail
        · cases hl
        · obtain rfl := List.mem_singleton.mp hl
          exact Or.inl rfl
    · intro m hm
      exact List.mem_append_left _ (List.mem_append_right _ (List.mem_map_of_mem hm))
  have hlast : '\n' ∉ tail := by obtain rfl | rfl := htail <;> decide
  have hempty : stripIndentation [' '] [] = [] := rfl
  rw [dedent, lines_intercalate (not_mem_of_mem_indented hr k) hlast, hshared, List.map_append,
    List.map_append, List.map_replicate, List.map_map, hempty]
  have hid : stripIndentation [' '] ∘ indented = id := funext stripIndentation_indented
  rw [hid, List.map_id]
  obtain rfl | rfl := htail
  · exact ⟨0, rfl⟩
  · exact ⟨1, rfl⟩

theorem trimEnd_append_newlines (j : Nat) :
    trimEnd (['\n'].intercalate (t.splitOn '\n' ++ List.replicate j [])) = t := by
  induction j with
  | zero =>
    rw [List.replicate_zero, List.append_nil, List.intercalate_splitOn]
    exact dropEndWhile_eq_self h.last
  | succ j ih =>
    have hne : t.splitOn '\n' ++ List.replicate j [] ≠ [] := by simp [List.splitOn_ne_nil]
    rw [List.replicate_succ', ← List.append_assoc, intercalate_concat _ _ hne, List.append_nil,
      trimEnd_append_white _ _ rfl, ih]

/-- What is left to do after the dedenting takes the white lines off. -/
theorem normalize_dedented (k j : Nat) :
    trimEnd (['\n'].intercalate (dropWhiteLines ((trimLineEnds (['\n'].intercalate
      (List.replicate k [] ++ t.splitOn '\n' ++ List.replicate j []))).splitOn '\n'))) = t := by
  have hmem : ∀ l ∈ List.replicate k [] ++ t.splitOn '\n' ++ List.replicate j [],
      l = [] ∨ l ∈ t.splitOn '\n' := by
    intro l hl
    obtain hl | hl := List.mem_append.mp hl
    · obtain hl | hl := List.mem_append.mp hl
      · exact Or.inl (List.eq_of_mem_replicate hl)
      · exact Or.inr hl
    · exact Or.inl (List.eq_of_mem_replicate hl)
  have hne : List.replicate k [] ++ t.splitOn '\n' ++ List.replicate j [] ≠ [] := by
    simp [List.splitOn_ne_nil]
  have hn : ∀ l ∈ List.replicate k [] ++ t.splitOn '\n' ++ List.replicate j [], '\n' ∉ l := by
    intro l hl
    obtain rfl | hl := hmem l hl
    · simp
    · exact not_mem_of_mem_splitOn hl
  have hends : ∀ l ∈ List.replicate k [] ++ t.splitOn '\n' ++ List.replicate j [],
      ∀ c ∈ l.getLast?, isBlank c = false := by
    intro l hl
    obtain rfl | hl := hmem l hl
    · simp
    · exact h.lineEnds l hl
  have hdrop : dropWhiteLines (t.splitOn '\n' ++ List.replicate j []) =
      t.splitOn '\n' ++ List.replicate j [] := by
    cases hl : t.splitOn '\n' with
    | nil => exact absurd hl (List.splitOn_ne_nil '\n' t)
    | cons l ls => simp [dropWhiteLines, h.first l (by rw [hl]; rfl)]
  rw [trimLineEnds_intercalate hne hn hends, List.splitOn_intercalate '\n' hn hne,
    List.append_assoc, dropWhiteLines_replicate, hdrop, h.trimEnd_append_newlines j]

/-- A text in normal form is the normal form of its indented lines. -/
theorem normalForm_indented (hr : '\r' ∉ t) (k : Nat) {tail : Text}
    (htail : tail = [] ∨ tail = [' ']) :
    normalForm (['\n'].intercalate
      (List.replicate k [] ++ (t.splitOn '\n').map indented ++ [tail])) = t := by
  have hcons : '\n' :: ['\n'].intercalate
      (List.replicate k [] ++ (t.splitOn '\n').map indented ++ [tail]) = ['\n'].intercalate
      (List.replicate (k + 1) [] ++ (t.splitOn '\n').map indented ++ [tail]) := by
    rw [intercalate_append_last, intercalate_append_last]
    rfl
  obtain ⟨j, hj⟩ := h.dedent_indented hr (k + 1) htail
  rw [normalForm, hcons, hj, h.normalize_dedented]

end IsNormal

end LuaStubs.Text
