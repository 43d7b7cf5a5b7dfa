import LuaStubs.Text.Basic
import Mathlib.Data.List.DropRight

namespace LuaStubs.Text

/-- A run of characters ends where one follows that does not belong to it. -/
theorem span_append (p : Char → Bool) (s r : Text) (hs : ∀ c ∈ s, p c = true)
    (hr : ∀ c ∈ r.head?, p c = false) :
    (s ++ r).takeWhile p = s ∧ (s ++ r).dropWhile p = r := by
  rw [List.takeWhile_append_of_pos hs, List.dropWhile_append_of_pos hs]
  cases r with
  | nil => simp
  | cons c r => simp [hr c rfl]

theorem dropEndWhile_append (p : Char → Bool) (s t : Text) :
    dropEndWhile p (s ++ t) = if t.all p then dropEndWhile p s else s ++ dropEndWhile p t := by
  have h : (t.reverse.dropWhile p).isEmpty = t.all p := by
    rw [Bool.eq_iff_iff, List.isEmpty_iff, List.dropWhile_eq_nil_iff]
    simp
  unfold dropEndWhile
  rw [List.reverse_append, List.dropWhile_append, h]
  split <;> simp

theorem isSpace_of_isBlank {c : Char} (h : isBlank c = true) : isSpace c = true := by
  simp only [isBlank, Bool.or_eq_true, beq_iff_eq] at h
  obtain rfl | rfl := h <;> decide

theorem isWhite_iff (t : Text) : isWhite t = true ↔ ∀ c ∈ t, isSpace c = true := by
  simp [isWhite]

theorem isWhite_append (s t : Text) : isWhite (s ++ t) = (isWhite s && isWhite t) := by
  simp [isWhite]

theorem isWhite_dropWhile (p : Char → Bool) (hp : ∀ c, p c = true → isSpace c = true) (t : Text) :
    isWhite (t.dropWhile p) = isWhite t := by
  have hlead : isWhite (t.takeWhile p) = true :=
    (isWhite_iff _).mpr fun c hc => hp c (List.mem_takeWhile_imp hc)
  conv_rhs => rw [← List.takeWhile_append_dropWhile (p := p) (l := t), isWhite_append, hlead]
  rfl

theorem isWhite_trimStart (t : Text) : isWhite (trimStart t) = isWhite t :=
  isWhite_dropWhile isSpace (fun _ h => h) t

theorem not_white_of_mem {c : Char} {t : Text} (hc : c ∈ t) (hs : isSpace c = false) :
    isWhite t = false := by
  by_contra hw
  rw [(isWhite_iff t).mp (by simpa using hw) c hc] at hs
  cases hs

theorem not_white_of_infix {s t : Text} (h : s <:+: t) (hs : isWhite s = false) :
    isWhite t = false := by
  by_contra hw
  have hall : isWhite s = true :=
    (isWhite_iff s).mpr fun c hc => (isWhite_iff t).mp (by simpa using hw) c (h.subset hc)
  rw [hall] at hs
  cases hs

theorem trimEnd_append (s t : Text) :
    trimEnd (s ++ t) = if isWhite t then trimEnd s else s ++ trimEnd t :=
  dropEndWhile_append isSpace s t

theorem trimEnd_append_white (s t : Text) (h : isWhite t = true) :
    trimEnd (s ++ t) = trimEnd s := by
  rw [trimEnd_append, if_pos h]

theorem trimEnd_eq_nil_iff (t : Text) : trimEnd t = [] ↔ isWhite t = true := by
  rw [isWhite_iff]
  exact List.rdropWhile_eq_nil_iff

theorem trimEnd_trimEnd (t : Text) : trimEnd (trimEnd t) = trimEnd t :=
  List.rdropWhile_idempotent isSpace t

/-- Trimming takes white space off the end and nothing else. -/
theorem exists_trimEnd_append (t : Text) : ∃ w, t = trimEnd t ++ w ∧ isWhite w = true := by
  obtain ⟨w, hw⟩ : trimEnd t <+: t := List.rdropWhile_prefix isSpace t
  refine ⟨w, hw.symm, ?_⟩
  by_contra h
  have hl := congrArg trimEnd hw
  rw [trimEnd_append, if_neg h] at hl
  have hn : trimEnd w = [] := List.append_cancel_left (hl.trans (List.append_nil _).symm)
  exact h ((trimEnd_eq_nil_iff w).mp hn)

/-- A trimmed text begins with nothing that the whole does not begin with. -/
theorem exists_of_trimEnd_eq {s t u : Text} (h : trimEnd t = s ++ u) : ∃ v, t = s ++ v := by
  obtain ⟨w, hw, -⟩ := exists_trimEnd_append t
  exact ⟨u ++ w, by rw [hw, h, List.append_assoc]⟩

theorem isWhite_trimEnd (t : Text) : isWhite (trimEnd t) = isWhite t := by
  obtain ⟨w, ht, hw⟩ := exists_trimEnd_append t
  conv_rhs => rw [ht, isWhite_append, hw, Bool.and_true]

/-- In front of a text that ends visibly nothing is trimmed. -/
theorem trimEnd_append_of_visible (s t : Text) (hs : trimEnd s = s) :
    trimEnd (s ++ t) = s ++ trimEnd t := by
  rw [trimEnd_append]
  split
  · next h => rw [hs, (trimEnd_eq_nil_iff t).mpr h, List.append_nil]
  · rfl

theorem trimEnd_cons (c : Char) (t : Text) (hc : isSpace c = false) :
    trimEnd (c :: t) = c :: trimEnd t :=
  trimEnd_append_of_visible [c] t (by simp [trimEnd, dropEndWhile, hc])

/-- A character before a text that is not white survives the trimming. -/
theorem trimEnd_cons_of_not_white (c : Char) (t : Text) (h : isWhite t = false) :
    trimEnd (c :: t) = c :: trimEnd t := by
  change trimEnd ([c] ++ t) = [c] ++ trimEnd t
  rw [trimEnd_append, if_neg (by simp [h])]

/-- Trimming a text leaves its first character or nothing. -/
theorem trimEnd_cons_cases (c : Char) (t : Text) :
    trimEnd (c :: t) = c :: trimEnd t ∨
      isSpace c = true ∧ isWhite t = true ∧ trimEnd (c :: t) = [] := by
  by_cases ht : isWhite t = true
  · by_cases hc : isSpace c = true
    · refine Or.inr ⟨hc, ht, (trimEnd_eq_nil_iff _).mpr ?_⟩
      simpa [isWhite, hc] using ht
    · exact Or.inl (trimEnd_cons c t (by simpa using hc))
  · exact Or.inl (trimEnd_cons_of_not_white c t (by simpa using ht))

theorem trimEnd_cons_of_visible {c : Char} {t : Text} (h : isWhite (c :: t) = false) :
    trimEnd (c :: t) = c :: trimEnd t := by
  obtain heq | ⟨-, -, heq⟩ := trimEnd_cons_cases c t
  · exact heq
  · rw [trimEnd_eq_nil_iff, h] at heq
    cases heq

theorem dropWhile_trimEnd (p : Char → Bool) (t : Text) :
    (trimEnd t).dropWhile p = trimEnd (t.dropWhile p) := by
  induction t with
  | nil => rfl
  | cons c t ih =>
    obtain h | ⟨hc, ht, h⟩ := trimEnd_cons_cases c t
    · rw [h]
      by_cases hp : p c = true
      · simpa [hp] using ih
      · simp [hp, h]
    · have hw : isWhite ((c :: t).dropWhile p) = true := by
        rw [isWhite_iff] at ht ⊢
        intro x hx
        have hm := (List.dropWhile_suffix p).subset hx
        simp only [List.mem_cons] at hm
        obtain rfl | hm := hm
        · exact hc
        · exact ht x hm
      rw [h, (trimEnd_eq_nil_iff _).mpr hw]
      rfl

theorem takeWhile_trimEnd (p : Char → Bool) (hp : ∀ c, p c = true → isSpace c = false) (t : Text) :
    (trimEnd t).takeWhile p = t.takeWhile p := by
  induction t with
  | nil => rfl
  | cons c t ih =>
    obtain h | ⟨hc, -, h⟩ := trimEnd_cons_cases c t
    · simp [h, List.takeWhile_cons, ih]
    · have hn : p c = false := by
        by_contra hpc
        rw [hp c (by simpa using hpc)] at hc
        exact Bool.false_ne_true hc
      simp [h, hn]

/-- The two sides of a text are trimmed in any order. -/
theorem trimStart_trimEnd (t : Text) : trimStart (trimEnd t) = trimEnd (trimStart t) :=
  dropWhile_trimEnd isSpace t

theorem trimStart_trimStart (t : Text) : trimStart (trimStart t) = trimStart t :=
  List.dropWhile_idempotent isSpace t

theorem trimStart_eq_nil_iff (t : Text) : trimStart t = [] ↔ isWhite t = true := by
  rw [isWhite_iff]
  exact List.dropWhile_eq_nil_iff

theorem trimStart_append_of_visible {s : Text} (h : isWhite s = false) (t : Text) :
    trimStart (s ++ t) = trimStart s ++ t := by
  have hne : ¬(s.dropWhile isSpace).isEmpty = true := by
    rw [List.isEmpty_iff, ← trimStart, trimStart_eq_nil_iff, h]
    exact Bool.false_ne_true
  rw [trimStart, List.dropWhile_append, if_neg hne, ← trimStart]

theorem length_trimEnd (t : Text) : (trimEnd t).length ≤ t.length :=
  (List.rdropWhile_prefix isSpace t).length_le

theorem trimEnd_append_trimEnd (s t : Text) : trimEnd (s ++ trimEnd t) = trimEnd (s ++ t) := by
  rw [trimEnd_append, trimEnd_append, isWhite_trimEnd, trimEnd_trimEnd]

theorem trimEnd_append_congr (s : Text) {t t' : Text} (h : trimEnd t' = trimEnd t) :
    trimEnd (s ++ t') = trimEnd (s ++ t) := by
  rw [← trimEnd_append_trimEnd s t', h, trimEnd_append_trimEnd]

theorem trimEnd_of_no_space {t : Text} (h : ∀ c ∈ t, isSpace c = false) : trimEnd t = t := by
  apply List.rdropWhile_eq_self_iff.mpr
  intro hl
  simp [h _ (List.getLast_mem hl)]

end LuaStubs.Text
