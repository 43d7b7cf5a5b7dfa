import LuaStubs.Proofs.Text.Trim
import LuaStubs.Text.Paragraphs

namespace LuaStubs.Text

/-- A text that can follow a word: it begins with white space if it holds anything. -/
def IsSetOff (t : Text) : Prop := ∀ c ∈ t.head?, isSpace c = true

theorem setOff_of_isSetOff {t : Text} (h : IsSetOff t) : setOff t = t := by
  cases t with
  | nil => rfl
  | cons c t => simp [setOff, startsWithSpace, h c rfl]

theorem isSetOff_setOff (t : Text) : IsSetOff (setOff t) := by
  intro c hc
  cases t with
  | nil => cases hc
  | cons d t =>
    by_cases hd : isSpace d = true
    · obtain rfl : d = c := by simpa [setOff, startsWithSpace, hd] using hc
      exact hd
    · obtain rfl : ' ' = c := by simpa [setOff, startsWithSpace, hd] using hc
      decide

theorem isSetOff_space (t : Text) : IsSetOff (' ' :: t) := by
  intro c hc
  obtain rfl : ' ' = c := Option.some.inj hc
  decide

theorem isSetOff_iff (t : Text) : IsSetOff t ↔ (t.isEmpty || startsWithSpace t) = true := by
  cases t <;> simp [IsSetOff, startsWithSpace]

theorem trimEnd_setOff (t : Text) : trimEnd (setOff (trimEnd t)) = trimEnd (setOff t) := by
  cases t with
  | nil => rfl
  | cons c t =>
    by_cases hc : isSpace c = true
    · have hs : setOff (c :: t) = c :: t := by simp [setOff, startsWithSpace, hc]
      have hs' : setOff (trimEnd (c :: t)) = trimEnd (c :: t) := by
        obtain h | ⟨-, -, h⟩ := trimEnd_cons_cases c t <;> rw [h]
        · simp [setOff, startsWithSpace, hc]
        · rfl
      rw [hs, hs', trimEnd_trimEnd]
    · have hs (u : Text) : setOff (c :: u) = [' '] ++ c :: u := by
        simp [setOff, startsWithSpace, hc]
      rw [trimEnd_cons c t (by simpa using hc), hs, hs, ← trimEnd_cons c t (by simpa using hc),
        trimEnd_append_trimEnd]

/-- Of a description, the space at its end has no part in the trimmed text. -/
theorem trimEnd_setOff_congr (s : Text) {d d' : Text} (h : trimEnd d' = trimEnd d) :
    trimEnd (s ++ setOff d') = trimEnd (s ++ setOff d) := by
  apply trimEnd_append_congr
  rw [← trimEnd_setOff d', h, trimEnd_setOff]

theorem word_trimEnd (t : Text) : word (trimEnd t) = ((word t).1, trimEnd (word t).2) := by
  rw [word, word, takeWhile_trimEnd _ (by simp), dropWhile_trimEnd]

theorem word_append (t : Text) : (word t).1 ++ (word t).2 = t := List.takeWhile_append_dropWhile

theorem not_isSpace_of_mem_word {t : Text} {c : Char} (h : c ∈ (word t).1) : isSpace c = false := by
  simpa using List.mem_takeWhile_imp h

theorem isSetOff_word (t : Text) : IsSetOff (word t).2 := by
  intro c hc
  have h := List.head?_dropWhile_not (!isSpace ·) t
  rw [show (t.dropWhile (!isSpace ·)).head? = some c from hc] at h
  simpa using h

theorem word_of_isSetOff {w t : Text} (hw : ∀ c ∈ w, isSpace c = false) (ht : IsSetOff t) :
    word (w ++ t) = (w, t) := by
  obtain ⟨h₁, h₂⟩ := span_append (!isSpace ·) w t (by simpa using hw)
    (fun c hc => by simp [ht c hc])
  rw [word, h₁, h₂]

theorem intercalate_cons (sep t : Text) (ts : List Text) :
    sep.intercalate (t :: ts) = t ++ (ts.map (sep ++ ·)).flatten := by
  induction ts generalizing t with
  | nil => simp
  | cons u us ih => simp [List.intercalate_cons_cons, ih]

theorem intercalate_append (sep : Text) {ss ts : List Text} (hs : ss ≠ []) (ht : ts ≠ []) :
    sep.intercalate (ss ++ ts) = sep.intercalate ss ++ sep ++ sep.intercalate ts := by
  cases ss with
  | nil => exact absurd rfl hs
  | cons s ss =>
    cases ts with
    | nil => exact absurd rfl ht
    | cons t ts => simp [intercalate_cons]

theorem intercalate_concat (sep last : Text) {ts : List Text} (h : ts ≠ []) :
    sep.intercalate (ts ++ [last]) = sep.intercalate ts ++ sep ++ last := by
  rw [intercalate_append sep h (List.cons_ne_nil last []), List.intercalate_singleton]

theorem isWhite_intercalate {sep : Text} (hsep : isWhite sep = true) {ts : List Text}
    (h : ∀ t ∈ ts, isWhite t = true) : isWhite (sep.intercalate ts) = true := by
  induction ts with
  | nil => rfl
  | cons t ts ih =>
    rw [List.forall_mem_cons] at h
    cases ts with
    | nil => simpa using h.1
    | cons u ts =>
      rw [List.intercalate_cons_cons, isWhite_append, isWhite_append, h.1, hsep, ih h.2]
      rfl

/-- Where two texts meet, the last part of the one goes on with the first of the other. -/
theorem splitOn_append_parts {sep : Char} {s t l m : Text} {ls ms : List Text}
    (hs : s.splitOn sep = ls ++ [l]) (ht : t.splitOn sep = m :: ms) :
    (s ++ t).splitOn sep = ls ++ (l ++ m) :: ms := by
  induction s generalizing ls l with
  | nil =>
    obtain ⟨rfl, rfl⟩ : ls = [] ∧ l = [] := by
      simpa [List.singleton_eq_append_iff] using hs
    exact ht
  | cons c s ih =>
    rw [List.splitOn_cons_eq_if_modifyHead] at hs
    rw [List.cons_append, List.splitOn_cons_eq_if_modifyHead]
    split
    · next hc =>
      rw [if_pos hc] at hs
      cases ls with
      | nil => exact absurd (List.cons.inj hs).2 (List.splitOn_ne_nil sep s)
      | cons p ls =>
        obtain ⟨rfl, hrest⟩ := List.cons.inj hs
        rw [ih hrest]
        rfl
    · next hc =>
      rw [if_neg hc] at hs
      cases hparts : s.splitOn sep with
      | nil => exact absurd hparts (List.splitOn_ne_nil sep s)
      | cons p ps =>
        rw [hparts] at hs
        cases ls with
        | nil =>
          obtain ⟨rfl, rfl⟩ := List.cons.inj hs
          have hone : s.splitOn sep = [] ++ [p] := hparts
          rw [ih hone]
          rfl
        | cons q ls =>
          obtain ⟨rfl, rfl⟩ := List.cons.inj hs
          have hmore : s.splitOn sep = (p :: ls) ++ [l] := hparts
          rw [ih hmore]
          rfl

theorem not_mem_of_mem_splitOn {sep : Char} {t p : Text} (h : p ∈ t.splitOn sep) : sep ∉ p := by
  induction t generalizing p with
  | nil =>
    obtain rfl : p = [] := by simpa using h
    simp
  | cons c t ih =>
    rw [List.splitOn_cons_eq_if_modifyHead] at h
    split at h
    · obtain rfl | h := List.mem_cons.mp h
      · simp
      · exact ih h
    · next hc =>
      cases hs : t.splitOn sep with
      | nil => exact absurd hs (List.splitOn_ne_nil sep t)
      | cons q parts =>
        rw [hs] at h ih
        obtain rfl | h := List.mem_cons.mp h
        · rw [List.mem_cons, not_or]
          exact ⟨fun heq => hc (by simp [heq]), ih (by simp)⟩
        · exact ih (List.mem_cons_of_mem q h)

theorem infix_intercalate (sep : Text) {parts : List Text} {p : Text} (h : p ∈ parts) :
    p <:+: sep.intercalate parts := by
  cases parts with
  | nil => cases h
  | cons q parts =>
    rw [intercalate_cons]
    obtain rfl | h := List.mem_cons.mp h
    · exact (List.prefix_append p _).isInfix
    · have hp : p <:+: sep ++ p := (List.suffix_append sep p).isInfix
      have hall := List.infix_of_mem_flatten (List.mem_map_of_mem (f := (sep ++ ·)) h)
      exact (hp.trans hall).trans (List.suffix_append q _).isInfix

theorem infix_of_mem_splitOn {sep : Char} {t p : Text} (h : p ∈ t.splitOn sep) : p <:+: t := by
  have hp := infix_intercalate [sep] h
  rwa [List.intercalate_splitOn] at hp

/-- A part that is not white shows in the whole. -/
theorem not_white_joinParts (sep : Text) {parts : List Text} {p : Text} (hp : p ∈ parts)
    (hw : isWhite p = false) : isWhite (joinParts sep parts) = false := by
  have hmem : trimEnd p ∈ (parts.map trimEnd).filter (· ≠ []) := by
    refine List.mem_filter.mpr ⟨List.mem_map_of_mem hp, ?_⟩
    have hne : trimEnd p ≠ [] := by
      rw [Ne, trimEnd_eq_nil_iff, hw]
      exact Bool.false_ne_true
    simpa using hne
  refine not_white_of_infix (infix_intercalate sep hmem) ?_
  rw [isWhite_trimEnd, hw]

/-- Every part with a separator after it, and the last one alone. -/
theorem intercalate_append_last (sep last : Text) (parts : List Text) :
    sep.intercalate (parts ++ [last]) = (parts.map (· ++ sep)).flatten ++ last := by
  induction parts with
  | nil => simp
  | cons p parts ih =>
    cases parts with
    | nil => simp [List.intercalate_cons_cons]
    | cons q parts =>
      rw [List.cons_append, List.cons_append, List.intercalate_cons_cons, ← List.cons_append, ih]
      simp

theorem after?_eq_some {lead t rest : Text} (h : after? lead t = some rest) : t = lead ++ rest := by
  fun_induction after? lead t with
  | case1 t => exact Option.some.inj h
  | case2 => cases h
  | case3 lead c t ih => exact congrArg (c :: ·) (ih h)
  | case4 => cases h

theorem isSome_after?_iff {lead t : Text} : (after? lead t).isSome = true ↔ lead <+: t := by
  fun_induction after? lead t with
  | case1 t => simp
  | case2 c lead => simp
  | case3 lead c t ih => simpa using ih
  | case4 c lead d t hne => simp [hne]

theorem before?_eq_none {needle t : Text} (h : ¬needle <:+: t) : before? needle t = none := by
  induction t with
  | nil =>
    apply if_neg
    intro hn
    exact h (hn ▸ List.infix_rfl)
  | cons c t ih =>
    unfold before?
    split
    · next hs =>
      obtain ⟨rest, hrest⟩ := Option.isSome_iff_exists.mp hs
      rw [after?_eq_some hrest] at h
      exact absurd (List.prefix_append needle rest).isInfix h
    · rw [ih fun hi => h (hi.trans (List.suffix_cons c t).isInfix)]
      rfl

theorem before?_eq_some {needle t front : Text} (h : before? needle t = some front) :
    ∃ rest, t = front ++ (needle ++ rest) := by
  induction t generalizing front with
  | nil =>
    unfold before? at h
    split at h
    · next hn => exact ⟨[], by rw [hn, ← Option.some.inj h]; rfl⟩
    · cases h
  | cons c t ih =>
    unfold before? at h
    split at h
    · next hs =>
      obtain ⟨rest, hrest⟩ := Option.isSome_iff_exists.mp hs
      exact ⟨rest, by rw [← Option.some.inj h, after?_eq_some hrest]; rfl⟩
    · obtain ⟨front, hfront, rfl⟩ := Option.map_eq_some_iff.mp h
      obtain ⟨rest, hrest⟩ := ih hfront
      exact ⟨rest, congrArg (c :: ·) hrest⟩

theorem not_infix_of_before?_eq_none {needle t : Text} (h : before? needle t = none) :
    ¬needle <:+: t := by
  induction t with
  | nil =>
    intro hi
    rw [before?, if_pos (List.infix_nil.mp hi)] at h
    cases h
  | cons c t ih =>
    unfold before? at h
    split at h
    · cases h
    · next hs =>
      intro hi
      obtain hp | hi := List.infix_cons_iff.mp hi
      · exact hs (isSome_after?_iff.mpr hp)
      · exact ih (Option.map_eq_none_iff.mp h) hi

/-- The text before the first occurrence holds none. -/
theorem not_infix_of_before?_eq_some {needle t front : Text} (hne : needle ≠ [])
    (h : before? needle t = some front) : ¬needle <:+: front := by
  induction t generalizing front with
  | nil =>
    rw [before?, if_neg hne] at h
    cases h
  | cons c t ih =>
    obtain ⟨rest, hrest⟩ := before?_eq_some h
    unfold before? at h
    split at h
    · obtain rfl := Option.some.inj h
      simpa using hne
    · next hs =>
      obtain ⟨front, hfront, rfl⟩ := Option.map_eq_some_iff.mp h
      intro hi
      obtain hp | hi := List.infix_cons_iff.mp hi
      · have hwhole : needle <+: c :: t := hrest ▸ hp.trans (List.prefix_append _ _)
        exact hs (isSome_after?_iff.mpr hwhole)
      · exact ih hfront hi

theorem byteLength_append (s t : Text) : byteLength (s ++ t) = byteLength s + byteLength t := by
  induction s with
  | nil => exact (Nat.zero_add _).symm
  | cons c s ih =>
    calc c.utf8Size + byteLength (s ++ t)
        = c.utf8Size + (byteLength s + byteLength t) := by rw [ih]
      _ = byteLength (c :: s) + byteLength t := (Nat.add_assoc _ _ _).symm

theorem byteLength_pos {t : Text} (h : t ≠ []) : 0 < byteLength t := by
  cases t with
  | nil => exact absurd rfl h
  | cons c t => exact Nat.lt_of_lt_of_le c.utf8Size_pos (Nat.le_add_right _ _)

/-- A number of bytes after which a character of the text begins, or the text ends. -/
def IsBoundary (t : Text) (i : Nat) : Prop := ∃ front, front <+: t ∧ byteLength front = i

theorem prefix_append_congr {n f : Text} (h : n.length ≤ f.length) (t u : Text) :
    n <+: f ++ t ↔ n <+: f ++ u := by
  have hfront (t : Text) : n <+: f ++ t ↔ n <+: f :=
    ⟨fun hn => List.prefix_of_prefix_length_le hn (List.prefix_append f t) h,
      fun hn => hn.trans (List.prefix_append f t)⟩
  rw [hfront, hfront]

/-- Where a text first occurs does not depend on what comes after it. -/
theorem before?_append_congr {n f t i : Text} (h : before? n (f ++ t) = some i)
    (hi : i.length + n.length ≤ f.length) (hn : n ≠ []) (u : Text) :
    before? n (f ++ u) = some i := by
  induction f generalizing i with
  | nil =>
    have hpos := List.length_pos_iff.mpr hn
    simp only [List.length_nil] at hi
    omega
  | cons c f ih =>
    have hlength : n.length ≤ (c :: f).length := by omega
    have hsame : (after? n (c :: (f ++ u))).isSome = (after? n (c :: (f ++ t))).isSome := by
      rw [Bool.eq_iff_iff, isSome_after?_iff, isSome_after?_iff]
      exact prefix_append_congr hlength u t
    rw [List.cons_append, before?] at h ⊢
    rw [hsame]
    split at h
    · next hfirst => rw [if_pos hfirst, h]
    · next hfirst =>
      obtain ⟨j, hj, rfl⟩ := Option.map_eq_some_iff.mp h
      have hle : j.length + n.length ≤ f.length := by
        simp only [List.length_cons] at hi
        omega
      rw [if_neg hfirst, ih hj hle]
      rfl

end LuaStubs.Text
