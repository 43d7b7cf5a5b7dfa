import LuaStubs.Proofs.Text.Parts

namespace LuaStubs.Text

def StartsVisibly (t : Text) : Prop := ∃ c u, t = c :: u ∧ isSpace c = false

theorem StartsVisibly.append {s : Text} (h : StartsVisibly s) (t : Text) :
    StartsVisibly (s ++ t) := by
  obtain ⟨c, u, rfl, hc⟩ := h
  exact ⟨c, u ++ t, rfl, hc⟩

theorem StartsVisibly.not_white {t : Text} (h : StartsVisibly t) : isWhite t = false := by
  obtain ⟨c, u, rfl, hc⟩ := h
  exact not_white_of_mem (List.mem_cons_self ..) hc

theorem StartsVisibly.ne_nil {t : Text} (h : StartsVisibly t) : t ≠ [] := by
  obtain ⟨c, u, rfl, -⟩ := h
  exact List.cons_ne_nil c u

theorem startsVisibly_trimStart {t : Text} (h : isWhite t = false) :
    StartsVisibly (trimStart t) := by
  have hhead := List.head?_dropWhile_not isSpace t
  rw [← isWhite_trimStart] at h
  cases hs : trimStart t with
  | nil =>
    rw [hs] at h
    cases h
  | cons c u =>
    rw [show t.dropWhile isSpace = c :: u from hs] at hhead
    exact ⟨c, u, rfl, by simpa using hhead⟩

/-- A text that holds something, with no white space around it. -/
structure IsTight (t : Text) : Prop where
  front : StartsVisibly t
  back : trimEnd t = t

theorem StartsVisibly.isTight_trimEnd {t : Text} (h : StartsVisibly t) : IsTight (trimEnd t) := by
  refine ⟨?_, trimEnd_trimEnd t⟩
  obtain ⟨c, u, rfl, hc⟩ := h
  rw [trimEnd_cons c u hc]
  exact ⟨c, trimEnd u, rfl, hc⟩

theorem isTight_trim {t : Text} (h : isWhite t = false) : IsTight (trim t) :=
  (startsVisibly_trimStart h).isTight_trimEnd

theorem trim_infix (t : Text) : trim t <:+: t := by
  have hend : trim t <+: trimStart t := List.rdropWhile_prefix isSpace (trimStart t)
  have hstart : trimStart t <:+ t := List.dropWhile_suffix isSpace
  exact hend.isInfix.trans hstart.isInfix

namespace IsTight
variable {t u : Text} (h : IsTight t)
include h

/-- White space that is trimmed away is no part of a tight text. -/
theorem infix_trimEnd (hu : t <:+: u) : t <:+: trimEnd u := by
  obtain ⟨a, b, rfl⟩ := hu
  rw [trimEnd_append]
  split
  · rw [trimEnd_append, if_neg (by simp [h.front.not_white]), h.back]
    exact (List.suffix_append a t).isInfix
  · exact ⟨a, trimEnd b, rfl⟩

theorem infix_trimStart (hu : t <:+: u) : t <:+: trimStart u := by
  obtain ⟨a, b, rfl⟩ := hu
  rw [trimStart, List.append_assoc, List.dropWhile_append]
  split
  · obtain ⟨c, v, rfl, hc⟩ := h.front
    have hstop : (c :: v ++ b).dropWhile isSpace = c :: v ++ b := by simp [hc]
    rw [hstop]
    exact (List.prefix_append (c :: v) b).isInfix
  · exact ⟨a.dropWhile isSpace, b, by rw [List.append_assoc]⟩

theorem ne_nil_of_infix (hu : t <:+: u) : u ≠ [] := by
  rintro rfl
  exact h.front.ne_nil (List.infix_nil.mp hu)

theorem infix_joinParagraphs_left (s : Text) (hu : t <:+: u) : t <:+: joinParagraphs u s := by
  have hend := h.infix_trimEnd hu
  have hne := h.ne_nil_of_infix hend
  unfold joinParagraphs
  split
  · next hnil => exact absurd hnil hne
  · exact hend
  · exact hend.trans ((List.prefix_append _ _).trans (List.prefix_append _ _)).isInfix

theorem infix_joinParagraphs_right (s : Text) (hu : t <:+: u) : t <:+: joinParagraphs s u := by
  have hstart := h.infix_trimStart hu
  have hne := h.ne_nil_of_infix hstart
  unfold joinParagraphs
  split
  · exact hstart
  · next hnil _ => exact absurd hnil hne
  · exact hstart.trans (List.suffix_append _ _).isInfix

/-- Paragraphs that are put together one by one show what the first or a later one shows. -/
theorem infix_foldl_joinParagraphs {α : Type} (f : α → Text) {as : List α}
    (hu : t <:+: u ∨ ∃ a ∈ as, t <:+: f a) :
    t <:+: as.foldl (fun v a => joinParagraphs v (f a)) u := by
  induction as generalizing u with
  | nil =>
    obtain hu | ⟨a, ha, -⟩ := hu
    · exact hu
    · cases ha
  | cons a as ih =>
    apply ih
    obtain hu | ⟨b, hb, hu⟩ := hu
    · exact .inl (h.infix_joinParagraphs_left (f a) hu)
    · obtain rfl | hb := List.mem_cons.mp hb
      · exact .inl (h.infix_joinParagraphs_right u hu)
      · exact .inr ⟨b, hb, hu⟩

end IsTight

theorem isTight_intercalate (sep : Text) {parts : List Text} (hne : parts ≠ [])
    (h : ∀ p ∈ parts, IsTight p) : IsTight (sep.intercalate parts) := by
  constructor
  · obtain ⟨p, parts, rfl⟩ := List.exists_cons_of_ne_nil hne
    rw [intercalate_cons]
    exact (h p (by simp)).front.append _
  · -- the whole ends as its last part does
    obtain ⟨front, last, rfl⟩ := (List.eq_nil_or_concat' parts).resolve_left hne
    have hlast := h last (by simp)
    rw [intercalate_append_last, trimEnd_append, if_neg (by simp [hlast.front.not_white]),
      hlast.back]

/-- Parts that hold something are joined to a whole that begins and ends visibly. -/
theorem isTight_joinParts (sep : Text) {parts : List Text}
    (h : ∀ p ∈ parts, p = [] ∨ StartsVisibly p) (hsome : ∃ p ∈ parts, p ≠ []) :
    IsTight (joinParts sep parts) := by
  apply isTight_intercalate
  · obtain ⟨p, hp, hne⟩ := hsome
    have hvisible := ((h p hp).resolve_left hne).isTight_trimEnd.front.ne_nil
    exact List.ne_nil_of_mem (List.mem_filter.mpr ⟨List.mem_map_of_mem hp, by simpa using hvisible⟩)
  · intro q hq
    obtain ⟨hq, hne⟩ := List.mem_filter.mp hq
    obtain ⟨p, hp, rfl⟩ := List.mem_map.mp hq
    obtain rfl | hvisible := h p hp
    · simp [trimEnd, dropEndWhile] at hne
    · exact hvisible.isTight_trimEnd

end LuaStubs.Text
