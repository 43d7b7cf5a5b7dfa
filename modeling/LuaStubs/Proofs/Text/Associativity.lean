import LuaStubs.Proofs.Text.Paragraphs

namespace LuaStubs.Text

section Sides
variable {a b : Text}

/-- A white paragraph leaves no trace, on either side. -/
theorem joinParagraphs_of_white_left (h : isWhite a = true) (b : Text) :
    joinParagraphs a b = trimStart b := by
  simp only [joinParagraphs, (trimEnd_eq_nil_iff a).mpr h]

theorem joinParagraphs_of_white_right (a : Text) (h : isWhite b = true) :
    joinParagraphs a b = trimEnd a := by
  have hback : trimStart b = [] := (trimStart_eq_nil_iff b).mpr h
  unfold joinParagraphs
  rw [hback]
  split
  · next hfront => exact hfront.symm
  · rfl
  · next hne => exact absurd rfl hne

theorem joinParagraphs_of_visible (ha : isWhite a = false) (hb : isWhite b = false) :
    joinParagraphs a b = trimEnd a ++ ['\n', '\n'] ++ trimStart b := by
  have hfront : trimEnd a ≠ [] := by simp [trimEnd_eq_nil_iff, ha]
  have hback : trimStart b ≠ [] := by simp [trimStart_eq_nil_iff, hb]
  unfold joinParagraphs
  split
  · next h => exact absurd h hfront
  · next h _ => exact absurd h hback
  · rfl

theorem isWhite_joinParagraphs (a b : Text) :
    isWhite (joinParagraphs a b) = (isWhite a && isWhite b) := by
  cases ha : isWhite a with
  | true => rw [joinParagraphs_of_white_left ha, isWhite_trimStart, Bool.true_and]
  | false =>
    cases hb : isWhite b with
    | true => rw [joinParagraphs_of_white_right a hb, isWhite_trimEnd, ha, Bool.false_and]
    | false =>
      rw [joinParagraphs_of_visible ha hb, isWhite_append, isWhite_append, isWhite_trimEnd, ha]
      rfl

/-- What is trimmed off the whole is trimmed off its first part. -/
theorem trimStart_joinParagraphs (a b : Text) :
    trimStart (joinParagraphs a b) = joinParagraphs (trimStart a) b := by
  cases ha : isWhite a with
  | true =>
    have ha' : isWhite (trimStart a) = true := by rw [isWhite_trimStart, ha]
    rw [joinParagraphs_of_white_left ha, joinParagraphs_of_white_left ha', trimStart_trimStart]
  | false =>
    have ha' : isWhite (trimStart a) = false := by rw [isWhite_trimStart, ha]
    cases hb : isWhite b with
    | true =>
      rw [joinParagraphs_of_white_right a hb, joinParagraphs_of_white_right _ hb,
        trimStart_trimEnd]
    | false =>
      have hend : isWhite (trimEnd a) = false := by rw [isWhite_trimEnd, ha]
      rw [joinParagraphs_of_visible ha hb, joinParagraphs_of_visible ha' hb, List.append_assoc,
        trimStart_append_of_visible hend, trimStart_trimEnd, List.append_assoc]

theorem trimEnd_joinParagraphs (a b : Text) :
    trimEnd (joinParagraphs a b) = joinParagraphs a (trimEnd b) := by
  cases hb : isWhite b with
  | true =>
    have hb' : isWhite (trimEnd b) = true := by rw [isWhite_trimEnd, hb]
    rw [joinParagraphs_of_white_right a hb, joinParagraphs_of_white_right a hb', trimEnd_trimEnd]
  | false =>
    have hb' : isWhite (trimEnd b) = false := by rw [isWhite_trimEnd, hb]
    cases ha : isWhite a with
    | true =>
      rw [joinParagraphs_of_white_left ha, joinParagraphs_of_white_left ha, trimStart_trimEnd]
    | false =>
      have hstart : ¬isWhite (trimStart b) = true := by simp [isWhite_trimStart, hb]
      rw [joinParagraphs_of_visible ha hb, joinParagraphs_of_visible ha hb', trimEnd_append,
        if_neg hstart, trimStart_trimEnd]

end Sides

theorem joinParagraphs_assoc (a b c : Text) :
    joinParagraphs (joinParagraphs a b) c = joinParagraphs a (joinParagraphs b c) := by
  cases ha : isWhite a with
  | true =>
    rw [joinParagraphs_of_white_left ha, joinParagraphs_of_white_left ha, trimStart_joinParagraphs]
  | false =>
    cases hc : isWhite c with
    | true =>
      rw [joinParagraphs_of_white_right _ hc, joinParagraphs_of_white_right b hc,
        trimEnd_joinParagraphs]
    | false =>
      -- both outer parts show, so the blank lines depend on the middle one alone
      have hfront : isWhite (joinParagraphs a b) = false := by rw [isWhite_joinParagraphs, ha]; rfl
      have hback : isWhite (joinParagraphs b c) = false := by
        rw [isWhite_joinParagraphs, hc, Bool.and_false]
      rw [joinParagraphs_of_visible hfront hc, joinParagraphs_of_visible ha hback,
        trimEnd_joinParagraphs, trimStart_joinParagraphs]
      cases hb : isWhite b with
      | true =>
        have hb₁ : isWhite (trimEnd b) = true := by rw [isWhite_trimEnd, hb]
        have hb₂ : isWhite (trimStart b) = true := by rw [isWhite_trimStart, hb]
        rw [joinParagraphs_of_white_right a hb₁, joinParagraphs_of_white_left hb₂]
      | false =>
        have hb₁ : isWhite (trimEnd b) = false := by rw [isWhite_trimEnd, hb]
        have hb₂ : isWhite (trimStart b) = false := by rw [isWhite_trimStart, hb]
        rw [joinParagraphs_of_visible ha hb₁, joinParagraphs_of_visible hb₂ hc, trimStart_trimEnd]
        simp only [List.append_assoc]

section Trimmed

/-- The sides that face each other are trimmed anyway. -/
theorem joinParagraphs_trimmed (a b : Text) :
    joinParagraphs (trimEnd a) (trimStart b) = joinParagraphs a b := by
  unfold joinParagraphs
  rw [trimEnd_trimEnd, trimStart_trimStart]

theorem trim_joinParagraphs (a b : Text) :
    trim (joinParagraphs a b) = joinParagraphs (trim a) (trim b) := by
  calc trim (joinParagraphs a b)
    _ = joinParagraphs (trimStart a) (trimEnd b) := by
      rw [trim, trimStart_joinParagraphs, trimEnd_joinParagraphs]
    _ = joinParagraphs (trim a) (trimStart (trimEnd b)) := (joinParagraphs_trimmed _ _).symm
    _ = joinParagraphs (trim a) (trim b) := by
      rw [trimStart_trimEnd]
      rfl

theorem trim_eq_nil_of_white {t : Text} (h : isWhite t = true) : trim t = [] := by
  rw [trim, trimEnd_eq_nil_iff, isWhite_trimStart, h]

theorem IsTight.trimStart_eq {t : Text} (h : IsTight t) : trimStart t = t := by
  obtain ⟨c, u, rfl, hc⟩ := h.front
  simp [trimStart, hc]

/-- Texts with one blank line between two are taken apart anywhere. -/
theorem intercalate_append_of_isTight {ss ts : List Text} (hs : ∀ t ∈ ss, IsTight t)
    (ht : ∀ t ∈ ts, IsTight t) :
    ['\n', '\n'].intercalate (ss ++ ts) =
      joinParagraphs (['\n', '\n'].intercalate ss) (['\n', '\n'].intercalate ts) := by
  by_cases hss : ss = []
  · rw [hss, List.nil_append, List.intercalate_nil, joinParagraphs_of_white_left rfl]
    by_cases hts : ts = []
    · rw [hts]
      rfl
    · exact (isTight_intercalate _ hts ht).trimStart_eq.symm
  · have hfront := isTight_intercalate ['\n', '\n'] hss hs
    by_cases hts : ts = []
    · rw [hts, List.append_nil, List.intercalate_nil, joinParagraphs_of_white_right _ rfl,
        hfront.back]
    · have hback := isTight_intercalate ['\n', '\n'] hts ht
      rw [intercalate_append _ hss hts, joinParagraphs_of_visible hfront.front.not_white
        hback.front.not_white, hfront.back, hback.trimStart_eq]

end Trimmed

/-- A way to put texts together: a text by itself, or two groups of texts one after the other. -/
inductive Grouping where
  | part (t : Text)
  | join (front back : Grouping)

namespace Grouping

def parts : Grouping → List Text
  | part t => [t]
  | join front back => front.parts ++ back.parts

def whole : Grouping → Text
  | part t => t
  | join front back => joinParagraphs front.whole back.whole

end Grouping

/-- The texts that hold something, without the white space around them. -/
def visibleParts (ts : List Text) : List Text := (ts.filter (!isWhite ·)).map trim

theorem isTight_of_mem_visibleParts {ts : List Text} : ∀ t ∈ visibleParts ts, IsTight t := by
  intro t ht
  obtain ⟨u, hu, rfl⟩ := List.mem_map.mp ht
  exact isTight_trim (by simpa using (List.mem_filter.mp hu).2)

theorem Grouping.trim_whole (g : Grouping) :
    trim g.whole = ['\n', '\n'].intercalate (visibleParts g.parts) := by
  induction g with
  | part t =>
    cases ht : isWhite t with
    | true => simp [whole, parts, visibleParts, ht, trim_eq_nil_of_white ht]
    | false => simp [whole, parts, visibleParts, ht]
  | join front back ihfront ihback =>
    have hsplit : visibleParts (front.parts ++ back.parts) =
        visibleParts front.parts ++ visibleParts back.parts := by simp [visibleParts]
    rw [whole, trim_joinParagraphs, ihfront, ihback, parts, hsplit,
      intercalate_append_of_isTight isTight_of_mem_visibleParts isTight_of_mem_visibleParts]

/--
Paragraphs are joined the same in any grouping. With the white space around the whole trimmed away,
it is the texts that hold something, each trimmed on both sides, with one blank line between two.
-/
theorem joinParagraphs_grouped :
    (∀ a b c : Text, joinParagraphs (joinParagraphs a b) c =
      joinParagraphs a (joinParagraphs b c)) ∧
    ∀ g : Grouping, trim g.whole =
      ['\n', '\n'].intercalate ((g.parts.filter (!isWhite ·)).map trim) :=
  ⟨joinParagraphs_assoc, Grouping.trim_whole⟩

end LuaStubs.Text
