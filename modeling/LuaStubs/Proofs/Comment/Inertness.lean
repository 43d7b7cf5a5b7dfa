import LuaStubs.Proofs.Comment.Progress
import LuaStubs.Proofs.Text.Parts

namespace LuaStubs

/-- What stands in code, opens nothing but itself, and is left on the same line. -/
inductive Enclosure where
  | doubleQuoted
  | singleQuoted
  | plainComment

/-- The inside of a literal: no quote ends it early, and no backslash escapes the one after it. -/
inductive IsQuoted (quote : Char) : Text → Prop
  | nil : IsQuoted quote []
  | plain {c : Char} {t : Text} (hc : c ≠ '\\') (hq : c ≠ quote) (h : IsQuoted quote t) :
      IsQuoted quote (c :: t)
  | escaped (c : Char) {t : Text} (h : IsQuoted quote t) : IsQuoted quote ('\\' :: c :: t)

namespace Enclosure

def opening : Enclosure → Text
  | doubleQuoted => ['\x22']
  | singleQuoted => ['\x27']
  | plainComment => ['/', '*']

def closing : Enclosure → Text
  | doubleQuoted => ['\x22']
  | singleQuoted => ['\x27']
  | plainComment => ['*', '/']

/-- What may stand between the opening and the closing mark. -/
def Holds (e : Enclosure) (inside : Text) : Prop :=
  '\n' ∉ inside ∧
  match e with
  | doubleQuoted => IsQuoted '\x22' inside
  | singleQuoted => IsQuoted '\x27' inside
  | plainComment => inside.head? ≠ some '*' ∧ ¬"*/".toList <:+: inside

theorem exists_opening (e : Enclosure) : ∃ c m, e.opening = c :: m ∧ c ≠ '*' ∧
    Text.isBlank c = false ∧ (c = '/' → m = ['*']) := by
  cases e with
  | doubleQuoted => exact ⟨'\x22', [], rfl, by decide, by decide, by decide⟩
  | singleQuoted => exact ⟨'\x27', [], rfl, by decide, by decide, by decide⟩
  | plainComment => exact ⟨'/', ['*'], rfl, by decide, by decide, fun _ => rfl⟩

theorem length_opening_pos (e : Enclosure) : 0 < e.opening.length := by
  cases e <;> decide

end Enclosure

namespace Text

theorem takeWhile_append_cons {p : Char → Bool} {c : Char} (hc : p c = false) (f t : Text) :
    (f ++ c :: t).takeWhile p = f.takeWhile p := by
  induction f with
  | nil => simp [hc]
  | cons a f ih => by_cases ha : p a = true <;> simp [ha, ih]

theorem dropWhile_append_cons {p : Char → Bool} {c : Char} (hc : p c = false) (f t : Text) :
    (f ++ c :: t).dropWhile p = f.dropWhile p ++ c :: t := by
  induction f with
  | nil => simp [hc]
  | cons a f ih => by_cases ha : p a = true <;> simp [ha, ih]

end Text

namespace Scan

theorem literalLength_cons (quote : Char) {c : Char} (hc : c ≠ '\\') (t : Text) :
    literalLength quote (c :: t) = if c = quote then 1 else literalLength quote t + 1 := by
  rw [literalLength]
  intro d u hd
  exact absurd hd hc

theorem literalLength_pos (quote c : Char) (t : Text) : 0 < literalLength quote (c :: t) := by
  by_cases hc : c = '\\'
  · rw [hc]
    cases t with
    | nil =>
      rw [literalLength]
      · split <;> omega
      · simp
    | cons d t =>
      rw [literalLength]
      omega
  · rw [literalLength_cons quote hc]
    split <;> omega

/-- A literal that has ended ends there whatever follows. -/
theorem literalLength_congr {quote c : Char} {f t : Text}
    (h : literalLength quote (f ++ c :: t) ≤ f.length) (u : Text) :
    literalLength quote (f ++ u) = literalLength quote (f ++ c :: t) := by
  match f with
  | [] =>
    have hpos := literalLength_pos quote c t
    simp only [List.nil_append, List.length_nil] at h
    omega
  | d :: f =>
    by_cases hd : d = '\\'
    · subst hd
      match f with
      | [] =>
        simp only [List.cons_append, List.nil_append, literalLength, List.length_singleton] at h
        omega
      | d :: f =>
        simp only [List.cons_append, literalLength, List.length_cons] at h ⊢
        have hle : literalLength quote (f ++ c :: t) ≤ f.length := by omega
        rw [literalLength_congr hle u]
    · simp only [List.cons_append, literalLength_cons quote hd, List.length_cons] at h ⊢
      split
      · rfl
      · next hq =>
        have hle : literalLength quote (f ++ c :: t) ≤ f.length := by
          rw [if_neg hq] at h
          omega
        rw [literalLength_congr hle u]

theorem docLine?_eq_none_iff {l : Text} : docLine? l = none ↔
    ∀ rest, l.dropWhile Text.isBlank = '/' :: '/' :: '/' :: rest → rest.head? = some '/' := by
  unfold docLine?
  split
  · next rest hrest => simp [hrest]
  · next hother =>
    refine ⟨fun _ rest hrest => ?_, fun _ => rfl⟩
    exact absurd hrest (hother rest)

/-- Beyond two characters, a step in code looks at an opener or a literal only. -/
theorem plainCodeStep_cons_cons {line col k : Nat} {s s' : Scan} {a b : Char} {x y : Text}
    (h : plainCodeStep line col (a :: b :: x) s = (k, s')) (hk : k < x.length + 2)
    (hopener : b = '*' → openerStep line col y s = openerStep line col x s)
    (hliteral : ∀ q, literalLength q (b :: x) < k →
      literalLength q (b :: y) = literalLength q (b :: x)) :
    plainCodeStep line col (a :: b :: y) s = (k, s') := by
  unfold plainCodeStep at h
  split at h
  · next rest hrest =>
    obtain ⟨rfl, rfl, rfl⟩ := by simpa using hrest
    rw [← h]
    exact hopener rfl
  · next rest hrest =>
    obtain ⟨rfl, rfl, rfl⟩ := by simpa using hrest
    obtain ⟨rfl, -⟩ := Prod.mk.inj h
    omega
  · next rest hrest =>
    obtain ⟨rfl, rfl, rfl⟩ := by simpa using hrest
    exact h
  · next rest hrest =>
    obtain ⟨rfl, rfl⟩ := List.cons.inj hrest
    obtain ⟨rfl, rfl⟩ := Prod.mk.inj h
    rw [← hliteral '\x22' (Nat.lt_succ_self _)]
    rfl
  · next rest hrest =>
    obtain ⟨rfl, rfl⟩ := List.cons.inj hrest
    obtain ⟨rfl, rfl⟩ := Prod.mk.inj h
    rw [← hliteral '\x27' (Nat.lt_succ_self _)]
    rfl
  · next hopen hline hstray hdouble hsingle =>
    rw [plainCodeStep, ← h]
    · simpa using hopen
    · simpa using hline
    · simpa using hstray
    · simpa using hdouble
    · simpa using hsingle

section Congr
variable {f t u : Text} (e : Enclosure)

theorem docLine?_eq_none_congr (h : docLine? (f ++ (e.opening ++ t)) = none) :
    docLine? (f ++ (e.opening ++ u)) = none := by
  obtain ⟨c, m, hm, -, hblank, hslash⟩ := e.exists_opening
  rw [docLine?_eq_none_iff, hm, List.cons_append, Text.dropWhile_append_cons hblank] at h ⊢
  generalize f.dropWhile Text.isBlank = g at h ⊢
  intro rest hrest
  -- the cases are how many of the slashes stand in front of the mark
  match g with
  | [] =>
    obtain ⟨hc, hrest⟩ := List.cons.inj hrest
    rw [hslash hc] at hrest
    simp at hrest
  | [a] =>
    simp only [List.cons_append, List.nil_append, List.cons.injEq] at hrest
    obtain ⟨rfl, hc, hrest⟩ := hrest
    rw [hslash hc] at hrest
    simp at hrest
  | [a, b] =>
    simp only [List.cons_append, List.nil_append, List.cons.injEq] at hrest
    obtain ⟨rfl, rfl, hc, rfl⟩ := hrest
    subst hc
    have hhead := h _ rfl
    rw [hslash rfl] at hhead
    simp at hhead
  | _ :: _ :: _ :: g =>
    simp only [List.cons_append, List.cons.injEq] at hrest
    obtain ⟨rfl, rfl, rfl, rfl⟩ := hrest
    have hhead := h _ rfl
    cases g <;> exact hhead

theorem decoration_congr (f t u : Text) :
    decoration (f ++ (e.opening ++ u)) = decoration (f ++ (e.opening ++ t)) := by
  obtain ⟨c, m, hm, hstar, hblank, -⟩ := e.exists_opening
  rw [hm, List.cons_append, List.cons_append, decoration, decoration,
    Text.dropWhile_append_cons hblank, Text.dropWhile_append_cons hblank,
    Text.takeWhile_append_cons hblank, Text.takeWhile_append_cons hblank]
  cases f.dropWhile Text.isBlank with
  | nil => simp [hstar]
  | cons a g =>
    by_cases ha : a = '*'
    · subst ha
      cases g <;> rfl
    · simp [ha]

theorem openerStep_congr (line col : Nat) (f t u : Text) (s : Scan) :
    openerStep line col (f ++ (e.opening ++ u)) s =
      openerStep line col (f ++ (e.opening ++ t)) s := by
  obtain ⟨c, m, hm, hstar, -, -⟩ := e.exists_opening
  have hc : (c == '*') = false := by simpa using hstar
  have hhead (g t : Text) : (g ++ c :: t).head? = some ((g ++ [c]).headD c) := by
    cases g <;> rfl
  simp only [openerStep, hm, List.cons_append, Text.takeWhile_append_cons (p := (· == '*')) hc,
    Text.dropWhile_append_cons (p := (· == '*')) hc, hhead]

theorem plainCodeStep_congr {line col k : Nat} {s s' : Scan} (hf : f ≠ [])
    (h : plainCodeStep line col (f ++ (e.opening ++ t)) s = (k, s')) (hk : k ≤ f.length) :
    plainCodeStep line col (f ++ (e.opening ++ u)) s = (k, s') := by
  obtain ⟨c, m, hm, hstar, -, -⟩ := e.exists_opening
  match f with
  | [] => exact absurd rfl hf
  | [a] =>
    simp only [hm, List.cons_append, List.nil_append, List.length_singleton] at h hk ⊢
    apply plainCodeStep_cons_cons h
    · omega
    · intro hc
      exact absurd hc hstar
    · intro q hq
      have hpos := literalLength_pos q c (m ++ t)
      omega
  | a :: b :: f =>
    simp only [List.cons_append, List.length_cons] at h hk ⊢
    apply plainCodeStep_cons_cons h
    · simp only [hm, List.length_append, List.length_cons]
      omega
    · intro _
      exact openerStep_congr e line col f t u s
    · intro q hq
      simp only [hm, List.cons_append] at hq ⊢
      have hle : literalLength q (b :: f ++ c :: (m ++ t)) ≤ (b :: f).length := by
        simp only [List.cons_append, List.length_cons]
        omega
      exact literalLength_congr hle (c :: (m ++ u))

theorem codeStep_congr {line col k : Nat} {s s' : Scan} (hf : f ≠ [])
    (h : codeStep line col (f ++ (e.opening ++ t)) s = (k, s')) (hk : k ≤ f.length) :
    codeStep line col (f ++ (e.opening ++ u)) s = (k, s') := by
  have hlength := e.length_opening_pos
  unfold codeStep at h ⊢
  split at h
  · next hcol =>
    rw [if_pos hcol]
    split at h
    · next slashes text _ =>
      obtain ⟨rfl, -⟩ := Prod.mk.inj h
      simp only [List.length_append] at hk
      omega
    · next hnone =>
      rw [docLine?_eq_none_congr e hnone]
      exact plainCodeStep_congr e hf h hk
  · next hcol =>
    rw [if_neg hcol]
    exact plainCodeStep_congr e hf h hk

/-- A step that comes no further than the mark would be the same with anything behind it. -/
theorem step_congr {number col k : Nat} {s s' : Scan} (hf : f ≠ [])
    (h : s.step number col (f ++ (e.opening ++ t)) = .ok (k, s')) (hk : k ≤ f.length) :
    s.step number col (f ++ (e.opening ++ u)) = .ok (k, s') := by
  have hwhole : k ≠ (f ++ (e.opening ++ t)).length := by
    have hlength := e.length_opening_pos
    simp only [List.length_append]
    omega
  -- in a comment, the step ends with its closing mark or with the line
  have hbefore {inside : Text} (hi : Text.before? "*/" (f ++ (e.opening ++ t)) = some inside)
      (hk : k = inside.length + 2) : Text.before? "*/" (f ++ (e.opening ++ u)) = some inside :=
    Text.before?_append_congr hi (by simpa [hk] using ‹k ≤ f.length›) (by decide) _
  unfold step at h ⊢
  cases hm : s.mode with
  | code =>
    rw [hm] at h
    exact congrArg Except.ok (codeStep_congr e hf (Except.ok.inj h) hk)
  | docBlock =>
    simp only [hm, docBlockStep] at h ⊢
    split at h
    · next inside hinside =>
      rw [hbefore hinside (eq_of_map_ok h).1]
      exact h
    · exact absurd (Prod.mk.inj (Except.ok.inj h)).1.symm hwhole
  | plainBlock =>
    simp only [hm, plainBlockStep] at h ⊢
    split at h
    · next inside hinside =>
      rw [hbefore hinside (eq_of_map_ok h).1]
      exact h
    · exact absurd (Prod.mk.inj (Except.ok.inj h)).1.symm hwhole
  | docLine =>
    rw [hm] at h
    exact absurd (Prod.mk.inj (Except.ok.inj h)).1.symm hwhole

end Congr

section Visits
variable {source source' : Text} {above below : List Text} {l t u : Text}

/-- A point in front of a literal or a comment is come to whatever stands inside of that. -/
theorem Visits.congr (e : Enclosure)
    (hlines : Text.sourceLines source = above ++ (l ++ (e.opening ++ t)) :: below)
    (hlines' : Text.sourceLines source' = above ++ (l ++ (e.opening ++ u)) :: below)
    {taken rest front : Text} {s : Scan} (h : Visits source (above.length + 1) taken rest s)
    (hl : taken ++ front = l) :
    rest = front ++ (e.opening ++ t) ∧
      Visits source' (above.length + 1) taken (front ++ (e.opening ++ u)) s := by
  generalize hnumber : above.length + 1 = number at h
  induction h generalizing front with
  | @start above' below' l' s s' hlines₀ habove hrun hbefore =>
    obtain ⟨rfl, hline⟩ := List.append_inj (hlines.symm.trans hlines₀) (by omega)
    obtain ⟨rfl, -⟩ := List.cons.inj hline
    have hmargin : s'.margin (l ++ (e.opening ++ u)) = s'.margin (l ++ (e.opening ++ t)) := by
      rw [margin, margin, decoration_congr e l t u]
    have hstart := Visits.start hlines' habove
      (fun hm => docLine?_eq_none_congr e (hrun hm)) hbefore
    rw [hmargin] at hstart
    generalize s'.margin (l ++ (e.opening ++ t)) = m at hl hstart ⊢
    have htaken : (List.take m (l ++ (e.opening ++ t))).length = m := by
      have hlength := congrArg List.length hl
      have hopening := e.length_opening_pos
      simp only [List.length_append, List.length_take] at hlength ⊢
      omega
    have hsplit (v : Text) : l ++ v = List.take m (l ++ (e.opening ++ t)) ++ (front ++ v) := by
      rw [← List.append_assoc, hl]
    rw [hsplit (e.opening ++ u), List.take_left' htaken, List.drop_left' htaken] at hstart
    have hrest := List.take_append_drop m (l ++ (e.opening ++ t))
    exact ⟨List.append_cancel_left (hrest.trans (hsplit _)), hstart⟩
  | @turn number k taken rest s s' hvisit hne hstep ih =>
    -- the step ends in front of the mark, so it is the same whatever stands inside
    obtain ⟨hpos, hle⟩ := hvisit.nested.bounds_of_step hne hstep
    have hlength : (rest.take k).length = k := List.length_take_of_le hle
    rw [List.append_assoc] at hl
    obtain ⟨hrest, hvisit'⟩ := ih hl hnumber
    have hdrop : rest.drop k = front ++ (e.opening ++ t) := by
      have hsplit := (List.take_append_drop k rest).trans hrest
      rw [List.append_assoc] at hsplit
      exact List.append_cancel_left hsplit
    generalize rest.take k = p at hlength hrest hvisit' ⊢
    have hp : p ++ front ≠ [] := by
      intro hnil
      have hzero := congrArg List.length (List.append_eq_nil_iff.mp hnil).1
      rw [hlength, List.length_nil] at hzero
      omega
    rw [hrest] at hstep
    have hturn := hvisit'.turn (List.append_ne_nil_of_left_ne_nil hp _)
      (step_congr e hp hstep (by simp only [List.length_append]; omega))
    rw [List.append_assoc, List.take_left' hlength, List.drop_left' hlength] at hturn
    exact ⟨hdrop, hturn⟩

/-- The scan of a source, from any point on that the scanner comes to. -/
theorem Visits.ofSource_eq {taken rest : Text} {s : Scan}
    (h : Visits source (above.length + 1) taken rest s)
    (hlines : Text.sourceLines source = above ++ (taken ++ rest) :: below) :
    ofSource source = ((steps (above.length + 1) (taken.length + 1) 0 rest s).map endLine).bind
      (lines (above.length + 2) below) := by
  generalize hnumber : above.length + 1 = number at h
  induction h with
  | @start above' below' l s s' hlines₀ habove hrun hbefore =>
    rw [List.take_append_drop] at hlines
    obtain ⟨rfl, hline⟩ := List.append_inj (hlines₀.symm.trans hlines) (by omega)
    have hfresh : s.line (above'.length + 1) l =
        (steps (above'.length + 1) ((l.take (s'.margin l)).length + 1) 0 (l.drop (s'.margin l))
          s').map endLine := by
      rw [line_of_fresh hrun hbefore, freshLine_eq]
    rw [ofSource, hlines, lines_append, habove, ← hfresh, Nat.add_comm 1]
    exact lines_cons _ _ _ _
  | @turn number k taken rest s s' hvisit hne hstep ih =>
    obtain ⟨hpos, hle⟩ := hvisit.nested.bounds_of_step hne hstep
    rw [List.append_assoc, List.take_append_drop] at hlines
    rw [ih hlines hnumber, steps_step hne hpos hstep, List.length_append,
      List.length_take_of_le hle, Nat.add_right_comm]

end Visits

theorem literalLength_of_isQuoted {quote : Char} (hquote : quote ≠ '\\') {inside : Text}
    (h : IsQuoted quote inside) (back : Text) :
    literalLength quote (inside ++ quote :: back) = inside.length + 1 := by
  induction h with
  | nil => rw [List.nil_append, literalLength_cons quote hquote, if_pos rfl, List.length_nil]
  | plain hc hq _ ih =>
    rw [List.cons_append, literalLength_cons quote hc, if_neg hq, ih, List.length_cons]
  | escaped c _ ih =>
    rw [List.cons_append, List.cons_append, literalLength, ih]
    rfl

theorem steps_piece {number col : Nat} {piece : Text} {s s' : Scan} (hne : piece ≠ [])
    (back : Text) (h : s.step number col (piece ++ back) = .ok (piece.length, s')) :
    steps number col 0 (piece ++ back) s = steps number (col + piece.length) 0 back s' := by
  rw [steps_step (List.append_ne_nil_of_left_ne_nil hne back) (List.length_pos_iff.mpr hne) h,
    List.drop_left]

theorem steps_quoted {quote : Char} (hquote : quote = '\x22' ∨ quote = '\x27') {inside : Text}
    (h : IsQuoted quote inside) {s : Scan} (hs : s.mode = .code) (number col : Nat) (back : Text) :
    steps number col 0 (quote :: (inside ++ quote :: back)) s =
      steps number (col + (inside.length + 2)) 0 back s := by
  have hcode (t : Text) : codeStep number col (quote :: t) s = (literalLength quote t + 1, s) := by
    unfold codeStep
    obtain rfl | rfl := hquote <;> split <;> rfl
  have hlength : literalLength quote (inside ++ quote :: back) = inside.length + 1 := by
    apply literalLength_of_isQuoted _ h
    obtain rfl | rfl := hquote <;> decide
  have hpiece : quote :: (inside ++ quote :: back) = quote :: (inside ++ [quote]) ++ back := by simp
  have hstep : s.step number col (quote :: (inside ++ [quote]) ++ back) =
      .ok ((quote :: (inside ++ [quote])).length, s) := by
    rw [← hpiece, step, hs]
    exact congrArg Except.ok (by simp [hcode, hlength])
  rw [hpiece, steps_piece (by simp) back hstep]
  simp

theorem before?_closer {inside : Text} (h : ¬"*/".toList <:+: inside) (back : Text) :
    Text.before? "*/" (inside ++ '*' :: '/' :: back) = some inside := by
  induction inside with
  | nil => rfl
  | cons c inside ih =>
    have hfirst : ¬(Text.after? "*/" (c :: (inside ++ '*' :: '/' :: back))).isSome = true := by
      rw [Text.isSome_after?_iff]
      intro hpre
      change ['*', '/'] <+: _ at hpre
      obtain ⟨rfl, hnext⟩ := List.cons_prefix_cons.mp hpre
      cases inside with
      | nil => exact absurd (List.cons_prefix_cons.mp hnext).1 (by decide)
      | cons d inside =>
        obtain ⟨rfl, -⟩ := List.cons_prefix_cons.mp hnext
        exact h ⟨[], inside, rfl⟩
    rw [List.cons_append, Text.before?, if_neg hfirst,
      ih fun hi => h (hi.trans (List.suffix_cons c inside).isInfix)]
    rfl

theorem steps_comment {inside : Text} (hstar : inside.head? ≠ some '*')
    (hclose : ¬"*/".toList <:+: inside) {s : Scan} (hs : s.modes = [.code]) (number col : Nat)
    (back : Text) :
    steps number col 0 ('/' :: '*' :: (inside ++ '*' :: '/' :: back)) s =
      steps number (col + (inside.length + 4)) 0 back s := by
  have hcode (t : Text) : codeStep number col ('/' :: '*' :: t) s = openerStep number col t s := by
    unfold codeStep
    split <;> rfl
  have hopener : openerStep number col (inside ++ '*' :: '/' :: back) s =
      (2, s.enter .plainBlock) := by
    cases inside with
    | nil => rfl
    | cons c inside =>
      have hc : (c == '*') = false := by simpa using hstar
      simp [openerStep, hc]
  have henter : s.step number col (['/', '*'] ++ (inside ++ '*' :: '/' :: back)) =
      .ok (2, s.enter .plainBlock) := by
    rw [step, mode_eq hs]
    exact congrArg Except.ok ((hcode _).trans hopener)
  have hleave : (s.enter .plainBlock).step number (col + 2) (inside ++ ['*', '/'] ++ back) =
      .ok ((inside ++ ['*', '/']).length, s) := by
    have hcode := leave_outermost (s := s.enter .plainBlock) (m := .plainBlock)
      (by rw [enter, hs]) ⟨number, col + 2 + inside.length + 2⟩
    have hback : { s.enter .plainBlock with modes := [.code] } = s := by
      rw [← hs]
      rfl
    change plainBlockStep number (col + 2) (inside ++ ['*', '/'] ++ back) (s.enter .plainBlock) = _
    rw [plainBlockStep, List.append_assoc, List.cons_append, List.singleton_append,
      before?_closer hclose back]
    dsimp only
    rw [hcode, hback, List.length_append]
    rfl
  calc
    _ = steps number (col + 2) 0 (inside ++ ['*', '/'] ++ back) (s.enter .plainBlock) := by
      rw [List.append_assoc]
      exact steps_piece (List.cons_ne_nil '/' ['*']) _ henter
    _ = steps number (col + 2 + (inside ++ ['*', '/']).length) 0 back s :=
      steps_piece (by simp) back hleave
    _ = _ := by
      rw [List.length_append, Nat.add_assoc, Nat.add_comm 2, Nat.add_assoc]
      rfl

/-- A literal and a plain comment are stepped over. -/
theorem steps_enclosed (e : Enclosure) {inside : Text} (h : e.Holds inside) {s : Scan}
    (hs : s.modes = [.code]) (number col : Nat) (back : Text) :
    steps number col 0 (e.opening ++ (inside ++ (e.closing ++ back))) s =
      steps number (col + (inside.length + (e.opening.length + e.closing.length))) 0 back s := by
  cases e with
  | doubleQuoted => exact steps_quoted (.inl rfl) h.2 (mode_eq hs) number col back
  | singleQuoted => exact steps_quoted (.inr rfl) h.2 (mode_eq hs) number col back
  | plainComment => exact steps_comment h.2.1 h.2.2 hs number col back

/-- The scanner comes to the end of `front`, in a source that goes on with `back`. -/
def Reaches (front back : Text) (s : Scan) : Prop := ∃ above l ahead,
  front.splitOn '\n' = above ++ [l] ∧ Visits (front ++ back) (above.length + 1) l ahead s

end Scan

theorem Enclosure.sourceLines_eq (e : Enclosure) {front inside back l b : Text}
    {above below : List Text} (h : e.Holds inside) (hfront : front.splitOn '\n' = above ++ [l])
    (hback : back.splitOn '\n' = b :: below) :
    Text.sourceLines (front ++ (e.opening ++ (inside ++ (e.closing ++ back)))) =
      above.map Text.dropReturn ++
        (l ++ (e.opening ++ (inside ++ (e.closing ++ Text.dropReturn b)))) ::
          below.map Text.dropReturn := by
  have hplain : '\n' ∉ e.opening ++ inside ++ e.closing := by
    have hinside := h.1
    cases e <;> simpa [opening, closing] using hinside
  have hlast : (l ++ (e.opening ++ inside ++ e.closing)).getLast? ≠ some '\r' := by
    cases e <;> simp [closing]
  have hone : (e.opening ++ inside ++ e.closing).splitOn '\n' =
      [] ++ [e.opening ++ inside ++ e.closing] := List.splitOn_eq_singleton hplain
  have hmiddle : (e.opening ++ inside ++ e.closing ++ back).splitOn '\n' =
      (e.opening ++ inside ++ e.closing ++ b) :: below := Text.splitOn_append_parts hone hback
  have hjoin (t : Text) : e.opening ++ (inside ++ (e.closing ++ t)) =
      e.opening ++ inside ++ e.closing ++ t := by simp only [List.append_assoc]
  rw [hjoin, hjoin, Text.sourceLines, Text.splitOn_append_parts hfront hmiddle, List.map_append,
    List.map_cons, ← List.append_assoc l, Text.dropReturn_append hlast, List.append_assoc l]

namespace Comment

/--
What stands inside a literal or a plain comment can be replaced by anything of that length: the same
comments are found, and the same warnings raised.
-/
theorem scan_enclosed (e : Enclosure) (front inside inside' back : Text) (s : Scan)
    (hs : Scan.Reaches front (e.opening ++ (inside ++ (e.closing ++ back))) s)
    (hcode : s.mode = .code) (h : e.Holds inside) (h' : e.Holds inside')
    (hlength : inside'.length = inside.length) :
    ∃ found, scan (front ++ (e.opening ++ (inside ++ (e.closing ++ back)))) = .ok found ∧
      scan (front ++ (e.opening ++ (inside' ++ (e.closing ++ back)))) = .ok found := by
  obtain ⟨above, l, ahead, hfront, hvisit⟩ := hs
  obtain ⟨b, below, hback⟩ := List.exists_cons_of_ne_nil (List.splitOn_ne_nil '\n' back)
  have hlines := e.sourceLines_eq h hfront hback
  have hlines' := e.sourceLines_eq h' hfront hback
  have hmodes := hvisit.nested.code hcode
  rw [← List.length_map Text.dropReturn] at hvisit
  obtain ⟨rfl, hvisit'⟩ := hvisit.congr e hlines hlines' (List.append_nil l)
  have hsame : Scan.ofSource (front ++ (e.opening ++ (inside' ++ (e.closing ++ back)))) =
      Scan.ofSource (front ++ (e.opening ++ (inside ++ (e.closing ++ back)))) := by
    rw [hvisit'.ofSource_eq hlines', hvisit.ofSource_eq hlines, List.nil_append, List.nil_append,
      Scan.steps_enclosed e h hmodes, Scan.steps_enclosed e h' hmodes, hlength]
  obtain ⟨s₁, s₂, -, -, -, hfound⟩ :=
    Scan.exists_scan (front ++ (e.opening ++ (inside ++ (e.closing ++ back))))
  refine ⟨_, hfound, ?_⟩
  rw [← hfound, scan, scan, hsame]

/-- A plain comment with the mark of a doc block inside; instead a quote, slashes and a star. -/
theorem scan_enclosed_marks : ∃ (e : Enclosure) (front inside inside' back : Text) (s : Scan),
    e = .plainComment ∧ front = "/*** a */\n(" ∧ inside = "\x22/*** b" ∧ inside' = "é '//\\*" ∧
    back = " */\n/*** c */" ∧
    Scan.Reaches front (e.opening ++ (inside ++ (e.closing ++ back))) s ∧ s.mode = .code ∧
    ∃ found, scan (front ++ (e.opening ++ (inside ++ (e.closing ++ back)))) = .ok found ∧
      scan (front ++ (e.opening ++ (inside' ++ (e.closing ++ back)))) = .ok found ∧
      found = ([⟨⟨1, 1⟩, ⟨1, 10⟩, ['a']⟩, ⟨⟨3, 1⟩, ⟨3, 10⟩, ['c']⟩], [.strayClose ⟨2, 14⟩]) := by
  let e := Enclosure.plainComment
  obtain ⟨front, hfront⟩ : ∃ t : Text, t = "/*** a */\n(" := ⟨_, rfl⟩
  obtain ⟨inside, hinside⟩ : ∃ t : Text, t = "\x22/*** b" := ⟨_, rfl⟩
  obtain ⟨inside', hinside'⟩ : ∃ t : Text, t = "é '//\\*" := ⟨_, rfl⟩
  obtain ⟨back, hback⟩ : ∃ t : Text, t = " */\n/*** c */" := ⟨_, rfl⟩
  obtain ⟨s, hs⟩ : ∃ s : Scan, s = { start := ⟨1, 1⟩, closed := [⟨⟨1, 1⟩, ⟨1, 10⟩, ['a']⟩] } :=
    ⟨_, rfl⟩
  obtain ⟨l, hl⟩ : ∃ t : Text, t = "/*\x22/*** b*/ */" := ⟨_, rfl⟩
  have hlines : Text.sourceLines (front ++ (e.opening ++ (inside ++ (e.closing ++ back)))) =
      ["/*** a */".toList] ++ ('(' :: l) :: ["/*** c */".toList] := by
    subst hfront hinside hback hl
    decide +kernel
  have habove : Scan.lines 1 ["/*** a */".toList] {} = .ok s := by
    rw [hs]
    rfl
  have hcode : s.mode = .code := by
    rw [hs]
    rfl
  have hreach : Scan.Reaches front (e.opening ++ (inside ++ (e.closing ++ back))) s := by
    have hbefore : s.beforeLine = .ok s := by simp [Scan.beforeLine, hcode]
    have hstart := Scan.Visits.start hlines habove (by simp [hcode]) hbefore
    have hmargin : s.margin ('(' :: l) = 0 := by simp [Scan.margin, hcode]
    have hstep : s.step 2 1 ('(' :: l) = .ok (1, s) := by
      rw [Scan.step, hcode]
      rfl
    rw [hmargin] at hstart
    refine ⟨["/*** a */".toList], ['('], l, ?_, hstart.turn (by simp) hstep⟩
    rw [hfront]
    decide +kernel
  have hholds : e.Holds inside := by
    rw [hinside]
    exact ⟨by decide +kernel, by decide +kernel, by decide +kernel⟩
  have hholds' : e.Holds inside' := by
    rw [hinside']
    exact ⟨by decide +kernel, by decide +kernel, by decide +kernel⟩
  obtain ⟨found, hfound, hfound'⟩ := scan_enclosed e front inside inside' back s hreach hcode hholds
    hholds' (by rw [hinside, hinside']; rfl)
  refine ⟨e, front, inside, inside', back, s, rfl, hfront, hinside, hinside', hback, hreach, hcode,
    found, hfound, hfound', ?_⟩
  have hconcrete : scan (front ++ (e.opening ++ (inside ++ (e.closing ++ back)))) = .ok
      ([⟨⟨1, 1⟩, ⟨1, 10⟩, ['a']⟩, ⟨⟨3, 1⟩, ⟨3, 10⟩, ['c']⟩], [.strayClose ⟨2, 14⟩]) := by
    subst hfront hinside hback
    rfl
  exact Except.ok.inj (hfound.symm.trans hconcrete)

end Comment

end LuaStubs
