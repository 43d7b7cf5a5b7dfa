import LuaStubs.Proofs.Text.Trim
import LuaStubs.TypeExpr.Reader

namespace LuaStubs.Lua

theorem isIdentStart_iff (c : Char) : isIdentStart c = true ↔
    (65 ≤ c.toNat ∧ c.toNat ≤ 90) ∨ (97 ≤ c.toNat ∧ c.toNat ≤ 122) ∨ c.toNat = 95 := by
  have hunderscore : c = '_' ↔ c.toNat = 95 := Char.ext_iff.trans UInt32.toNat_inj.symm
  unfold isIdentStart Char.isAlpha Char.isUpper Char.isLower
  simp only [Bool.or_eq_true, Bool.and_eq_true, decide_eq_true_eq, beq_iff_eq, hunderscore,
    or_assoc]
  exact Iff.rfl

theorem isIdentChar_iff (c : Char) :
    isIdentChar c = true ↔ isIdentStart c = true ∨ c.isDigit = true := by
  unfold isIdentChar isIdentStart Char.isAlphanum
  simp only [Bool.or_eq_true]
  tauto

theorem isIdentChar_of_isSpace (c : Char) (h : Text.isSpace c = true) : isIdentChar c = false := by
  rw [← Bool.not_eq_true, isIdentChar_iff, isIdentStart_iff, Char.isDigit_iff_toNat]
  simp only [Text.isSpace, Bool.or_eq_true, Bool.and_eq_true, decide_eq_true_eq, beq_iff_eq,
    Char.reduceToNat] at h ⊢
  omega

theorem isIdentChar_of_isIdentStart (c : Char) (h : isIdentStart c = true) :
    isIdentChar c = true :=
  (isIdentChar_iff c).mpr (Or.inl h)

theorem isIdentChar_of_isDigit (c : Char) (h : c.isDigit = true) : isIdentChar c = true :=
  (isIdentChar_iff c).mpr (Or.inr h)

theorem not_isDigit_of_isIdentStart (c : Char) (h : isIdentStart c = true) :
    c.isDigit = false := by
  rw [isIdentStart_iff] at h
  rw [← Bool.not_eq_true, Char.isDigit_iff_toNat]
  simp only [Char.reduceToNat]
  omega

/-- Nothing stands in front that could lengthen a name or a number. -/
def WordEnds (t : Text) : Prop := ∀ c ∈ t.head?, isIdentChar c = false ∧ c ≠ '.'

theorem dottedTail_cons {c : Char} (hc : isIdentChar c = true) (t : Text) :
    dottedTail (c :: t) = (c :: (dottedTail t).1, (dottedTail t).2) := by
  have hd : c ≠ '.' := by
    intro hd
    rw [hd] at hc
    exact absurd hc (by decide)
  cases t <;> simp [dottedTail, hc, hd]

theorem dottedTail_stop {c : Char} (hc : isIdentChar c = false) (t : Text)
    (ht : c = '.' → ∀ d ∈ t.head?, isIdentStart d = false) :
    dottedTail (c :: t) = ([], c :: t) := by
  cases t with
  | nil => simp [dottedTail, hc]
  | cons d t =>
    by_cases hd : c = '.'
    · subst hd
      simp [dottedTail, ht rfl d rfl]
    · simp [dottedTail, hc, hd]

theorem dottedTail_wordEnds (r : Text) (hr : WordEnds r) : dottedTail r = ([], r) := by
  cases r with
  | nil => rfl
  | cons c r => exact dottedTail_stop (hr c rfl).1 r fun hd => absurd hd (hr c rfl).2

theorem dottedTail_append (t : Text) : (dottedTail t).1 ++ (dottedTail t).2 = t := by
  fun_induction dottedTail t <;> simp_all

theorem dottedTail_again (t r : Text) (hr : WordEnds r) :
    dottedTail ((dottedTail t).1 ++ r) = ((dottedTail t).1, r) := by
  fun_induction dottedTail t with
  | case1 c t hc path rest hp ih =>
    rw [hp] at ih
    simp [dottedTail, hc, ih]
  | case2 c t hc => exact dottedTail_wordEnds r hr
  | case3 c t hne hc path rest hp ih =>
    rw [hp] at ih
    rw [List.cons_append, dottedTail_cons hc, ih]
  | case4 c t hne hc => exact dottedTail_wordEnds r hr
  | case5 => exact dottedTail_wordEnds r hr

/-- What a reader of words has taken it takes again, if the word ends there. -/
def Rereads (f : Text → Option (Text × Text)) : Prop :=
  ∀ t p rest, f t = some (p, rest) →
    t = p ++ rest ∧ ∀ r, WordEnds r → f (p ++ r) = some (p, r)

theorem wordEnds_nil : WordEnds [] := by simp [WordEnds]

theorem Rereads.whole {f : Text → Option (Text × Text)} (hf : Rereads f) {t p rest : Text}
    (h : f t = some (p, rest)) : f p = some (p, []) := by
  simpa using (hf t p rest h).2 [] wordEnds_nil

theorem dotted?_rereads : Rereads dotted? := by
  intro t p rest h
  cases t with
  | nil => simp [dotted?] at h
  | cons c t =>
    by_cases hc : isIdentStart c = true
    · simp only [dotted?, hc, if_true, Option.some.injEq, Prod.mk.injEq] at h
      obtain ⟨rfl, rfl⟩ := h
      refine ⟨by simp [dottedTail_append], ?_⟩
      intro r hr
      simp [dotted?, hc, dottedTail_again t r hr]
    · simp [dotted?, hc] at h

theorem ident?_rereads : Rereads ident? := by
  intro t p rest h
  cases t with
  | nil => simp [ident?] at h
  | cons c t =>
    by_cases hc : isIdentStart c = true
    · simp only [ident?, hc, if_true, Option.some.injEq, Prod.mk.injEq] at h
      obtain ⟨rfl, rfl⟩ := h
      refine ⟨by simp [List.takeWhile_append_dropWhile], ?_⟩
      intro r hr
      obtain ⟨ht, hd⟩ := Text.span_append isIdentChar (t.takeWhile isIdentChar) r
        (fun x hx => List.mem_takeWhile_imp hx) (fun x hx => (hr x hx).1)
      simp [ident?, hc, ht, hd]
    · simp [ident?, hc] at h

theorem isDotted_iff (p : Text) : isDotted p = true ↔ dotted? p = some (p, []) := by
  unfold isDotted
  split
  · next q h =>
    obtain ⟨hp, -⟩ := dotted?_rereads p q [] h
    obtain rfl : p = q := hp.trans (List.append_nil q)
    simp [h]
  · next h => simpa using h p

end LuaStubs.Lua

namespace LuaStubs.TypeExpr

open Lua (Rereads WordEnds)

theorem slotName_rereads : Rereads slotName := by
  intro t p rest h
  unfold slotName at h
  split at h
  · obtain ⟨rfl, rfl⟩ := Prod.mk.inj (Option.some.inj h)
    exact ⟨rfl, fun r _ => rfl⟩
  · next hdots =>
    obtain ⟨ht, hr⟩ := Lua.ident?_rereads t p rest h
    refine ⟨ht, fun r hw => ?_⟩
    rw [← hr r hw]
    unfold slotName
    split
    · next u hu => 
      have hi := hr r hw
      rw [hu] at hi
      simp [Lua.ident?, Lua.isIdentStart] at hi
    · rfl

def IsDigits (t : Text) : Prop := t ≠ [] ∧ ∀ c ∈ t, c.isDigit = true

theorem digits_append (ds r : Text) (hd : IsDigits ds) (hr : ∀ c ∈ r.head?, c.isDigit = false) :
    digits (ds ++ r) = (ds, r) := by
  obtain ⟨ht, hw⟩ := Text.span_append Char.isDigit ds r hd.2 hr
  simp [digits, ht, hw]

theorem isDigits_digits (t : Text) (h : (digits t).1 ≠ []) : IsDigits (digits t).1 :=
  ⟨h, fun _ hc => List.mem_takeWhile_imp hc⟩

theorem append_digits (t : Text) : (digits t).1 ++ (digits t).2 = t :=
  List.takeWhile_append_dropWhile

theorem markedDigits_append (mark ds r : Text) (hd : IsDigits ds)
    (hr : ∀ c ∈ r.head?, c.isDigit = false) : markedDigits mark (ds ++ r) = (mark ++ ds, r) := by
  unfold markedDigits
  rw [digits_append ds r hd hr]
  split
  · next h => exact absurd (Prod.mk.inj h).1 hd.1
  · next h =>
    obtain ⟨rfl, rfl⟩ := Prod.mk.inj h
    rfl

/-- A part of a number is there with digits or not at all. -/
theorem markedDigits_cases (mark t : Text) :
    markedDigits mark t = ([], mark ++ t) ∨
    ∃ ds rest, IsDigits ds ∧ t = ds ++ rest ∧ markedDigits mark t = (mark ++ ds, rest) := by
  have ha := append_digits t
  have hd := isDigits_digits t
  unfold markedDigits
  split
  · exact Or.inl rfl
  · next ds rest hne h =>
    rw [h] at ha hd
    refine Or.inr ⟨ds, rest, hd ?_, ha.symm, rfl⟩
    rintro rfl
    exact hne rfl

def IsFraction (t : Text) : Prop := t = [] ∨ ∃ ds, IsDigits ds ∧ t = '.' :: ds

theorem fraction_sound (t : Text) :
    IsFraction (fraction t).1 ∧ (fraction t).1 ++ (fraction t).2 = t := by
  unfold fraction
  split
  · next t =>
    obtain h | ⟨ds, rest, hd, rfl, h⟩ := markedDigits_cases ['.'] t
    · rw [h]
      exact ⟨Or.inl rfl, rfl⟩
    · rw [h]
      exact ⟨Or.inr ⟨ds, hd, rfl⟩, rfl⟩
  · exact ⟨Or.inl rfl, rfl⟩

theorem fraction_append (f r : Text) (hf : IsFraction f)
    (hr : ∀ c ∈ r.head?, c.isDigit = false ∧ c ≠ '.') : fraction (f ++ r) = (f, r) := by
  obtain rfl | ⟨ds, hd, rfl⟩ := hf
  · cases r with
    | nil => rfl
    | cons c r => simp [fraction, (hr c rfl).2]
  · exact markedDigits_append ['.'] ds r hd fun c hc => (hr c hc).1

def IsExponentMark (t : Text) : Prop :=
  ∃ e, (e = 'e' ∨ e = 'E') ∧ (t = [e] ∨ t = [e, '+'] ∨ t = [e, '-'])

def IsExponent (t : Text) : Prop :=
  t = [] ∨ ∃ mark ds, IsExponentMark mark ∧ IsDigits ds ∧ t = mark ++ ds

theorem exponent_sound (t : Text) :
    IsExponent (exponent t).1 ∧ (exponent t).1 ++ (exponent t).2 = t := by
  have marked (mark u : Text) (hm : IsExponentMark mark) :
      IsExponent (markedDigits mark u).1 ∧
        (markedDigits mark u).1 ++ (markedDigits mark u).2 = mark ++ u := by
    obtain h | ⟨ds, rest, hd, rfl, h⟩ := markedDigits_cases mark u
    · rw [h]
      exact ⟨Or.inl rfl, rfl⟩
    · rw [h]
      exact ⟨Or.inr ⟨mark, ds, hm, hd, rfl⟩, by simp⟩
  unfold exponent
  split
  · next c t =>
    split
    · next hc =>
      have he : c = 'e' ∨ c = 'E' := by simpa using hc
      split
      · next u => exact marked [c, '+'] u ⟨c, he, by simp⟩
      · next u => exact marked [c, '-'] u ⟨c, he, by simp⟩
      · exact marked [c] t ⟨c, he, by simp⟩
    · exact ⟨Or.inl rfl, rfl⟩
  · exact ⟨Or.inl rfl, rfl⟩

theorem exponent_append (e r : Text) (he : IsExponent e)
    (hr : ∀ c ∈ r.head?, c.isDigit = false ∧ c ≠ 'e' ∧ c ≠ 'E') : exponent (e ++ r) = (e, r) := by
  obtain rfl | ⟨mark, ds, ⟨c, hc, hm⟩, hd, rfl⟩ := he
  · cases r with
    | nil => rfl
    | cons c r => simp [exponent, (hr c rfl).2]
  · have hg := markedDigits_append mark ds r hd fun x hx => (hr x hx).1
    obtain rfl | rfl | rfl := hm
    · obtain ⟨d, ds, rfl⟩ := List.exists_cons_of_ne_nil hd.1
      have hdd := hd.2 d (by simp)
      have hp : d ≠ '+' := by
        rintro rfl
        exact absurd hdd (by decide)
      have hn : d ≠ '-' := by
        rintro rfl
        exact absurd hdd (by decide)
      rw [← hg]
      obtain rfl | rfl := hc <;> simp [exponent, hp, hn]
    · rw [← hg]
      obtain rfl | rfl := hc <;> simp [exponent]
    · rw [← hg]
      obtain rfl | rfl := hc <;> simp [exponent]

theorem isFraction_head {f : Text} (hf : IsFraction f) : ∀ c ∈ f.head?, c = '.' := by
  obtain rfl | ⟨ds, -, rfl⟩ := hf <;> simp

theorem isExponent_head {e : Text} (he : IsExponent e) : ∀ c ∈ e.head?, c = 'e' ∨ c = 'E' := by
  obtain rfl | ⟨mark, ds, ⟨c, hc, rfl | rfl | rfl⟩, -, rfl⟩ := he
  · simp
  all_goals simpa using hc

/-- What stands in front of two texts put together comes from the first that is not empty. -/
theorem head?_append_imp {P : Char → Prop} {s t : Text} (hs : ∀ c ∈ s.head?, P c)
    (ht : ∀ c ∈ t.head?, P c) : ∀ c ∈ (s ++ t).head?, P c := by
  cases s with
  | nil => exact ht
  | cons a s => exact hs

theorem wordEnds_not_digit {r : Text} (hr : WordEnds r) : ∀ c ∈ r.head?, c.isDigit = false := by
  intro c hc
  have h := (hr c hc).1
  rw [← Bool.not_eq_true, Lua.isIdentChar_iff, not_or] at h
  exact eq_false_of_ne_true h.2

theorem wordEnds_ne {r : Text} (hr : WordEnds r) (x : Char) (hx : Lua.isIdentChar x = true) :
    ∀ c ∈ r.head?, c ≠ x := by
  rintro c hc rfl
  rw [(hr c hc).1] at hx
  exact Bool.false_ne_true hx

/-- A decimal number: digits, then a fraction and an exponent that may be missing. -/
def IsDecimal (n : Text) : Prop :=
  ∃ ds f e, IsDigits ds ∧ IsFraction f ∧ IsExponent e ∧ n = ds ++ (f ++ e)

theorem decimal_sound {t n rest : Text} (h : decimal t = some (n, rest)) :
    t = n ++ rest ∧ IsDecimal n := by
  have ha := append_digits t
  have hd := isDigits_digits t
  unfold decimal at h
  split at h
  · cases h
  · next ds u hne hu =>
    rw [hu] at ha hd
    obtain ⟨hf, hfa⟩ := fraction_sound u
    obtain ⟨he, hea⟩ := exponent_sound (fraction u).2
    have hn : some (ds ++ (fraction u).1 ++ (exponent (fraction u).2).1,
        (exponent (fraction u).2).2) = some (n, rest) := h
    obtain ⟨rfl, rfl⟩ := Prod.mk.inj (Option.some.inj hn)
    refine ⟨?_, ds, (fraction u).1, (exponent (fraction u).2).1, hd ?_, hf, he, ?_⟩
    · rw [List.append_assoc, hea, List.append_assoc, hfa, ha]
    · rintro rfl
      exact hne rfl
    · rw [List.append_assoc]

theorem decimal_append {n r : Text} (hn : IsDecimal n) (hr : WordEnds r) :
    decimal (n ++ r) = some (n, r) := by
  obtain ⟨ds, f, e, hd, hf, he, rfl⟩ := hn
  have hdigit := wordEnds_not_digit hr
  have he' : ∀ c ∈ (e ++ r).head?, c.isDigit = false ∧ c ≠ '.' := by
    refine head?_append_imp (fun c hc => ?_) (fun c hc => ⟨hdigit c hc, (hr c hc).2⟩)
    obtain rfl | rfl := isExponent_head he c hc <;> decide
  have hf' : ∀ c ∈ (f ++ (e ++ r)).head?, c.isDigit = false := by
    refine head?_append_imp (fun c hc => ?_) (fun c hc => (he' c hc).1)
    obtain rfl := isFraction_head hf c hc
    decide
  have h1 : digits (ds ++ (f ++ (e ++ r))) = (ds, f ++ (e ++ r)) := digits_append _ _ hd hf'
  have h2 : fraction (f ++ (e ++ r)) = (f, e ++ r) := fraction_append f _ hf he'
  have h3 : exponent (e ++ r) = (e, r) := exponent_append e r he fun c hc =>
    ⟨hdigit c hc, wordEnds_ne hr 'e' (by decide) c hc, wordEnds_ne hr 'E' (by decide) c hc⟩
  unfold decimal
  rw [List.append_assoc, List.append_assoc, h1]
  obtain ⟨d, ds, rfl⟩ := List.exists_cons_of_ne_nil hd.1
  simp [h2, h3]

/-- A decimal number is not the beginning of a hexadecimal one. -/
theorem hexadecimal_append {n r : Text} (hn : IsDecimal n) (hr : WordEnds r) :
    hexadecimal (n ++ r) = none := by
  obtain ⟨ds, f, e, hd, hf, he, rfl⟩ := hn
  obtain ⟨d, ds, rfl⟩ := List.exists_cons_of_ne_nil hd.1
  have hx : ∀ c ∈ (ds ++ (f ++ (e ++ r))).head?, c ≠ 'x' ∧ c ≠ 'X' := by
    refine head?_append_imp (fun c hc => ?_) (head?_append_imp (fun c hc => ?_)
      (head?_append_imp (fun c hc => ?_) (fun c hc => ?_)))
    · have hcd := hd.2 c (List.mem_cons_of_mem _ (List.mem_of_mem_head? hc))
      have hne (x : Char) (hx : x.isDigit = false) : c ≠ x := by
        intro h
        rw [h, hx] at hcd
        exact Bool.false_ne_true hcd
      exact ⟨hne 'x' (by decide), hne 'X' (by decide)⟩
    · obtain rfl := isFraction_head hf c hc
      decide
    · obtain rfl | rfl := isExponent_head he c hc <;> decide
    · exact ⟨wordEnds_ne hr 'x' (by decide) c hc, wordEnds_ne hr 'X' (by decide) c hc⟩
  simp only [List.cons_append, List.append_assoc]
  unfold hexadecimal
  split
  · next x u hu =>
    rw [(List.cons.inj hu).2] at hx
    simp [hx x rfl]
  · rfl

theorem isIdentChar_of_isHexDigit (c : Char) (h : isHexDigit c = true) :
    Lua.isIdentChar c = true := by
  have hle (x y : Char) : x ≤ y ↔ x.toNat ≤ y.toNat := UInt32.le_iff_toNat_le
  rw [Lua.isIdentChar_iff, Lua.isIdentStart_iff, Char.isDigit_iff_toNat]
  simp only [isHexDigit, Bool.or_eq_true, Bool.and_eq_true, decide_eq_true_eq,
    Char.isDigit_iff_toNat, hle, Char.reduceToNat] at h ⊢
  omega

theorem hexadecimal_rereads : Rereads hexadecimal := by
  intro t n rest h
  unfold hexadecimal at h
  split at h
  · next x u =>
    split at h
    · next hx =>
      obtain ⟨rfl, rfl⟩ := Prod.mk.inj (Option.some.inj h)
      refine ⟨by simp [List.takeWhile_append_dropWhile], fun r hr => ?_⟩
      have hhex : ∀ c ∈ r.head?, isHexDigit c = false := by
        intro c hc
        by_contra hd
        have hi := isIdentChar_of_isHexDigit c (by simpa using hd)
        exact wordEnds_ne hr c hi c hc rfl
      obtain ⟨htake, hdrop⟩ := Text.span_append isHexDigit (u.takeWhile isHexDigit) r
        (fun c hc => List.mem_takeWhile_imp hc) hhex
      change (if (x = 'x' || x = 'X') && (u.takeWhile isHexDigit ++ r).takeWhile isHexDigit ≠ []
        then some ('0' :: x :: (u.takeWhile isHexDigit ++ r).takeWhile isHexDigit,
          (u.takeWhile isHexDigit ++ r).dropWhile isHexDigit) else none) = _
      rw [htake, hdrop, if_pos hx]
    · cases h
  · cases h

theorem unsigned_rereads : Rereads unsigned := by
  intro t n rest h
  unfold unsigned at h
  cases hx : hexadecimal t with
  | some m =>
    rw [hx] at h
    obtain rfl : m = (n, rest) := Option.some.inj h
    obtain ⟨ht, ha⟩ := hexadecimal_rereads t n rest hx
    refine ⟨ht, fun r hr => ?_⟩
    rw [unsigned, ha r hr]
    rfl
  | none =>
    rw [hx] at h
    obtain ⟨ht, hn⟩ := decimal_sound h
    refine ⟨ht, fun r hr => ?_⟩
    rw [unsigned, hexadecimal_append hn hr, decimal_append hn hr]
    rfl

theorem unsigned_minus (t : Text) : unsigned ('-' :: t) = none := by
  simp [unsigned, hexadecimal, decimal, digits]

theorem number_rereads : Rereads number := by
  intro t n rest h
  unfold number at h
  split at h
  · next t =>
    obtain ⟨⟨m, u⟩, hm, hn⟩ := Option.map_eq_some_iff.mp h
    obtain ⟨rfl, rfl⟩ := Prod.mk.inj hn
    obtain ⟨rfl, ha⟩ := unsigned_rereads t m u hm
    exact ⟨rfl, fun r hr => by simp [number, ha r hr]⟩
  · obtain ⟨ht, ha⟩ := unsigned_rereads t n rest h
    refine ⟨ht, fun r hr => ?_⟩
    rw [← ha r hr]
    unfold number
    split
    · next u hu =>
      have hs := ha r hr
      rw [hu, unsigned_minus] at hs
      cases hs
    · rfl

theorem quotedTail_cons (q c : Char) (t : Text) (hc : c ≠ '\\') :
    quotedTail q (c :: t) =
      if c = q then some ([c], t) else (quotedTail q t).map fun (s, rest) => (c :: s, rest) := by
  cases t <;> simp [quotedTail, hc]

/-- A quoted string ends at its closing quote, whatever follows. -/
theorem quotedTail_rereads (q : Char) (hq : q ≠ '\\') {t s rest : Text}
    (h : quotedTail q t = some (s, rest)) :
    t = s ++ rest ∧ ∀ r, quotedTail q (s ++ r) = some (s, r) := by
  fun_induction quotedTail q t generalizing s with
  | case1 => cases h
  | case2 c t ih =>
    obtain ⟨⟨u, v⟩, hu, hs⟩ := Option.map_eq_some_iff.mp h
    obtain ⟨rfl, rfl⟩ := Prod.mk.inj hs
    obtain ⟨rfl, ha⟩ := ih hu
    exact ⟨rfl, fun r => by simp [quotedTail, ha r]⟩
  | case3 t hne =>
    obtain ⟨rfl, rfl⟩ := Prod.mk.inj (Option.some.inj h)
    exact ⟨rfl, fun r => by simp [quotedTail_cons q q r hq]⟩
  | case4 c t hne hcq ih =>
    obtain ⟨⟨u, v⟩, hu, hs⟩ := Option.map_eq_some_iff.mp h
    obtain ⟨rfl, rfl⟩ := Prod.mk.inj hs
    obtain ⟨rfl, ha⟩ := ih hu
    have hc : c ≠ '\\' := by
      rintro rfl
      cases hw : u ++ v with
      | nil =>
        rw [hw] at hu
        cases hu
      | cons d w => exact hne d w rfl hw
    exact ⟨rfl, fun r => by simp [quotedTail_cons q c _ hc, hcq, ha r]⟩

end LuaStubs.TypeExpr
