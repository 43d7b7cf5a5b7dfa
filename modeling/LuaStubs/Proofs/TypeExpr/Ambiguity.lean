import LuaStubs.Proofs.Text.Surroundings
import LuaStubs.Proofs.TypeExpr.Extent

namespace LuaStubs.TypeExpr

open Surroundings (after_append after_cons)
open Text (HasSpacedBar IsClosed IsGuarded IsOutside isBlank isSpace)

/-- The characters of names and numbers. -/
def isWordChar (c : Char) : Bool := Lua.isIdentChar c || c == '.' || c == '-' || c == '+'

theorem isWordChar_of_isIdentChar {c : Char} (h : Lua.isIdentChar c = true) :
    isWordChar c = true := by
  simp [isWordChar, h]

theorem isWordChar_of_isDigit {c : Char} (h : c.isDigit = true) : isWordChar c = true :=
  isWordChar_of_isIdentChar (Lua.isIdentChar_of_isDigit c h)

theorem isGuarded_of_wordChars {t : Text} (h : ∀ c ∈ t, isWordChar c = true) : IsGuarded t :=
  Text.isGuarded_of_class (by decide) h

theorem wordChars_of_dottedTail (t : Text) : ∀ c ∈ (Lua.dottedTail t).1, isWordChar c = true := by
  fun_induction Lua.dottedTail t with
  | case1 c t hc path rest hp ih =>
    rw [hp] at ih
    have hstart := isWordChar_of_isIdentChar (Lua.isIdentChar_of_isIdentStart c hc)
    exact List.forall_mem_cons.mpr ⟨by decide, List.forall_mem_cons.mpr ⟨hstart, ih⟩⟩
  | case2 c t hc => simp
  | case3 c t hne hc path rest hp ih =>
    rw [hp] at ih
    exact List.forall_mem_cons.mpr ⟨isWordChar_of_isIdentChar hc, ih⟩
  | case4 c t hne hc => simp
  | case5 => simp

theorem wordChars_of_dotted? {t p rest : Text} (h : Lua.dotted? t = some (p, rest)) :
    ∀ c ∈ p, isWordChar c = true := by
  cases t with
  | nil => cases h
  | cons c t =>
    by_cases hc : Lua.isIdentStart c = true
    · simp only [Lua.dotted?, hc, if_true, Option.some.injEq, Prod.mk.injEq] at h
      obtain ⟨rfl, -⟩ := h
      have hstart := isWordChar_of_isIdentChar (Lua.isIdentChar_of_isIdentStart c hc)
      exact List.forall_mem_cons.mpr ⟨hstart, wordChars_of_dottedTail t⟩
    · simp [Lua.dotted?, hc] at h

theorem wordChars_of_slotName {t p rest : Text} (h : slotName t = some (p, rest)) :
    ∀ c ∈ p, isWordChar c = true := by
  unfold slotName at h
  split at h
  · obtain ⟨rfl, -⟩ := Prod.mk.inj (Option.some.inj h)
    exact List.all_eq_true.mp (by decide)
  · cases t with
    | nil => cases h
    | cons c t =>
      by_cases hc : Lua.isIdentStart c = true
      · simp only [Lua.ident?, hc, if_true, Option.some.injEq, Prod.mk.injEq] at h
        obtain ⟨rfl, -⟩ := h
        have hstart := isWordChar_of_isIdentChar (Lua.isIdentChar_of_isIdentStart c hc)
        refine List.forall_mem_cons.mpr ⟨hstart, ?_⟩
        intro d hd
        exact isWordChar_of_isIdentChar (List.mem_takeWhile_imp hd)
      · simp [Lua.ident?, hc] at h

theorem wordChars_of_isDecimal {n : Text} (h : IsDecimal n) : ∀ c ∈ n, isWordChar c = true := by
  have digits {ds : Text} (hd : IsDigits ds) : ∀ c ∈ ds, isWordChar c = true :=
    fun c hc => isWordChar_of_isDigit (hd.2 c hc)
  obtain ⟨ds, f, e, hd, hf, he, rfl⟩ := h
  refine List.forall_mem_append.mpr ⟨digits hd, List.forall_mem_append.mpr ⟨?_, ?_⟩⟩
  · obtain rfl | ⟨fs, hfs, rfl⟩ := hf
    · simp
    · exact List.forall_mem_cons.mpr ⟨by decide, digits hfs⟩
  · obtain rfl | ⟨mark, es, ⟨x, hx, hmark⟩, hes, rfl⟩ := he
    · simp
    · refine List.forall_mem_append.mpr ⟨?_, digits hes⟩
      apply List.all_eq_true.mp
      obtain rfl | rfl := hx <;> obtain rfl | rfl | rfl := hmark <;> decide

theorem wordChars_of_unsigned {t n rest : Text} (h : unsigned t = some (n, rest)) :
    ∀ c ∈ n, isWordChar c = true := by
  unfold unsigned at h
  cases hx : hexadecimal t with
  | none =>
    rw [hx] at h
    exact wordChars_of_isDecimal (decimal_sound h).2
  | some m =>
    rw [hx] at h
    obtain rfl : m = (n, rest) := Option.some.inj h
    unfold hexadecimal at hx
    split at hx
    · next x u =>
      split at hx
      · next hmark =>
        obtain ⟨rfl, -⟩ := Prod.mk.inj (Option.some.inj hx)
        refine List.forall_mem_cons.mpr ⟨by decide, List.forall_mem_cons.mpr ⟨?_, ?_⟩⟩
        · simp only [Bool.and_eq_true, Bool.or_eq_true, decide_eq_true_eq] at hmark
          obtain rfl | rfl := hmark.1 <;> decide
        · intro d hd
          exact isWordChar_of_isIdentChar
            (isIdentChar_of_isHexDigit d (List.mem_takeWhile_imp hd))
      · cases hx
    · cases hx

theorem wordChars_of_number {t n rest : Text} (h : number t = some (n, rest)) :
    ∀ c ∈ n, isWordChar c = true := by
  unfold number at h
  split at h
  · obtain ⟨m, hm, hn⟩ := Option.map_eq_some_iff.mp h
    obtain ⟨rfl, -⟩ := Prod.mk.inj hn
    exact List.forall_mem_cons.mpr ⟨by decide, wordChars_of_unsigned hm⟩
  · exact wordChars_of_unsigned h

/-- Up to its closing quote a string goes on, whatever it holds. -/
theorem after_quotedTail {q : Char} (hq : q ≠ '\\') {t u rest : Text} (s : Surroundings)
    (h : quotedTail q t = some (u, rest)) (hs : s.string = some (q, false)) :
    s.after u = { s with string := none } ∧
      ∀ before c more, u = before ++ c :: more →
        (s.after before).string ≠ none ∧ (s.after before).brackets = s.brackets := by
  have here : s.string ≠ none ∧ s.brackets = s.brackets := by simp [hs]
  fun_induction quotedTail q t generalizing u with
  | case1 => cases h
  | case2 c t ih =>
    obtain ⟨⟨v, w⟩, hv, hu⟩ := Option.map_eq_some_iff.mp h
    obtain ⟨rfl, rfl⟩ := Prod.mk.inj hu
    have hguard : s.step '\\' = { s with string := some (q, true) } := by
      simp [Surroundings.step, hs]
    have hback : ({ s with string := some (q, true) } : Surroundings).step c = s := by
      simp [Surroundings.step, ← hs]
    obtain ⟨hafter, hinside⟩ := ih hv
    refine ⟨by rw [after_cons, after_cons, hguard, hback, hafter], ?_⟩
    intro before d more hsplit
    obtain ⟨rfl, -⟩ | ⟨mid, rfl, hmid⟩ := List.cons_eq_append_iff.mp hsplit
    · exact here
    · rw [after_cons, hguard]
      obtain ⟨rfl, -⟩ | ⟨tail, rfl, hend⟩ := List.cons_eq_append_iff.mp hmid
      · exact ⟨by simp [Surroundings.after], rfl⟩
      · rw [after_cons, hback]
        exact hinside tail d more hend
  | case3 t hne =>
    obtain ⟨rfl, -⟩ := Prod.mk.inj (Option.some.inj h)
    refine ⟨by simp [Surroundings.after, Surroundings.step, hs, hq], ?_⟩
    intro before d more hsplit
    obtain ⟨rfl, -⟩ | ⟨mid, rfl, hmid⟩ := List.cons_eq_append_iff.mp hsplit
    · exact here
    · simp at hmid
  | case4 c t hne hcq ih =>
    obtain ⟨⟨v, w⟩, hv, hu⟩ := Option.map_eq_some_iff.mp h
    obtain ⟨rfl, rfl⟩ := Prod.mk.inj hu
    have hc : c ≠ '\\' := by
      rintro rfl
      cases t with
      | nil => cases hv
      | cons d t => exact hne d t rfl rfl
    have hstep : s.step c = s := by simp [Surroundings.step, hs, hc, hcq]
    obtain ⟨hafter, hinside⟩ := ih hv
    refine ⟨by rw [after_cons, hstep, hafter], ?_⟩
    intro before d more hsplit
    obtain ⟨rfl, -⟩ | ⟨mid, rfl, hmid⟩ := List.cons_eq_append_iff.mp hsplit
    · exact here
    · rw [after_cons, hstep]
      exact hinside mid d more hmid

theorem isGuarded_quoted {q : Char} (hq : q = '\x22' ∨ q = '\x27') {t : Text}
    (h : quotedTail q t = some (t, [])) : IsGuarded (q :: t) := by
  have hquote : Surroundings.isQuote q = true := by simpa [Surroundings.isQuote] using hq
  have hesc : q ≠ '\\' ∧ q ≠ '|' := by obtain rfl | rfl := hq <;> decide
  have hstring (s : Surroundings) :=
    after_quotedTail hesc.1 { s with string := some (q, false) } h rfl
  refine ⟨⟨?_, ?_⟩, ?_⟩
  · intro s hs
    rw [after_cons, Surroundings.step_quote hs hquote, (hstring s).1]
    simp [← hs]
  · intro s hs before c rest hsplit
    obtain ⟨rfl, -⟩ | ⟨mid, rfl, hmid⟩ := List.cons_eq_append_iff.mp hsplit
    · exact Nat.le_refl _
    · rw [after_cons, Surroundings.step_quote hs hquote, ((hstring s).2 mid c rest hmid).2]
  · intro s hs before rest hsplit heq
    obtain ⟨rfl, hbar⟩ | ⟨mid, rfl, hmid⟩ := List.cons_eq_append_iff.mp hsplit
    · exact hesc.2 (List.cons.inj hbar).1.symm
    · rw [after_cons, Surroundings.step_quote hs hquote] at heq
      apply ((hstring s).2 mid '|' rest hmid).1
      rw [heq, hs]

namespace Grammar

theorem isGuarded_gap {nested : Bool} {w : Text} (h : Gap nested w) : IsGuarded w :=
  Text.isGuarded_of_class (by decide) fun c hc => isSpace_of_isGap (h c hc)

theorem isClosed_gap {nested : Bool} {w : Text} (h : Gap nested w) : IsClosed w :=
  (isGuarded_gap h).toIsClosed

theorem isClosed_slotName {name : Text} (h : slotName name = some (name, [])) : IsClosed name :=
  (isGuarded_of_wordChars (wordChars_of_slotName h)).toIsClosed

section Lists
variable {α : Type} {spells : α → Text → Prop} {close : Char}
  (hitem : ∀ x c, spells x c → IsClosed c)
include hitem

/-- All but the closing bracket of a list is closed. -/
theorem items_isClosed {xs : List α} {cs : Text} (h : Items spells close xs cs) :
    ∃ t, cs = t ++ [close] ∧ IsClosed t := by
  induction h with
  | @last x c w hc hw =>
    exact ⟨c ++ w, by simp, (hitem x c hc).append (isClosed_gap hw)⟩
  | @more x xs c w v cs hc hw hv _ ih =>
    obtain ⟨t, rfl, ht⟩ := ih
    refine ⟨c ++ (w ++ ',' :: (v ++ t)), by simp, (hitem x c hc).append ?_⟩
    exact (isClosed_gap hw).append (((isClosed_gap hv).append ht).cons (by decide))

theorem bracketed_isClosed {xs : List α} {cs : Text} (h : Bracketed spells close xs cs) :
    ∃ t, cs = t ++ [close] ∧ IsClosed t := by
  cases h with
  | @empty w hw => exact ⟨w, rfl, isClosed_gap hw⟩
  | @filled xs w cs hw hcs =>
    obtain ⟨t, rfl, ht⟩ := items_isClosed hitem hcs
    exact ⟨w ++ t, by simp, (isClosed_gap hw).append ht⟩

/-- A list in its brackets. -/
theorem bracketed_isGuarded {xs : List α} {cs : Text} (h : Bracketed spells close xs cs) {c : Char}
    {b : Bracket} (hc : Bracket.opened? c = some b) (hclose : Bracket.closed? close = some b) :
    IsGuarded (c :: cs) := by
  obtain ⟨t, rfl, ht⟩ := bracketed_isClosed hitem h
  exact ht.bracket hc hclose

end Lists

section Parts
variable {type : TypeExpr → Text → Prop} {nested : Bool}

theorem alternatives_isClosed (htype : ∀ u c, type u c → IsClosed c) {ms : List TypeExpr}
    {spaced : Bool} {cs : Text} (h : Alternatives type nested ms spaced cs) : IsClosed cs := by
  induction h with
  | none => exact Text.isClosed_of_plain (by simp)
  | @more m ms spaced w v c cs hw hv hc _ ih =>
    have hmember := (isClosed_gap hv).append ((htype m c hc).append ih)
    exact (isClosed_gap hw).append (hmember.cons (by decide))

theorem union_isClosed (htype : ∀ u c, type u c → IsClosed c) {u : TypeExpr} {spaced : Bool}
    {c : Text} (h : Union type nested u spaced c) : IsClosed c := by
  cases h with
  | single hc => exact htype _ _ hc
  | several hc hcs => exact (htype _ _ hc).append (alternatives_isClosed htype hcs)

theorem tableField_isClosed (htype : ∀ u c, type u c → IsClosed c) (f : Text × TypeExpr) (c : Text)
    (h : TableField type f c) : IsClosed c := by
  cases h with
  | mk hname hw hv hc =>
    have hvalue := ((isClosed_gap hv).append (htype _ _ hc)).cons (c := ':') (by decide)
    exact (isClosed_slotName hname).append ((isClosed_gap hw).append hvalue)

theorem parameter_isClosed (htype : ∀ u c, type u c → IsClosed c) (p : Text × Option TypeExpr)
    (c : Text) (h : Parameter type p c) : IsClosed c := by
  cases h with
  | bare hname hw => exact (isClosed_slotName hname).append (isClosed_gap hw)
  | typed hname hw hv hc => exact tableField_isClosed htype (_, _) _ (.mk hname hw hv hc)

theorem returned_isGuarded (htype : ∀ u c, type u c → IsGuarded c) {r : Option TypeExpr} {c : Text}
    (h : Returned type nested r c) : IsGuarded c := by
  cases h with
  | none => exact isGuarded_of_wordChars (by simp)
  | some hv hc =>
    have hcolon : IsGuarded [':'] :=
      Text.isGuarded_of_plain (List.forall_mem_singleton.mpr (by decide))
    exact hcolon.append ((isGuarded_gap hv).append (htype _ _ hc))

end Parts

theorem primary_isGuarded {spells : Bool → TypeExpr → Text → Prop} {nested : Bool}
    (hspells : ∀ n u c, spells n u c → IsGuarded c) {u : TypeExpr} {c : Text}
    (h : Primary spells nested u c) : IsGuarded c := by
  have hinner (u : TypeExpr) (c : Text) (hc : Inner spells u c) : IsClosed c := by
    obtain ⟨spaced, hunion⟩ := hc
    exact union_isClosed (fun u c h => (hspells true u c h).toIsClosed) hunion
  have hdotted {name : Text} (hname : Lua.isDotted name = true) : IsGuarded name :=
    isGuarded_of_wordChars (wordChars_of_dotted? ((Lua.isDotted_iff name).mp hname))
  cases h with
  | @parens u w c v hw hc hv =>
    have hbody := (isClosed_gap hw).append ((hinner u c hc).append (isClosed_gap hv))
    have hround := hbody.bracket (c := '(') (d := ')') rfl rfl
    simpa only [List.append_assoc] using hround
  | tuple hc => exact bracketed_isGuarded hinner hc rfl rfl
  | @dictionary k v w₁ w₂ w₃ w₄ w₅ w₆ c d g₁ g₂ hk g₃ g₄ g₅ hv g₆ =>
    have hkey : IsGuarded ('[' :: ((w₂ ++ (c ++ w₃)) ++ [']'])) :=
      ((isClosed_gap g₂).append ((hinner k c hk).append (isClosed_gap g₃))).bracket rfl rfl
    have hvalue : IsClosed (':' :: (w₅ ++ (d ++ w₆))) :=
      ((isClosed_gap g₅).append ((hinner v d hv).append (isClosed_gap g₆))).cons (by decide)
    have hcurly := ((isClosed_gap g₁).append (hkey.toIsClosed.append
      ((isClosed_gap g₄).append hvalue))).bracket (c := '\x7b') (d := '\x7d') rfl rfl
    simpa only [List.append_assoc, List.cons_append, List.nil_append] using hcurly
  | table hc => exact bracketed_isGuarded (tableField_isClosed hinner) hc rfl rfl
  | quoted hq hs => exact isGuarded_quoted hq hs
  | number hnum => exact isGuarded_of_wordChars (wordChars_of_number hnum)
  | constant hconst => exact hdotted hconst.isDotted
  | name hname => exact hdotted hname
  | generic hname _ hc => exact (hdotted hname).append (bracketed_isGuarded hinner hc rfl rfl)
  | @function ps r c v hc hv =>
    have hfun : IsGuarded ("fun" : String).toList :=
      isGuarded_of_wordChars (List.all_eq_true.mp (by decide))
    have hparams : IsGuarded ('(' :: c) :=
      bracketed_isGuarded (parameter_isClosed hinner) hc rfl rfl
    exact hfun.append (hparams.append (returned_isGuarded (hspells nested) hv))

theorem marks_isGuarded {u v : TypeExpr} {m : Text} (h : Marks u v m) : IsGuarded m := by
  induction h with
  | none => exact isGuarded_of_wordChars (by simp)
  | array _ ih =>
    have hpair : IsGuarded ['[', ']'] :=
      (Text.isClosed_of_plain (t := []) (by simp)).bracket rfl rfl
    exact hpair.append ih
  | optional _ ih =>
    have hmark : IsGuarded ['?'] :=
      Text.isGuarded_of_plain (List.forall_mem_singleton.mpr (by decide))
    exact hmark.append ih

/-- The bars of a member lie in its strings and brackets. -/
theorem member_isGuarded (depth : Nat) (nested : Bool) (u : TypeExpr) (c : Text)
    (h : Member depth nested u c) : IsGuarded c := by
  induction depth generalizing nested u c with
  | zero => exact h.elim
  | succ depth ih =>
    obtain ⟨v, p, m, hp, hm, -, rfl⟩ := h
    exact (primary_isGuarded ih hp).append (marks_isGuarded hm)

theorem isBlank_of_shows {c : Char} (h : isSpace c = false) : isBlank c = false := by
  cases hb : isBlank c with
  | false => rfl
  | true =>
    rw [Text.isSpace_of_isBlank hb] at h
    cases h

theorem endsBlank_gap {c w : Text} (hc : EndsVisibly c) (hw : Gap false w) :
    Text.EndsBlank (c ++ w) ↔ (!w.isEmpty) = true := by
  cases w with
  | nil =>
    obtain ⟨d, hd, hshows⟩ := hc
    simp [Text.EndsBlank, hd, isBlank_of_shows hshows]
  | cons a w =>
    have hne := List.cons_ne_nil a w
    rw [Text.endsBlank_append hne]
    exact iff_of_true ⟨_, List.getLast?_eq_some_getLast hne, hw _ (List.getLast_mem hne)⟩ rfl

theorem startsBlank_gap {w c : Text} (hw : Gap false w) (hc : Opens c) :
    Text.StartsBlank (w ++ c) ↔ (!w.isEmpty) = true := by
  cases w with
  | nil =>
    obtain ⟨a, u, rfl, ha⟩ := hc.exists_cons
    simp [Text.StartsBlank, isBlank_of_shows ha]
  | cons a w => exact iff_of_true ⟨a, rfl, hw a (by simp)⟩ rfl

section Bars
variable {spells : TypeExpr → Text → Prop} (hguarded : ∀ u c, spells u c → IsGuarded c)
  (hends : ∀ u c, spells u c → EndsVisibly c) (hopens : ∀ u c, spells u c → Opens c)
include hguarded hends hopens

/-- The bars outside are those between the members, so the flag tells of all of them. -/
theorem alternatives_spaced_iff {ms : List TypeExpr} {spaced : Bool} {cs : Text}
    (h : Alternatives spells false ms spaced cs) {c : Text} (hc : IsGuarded c)
    (hvisible : EndsVisibly c) : HasSpacedBar (c ++ cs) ↔ spaced = true := by
  induction h generalizing c with
  | none =>
    rw [List.append_nil]
    exact iff_of_false hc.not_hasSpacedBar Bool.false_ne_true
  | @more m ms spaced w v c' cs hw hv hc' hcs ih =>
    have hopen : Opens (c' ++ cs) := (hopens m c' hc').append cs
    have hnobar : (c' ++ cs).head? ≠ some '|' := by
      obtain ⟨a, u, hcons, ha⟩ := hopen
      rw [hcons]
      rintro ⟨⟩
      cases ha
    have hlater : HasSpacedBar (v ++ (c' ++ cs)) ↔ spaced = true :=
      ((isGuarded_gap hv).hasSpacedBar_append hnobar).trans
        (ih (hguarded m c' hc') (hends m c' hc'))
    rw [← List.append_assoc, (hc.append (isGuarded_gap hw)).hasSpacedBar_append_bar,
      endsBlank_gap hvisible hw, startsBlank_gap hv hopen, hlater, Bool.or_eq_true,
      Bool.or_eq_true]

theorem union_spaced_iff {u : TypeExpr} {spaced : Bool} {c : Text}
    (h : Union spells false u spaced c) : HasSpacedBar c ↔ spaced = true := by
  cases h with
  | single hc => exact iff_of_false (hguarded _ _ hc).not_hasSpacedBar Bool.false_ne_true
  | several hc hcs =>
    exact alternatives_spaced_iff hguarded hends hopens hcs (hguarded _ _ hc) (hends _ _ hc)

end Bars

end Grammar

open Grammar

/--
A reading is marked exactly if a bar in the text that it takes has a blank beside it and lies in no
string and in no brackets. All strings and brackets in that text are closed.
-/
theorem read?_ambiguous_iff (s : Text) (p : Reading) (h : read? s = some p) :
    s = p.taken s ++ p.rest ∧ p.bytes s = Text.byteLength (p.taken s) ∧ IsOutside (p.taken s) ∧
    (p.ambiguous = true ↔ HasSpacedBar (p.taken s)) := by
  obtain ⟨c, hc, hspelled⟩ := read?_sound h
  have hguarded := member_isGuarded (s.length + 1) false
  have hclosed := union_isClosed (fun u c hu => (hguarded u c hu).toIsClosed) hspelled
  rw [Reading.taken_eq hc]
  refine ⟨hc, Reading.bytes_eq hc, hclosed.returns {} rfl, ?_⟩
  exact (union_spaced_iff hguarded (fun _ _ => member_endsVisibly) (fun _ _ => member_opens)
    hspelled).symm

/-- Bars with blanks in brackets and strings do not count, nor does one that is given back. -/
theorem read?_ambiguous_iff_enclosed : ∃ p q,
    read? "(A | B)|'|\\' | '|C<D | E> | " = some p ∧
    p.taken "(A | B)|'|\\' | '|C<D | E> | " = "(A | B)|'|\\' | '|C<D | E>".toList ∧
    p.ambiguous = false ∧ ¬HasSpacedBar (p.taken "(A | B)|'|\\' | '|C<D | E> | ") ∧
    read? "(A | B)|\tC" = some q ∧ q.ambiguous = true ∧ HasSpacedBar (q.taken "(A | B)|\tC") := by
  have hp : read? "(A | B)|'|\\' | '|C<D | E> | " = some
      ⟨.union [.union [.ofName ['A'], .ofName ['B']] true, .literal "'|\\' | '",
        .named ['C'] [.union [.ofName ['D'], .ofName ['E']] false]] false, " | ", false⟩ := by
    decide +kernel
  have hq : read? "(A | B)|\tC" = some
      ⟨.union [.union [.ofName ['A'], .ofName ['B']] true, .ofName ['C']] false, [], true⟩ := by
    decide +kernel
  obtain ⟨-, -, -, hquiet⟩ := read?_ambiguous_iff _ _ hp
  obtain ⟨-, -, -, hspaced⟩ := read?_ambiguous_iff _ _ hq
  refine ⟨_, _, hp, by decide, rfl, ?_, hq, rfl, hspaced.mp rfl⟩
  intro hbar
  cases hquiet.mpr hbar

end LuaStubs.TypeExpr
