import LuaStubs.Proofs.Text.Parts
import LuaStubs.Proofs.TypeExpr.Tokens

namespace LuaStubs.Lua

/-- Names that a path in Lua can be made of; there is at least one. -/
def IsPath (names : List Text) : Prop := names ≠ [] ∧ ∀ n ∈ names, isIdent n = true

section Ident

theorem isIdent_cons_iff {c : Char} {t : Text} :
    isIdent (c :: t) = true ↔ isIdentStart c = true ∧ ∀ d ∈ t, isIdentChar d = true := by
  by_cases hc : isIdentStart c = true
  · have hrest : t.dropWhile isIdentChar = [] ↔ ∀ d ∈ t, isIdentChar d = true :=
      List.dropWhile_eq_nil_iff
    rw [← hrest]
    cases hd : t.dropWhile isIdentChar <;> simp [isIdent, ident?, hc, hd]
  · simp [isIdent, ident?, hc]

theorem isIdentChar_of_isIdent {n : Text} (h : isIdent n = true) :
    n ≠ [] ∧ ∀ c ∈ n, isIdentChar c = true := by
  cases n with
  | nil => cases h
  | cons c t =>
    obtain ⟨hc, ht⟩ := isIdent_cons_iff.mp h
    refine ⟨by simp, ?_⟩
    intro d hd
    obtain rfl | hd := List.mem_cons.mp hd
    · exact isIdentChar_of_isIdentStart d hc
    · exact ht d hd

theorem not_mem_of_isIdent {n : Text} {c : Char} (h : isIdent n = true)
    (hc : isIdentChar c = false) : c ∉ n := by
  intro hmem
  rw [(isIdentChar_of_isIdent h).2 c hmem] at hc
  cases hc

theorem IsPath.not_dot_mem {names : List Text} (h : IsPath names) : ∀ n ∈ names, '.' ∉ n :=
  fun n hn => not_mem_of_isIdent (h.2 n hn) (by decide)

end Ident

section Dotted

theorem splitOn_cons {c : Char} (hc : c ≠ '.') {t part : Text} {parts : List Text}
    (h : t.splitOn '.' = part :: parts) :
    (c :: t).splitOn '.' = (c :: part) :: parts := by
  rw [List.splitOn_cons_eq_if_modifyHead, if_neg (by simpa using hc), h, List.modifyHead_cons]

/-- The rest of a dotted path goes on with the name at hand, and then with names of its own. -/
theorem splitOn_of_dottedTail {t : Text} (h : (dottedTail t).2 = []) :
    ∃ part parts, t.splitOn '.' = part :: parts ∧ (∀ c ∈ part, isIdentChar c = true) ∧
      ∀ n ∈ parts, isIdent n = true := by
  have hdot {c : Char} (hc : isIdentChar c = true) : c ≠ '.' := by
    rintro rfl
    exact absurd hc (by decide)
  fun_induction dottedTail t with
  | case1 c t hc path rest hp ih =>
    rw [hp] at ih
    obtain ⟨part, parts, hsplit, hpart, hparts⟩ := ih h
    have hne := hdot (isIdentChar_of_isIdentStart c hc)
    refine ⟨[], (c :: part) :: parts, ?_, by simp, ?_⟩
    · rw [List.splitOn_cons_eq_if_modifyHead, if_pos (beq_self_eq_true '.'),
        splitOn_cons hne hsplit]
    · exact List.forall_mem_cons.mpr ⟨isIdent_cons_iff.mpr ⟨hc, hpart⟩, hparts⟩
  | case2 | case4 => cases h
  | case3 c t _ hc path rest hp ih =>
    rw [hp] at ih
    obtain ⟨part, parts, hsplit, hpart, hparts⟩ := ih h
    exact ⟨c :: part, parts, splitOn_cons (hdot hc) hsplit,
      List.forall_mem_cons.mpr ⟨hc, hpart⟩, hparts⟩
  | case5 => exact ⟨[], [], rfl, by simp, by simp⟩

theorem isPath_splitOn {name : Text} (h : isDotted name = true) : IsPath (name.splitOn '.') := by
  refine ⟨List.splitOn_ne_nil '.' name, ?_⟩
  rw [isDotted_iff] at h
  cases name with
  | nil => cases h
  | cons c t =>
    by_cases hc : isIdentStart c = true
    · rw [dotted?, if_pos hc] at h
      have htail : (dottedTail t).2 = [] := (Prod.mk.inj (Option.some.inj h)).2
      obtain ⟨part, parts, hsplit, hpart, hparts⟩ := splitOn_of_dottedTail htail
      have hne : c ≠ '.' := by
        rintro rfl
        exact absurd hc (by decide)
      rw [splitOn_cons hne hsplit]
      exact List.forall_mem_cons.mpr ⟨isIdent_cons_iff.mpr ⟨hc, hpart⟩, hparts⟩
    · rw [dotted?, if_neg hc] at h
      cases h

end Dotted

section Expression

/-- Nothing follows that could lengthen a name. -/
def NameEnds (t : Text) : Prop := ∀ c ∈ t.head?, isIdentChar c = false

theorem append_inj_of_nameEnds {m n r s : Text} (hm : isIdent m = true) (hn : isIdent n = true)
    (hr : NameEnds r) (hs : NameEnds s) (h : m ++ r = n ++ s) : m = n ∧ r = s := by
  obtain ⟨hm, hr⟩ := Text.span_append isIdentChar m r (isIdentChar_of_isIdent hm).2 hr
  obtain ⟨hn, hs⟩ := Text.span_append isIdentChar n s (isIdentChar_of_isIdent hn).2 hs
  rw [h] at hm hr
  exact ⟨hm.symm.trans hn, hr.symm.trans hs⟩

theorem nameKey_keyword (first : Bool) {n : Text} (h : isKeyword n = true) (r : Text) :
    nameKey first n ++ r = '[' :: '\x22' :: (n ++ '\x22' :: ']' :: r) := by
  simp [nameKey, h, bracketed]

theorem nameKey_name (first : Bool) {n : Text} (h : isKeyword n = false) (r : Text) :
    nameKey first n ++ r = (if first then [] else ['.']) ++ (n ++ r) := by
  cases first <;> simp [nameKey, h]

/-- A name in an expression does not begin as a bracket does. -/
theorem nameKey_ne_bracket (first : Bool) {n : Text} (hn : isIdent n = true) (r s : Text) :
    (if first then [] else ['.']) ++ (n ++ r) ≠ '[' :: s := by
  cases first with
  | false => simp
  | true =>
    intro h
    obtain ⟨hne, hchars⟩ := isIdentChar_of_isIdent hn
    obtain ⟨c, t, rfl⟩ := List.exists_cons_of_ne_nil hne
    obtain ⟨rfl, -⟩ := List.cons.inj h
    exact absurd (hchars '[' (by simp)) (by decide)

theorem nameKey_append_inj (first : Bool) {m n r s : Text} (hm : isIdent m = true)
    (hn : isIdent n = true) (hr : NameEnds r) (hs : NameEnds s)
    (h : nameKey first m ++ r = nameKey first n ++ s) : m = n ∧ r = s := by
  have hquote (u : Text) : NameEnds ('\x22' :: u) := by
    intro c hc
    obtain rfl := Option.some.inj hc
    decide
  by_cases hkm : isKeyword m = true
  · rw [nameKey_keyword first hkm] at h
    by_cases hkn : isKeyword n = true
    · rw [nameKey_keyword first hkn] at h
      have hinner := (List.cons.inj (List.cons.inj h).2).2
      obtain ⟨hname, hrest⟩ := append_inj_of_nameEnds hm hn (hquote _) (hquote _) hinner
      exact ⟨hname, (List.cons.inj (List.cons.inj hrest).2).2⟩
    · rw [nameKey_name first (by simpa using hkn)] at h
      exact absurd h.symm (nameKey_ne_bracket first hn s _)
  · rw [nameKey_name first (by simpa using hkm)] at h
    by_cases hkn : isKeyword n = true
    · rw [nameKey_keyword first hkn] at h
      exact absurd h (nameKey_ne_bracket first hm r _)
    · rw [nameKey_name first (by simpa using hkn)] at h
      exact append_inj_of_nameEnds hm hn hr hs (List.append_cancel_left h)

theorem nameKey_ne_nil (first : Bool) {n : Text} (hn : isIdent n = true) :
    nameKey first n ≠ [] := by
  have hne := (isIdentChar_of_isIdent hn).1
  unfold nameKey
  split
  · simp [bracketed]
  · split <;> simp [hne]

/-- The keys of a path one after another; all but the first stand behind another. -/
def keys (first : Bool) : List Text → Text
  | [] => []
  | n :: ns => nameKey first n ++ keys false ns

theorem pathExpr_eq_keys (ns : List Text) : pathExpr ns = keys true ns := by
  have hflatten (ms : List Text) : (ms.map (nameKey false)).flatten = keys false ms := by
    induction ms with
    | nil => rfl
    | cons m ms ih => rw [List.map_cons, List.flatten_cons, ih, keys]
  cases ns with
  | nil => rfl
  | cons n ns => rw [pathExpr, hflatten, keys]

theorem nameEnds_keys (ns : List Text) : NameEnds (keys false ns) := by
  intro c hc
  cases ns with
  | nil => cases hc
  | cons n ns =>
    by_cases hk : isKeyword n = true
    · rw [keys, nameKey_keyword false hk] at hc
      obtain rfl := Option.some.inj hc
      decide
    · rw [keys, nameKey_name false (by simpa using hk)] at hc
      obtain rfl := Option.some.inj hc
      decide

theorem keys_injective {first : Bool} {ms ns : List Text} (hm : ∀ m ∈ ms, isIdent m = true)
    (hn : ∀ n ∈ ns, isIdent n = true) (h : keys first ms = keys first ns) : ms = ns := by
  induction ms generalizing first ns with
  | nil =>
    cases ns with
    | nil => rfl
    | cons n ns =>
      have hnil := List.append_eq_nil_iff.mp h.symm
      exact absurd hnil.1 (nameKey_ne_nil first (hn n (by simp)))
  | cons m ms ih =>
    rw [List.forall_mem_cons] at hm
    cases ns with
    | nil =>
      have hnil := List.append_eq_nil_iff.mp h
      exact absurd hnil.1 (nameKey_ne_nil first hm.1)
    | cons n ns =>
      rw [List.forall_mem_cons] at hn
      obtain ⟨rfl, hrest⟩ :=
        nameKey_append_inj first hm.1 hn.1 (nameEnds_keys ms) (nameEnds_keys ns) h
      rw [ih hm.2 hn.2 hrest]

theorem pathExpr_injective {ms ns : List Text} (hm : ∀ m ∈ ms, isIdent m = true)
    (hn : ∀ n ∈ ns, isIdent n = true) (h : pathExpr ms = pathExpr ns) : ms = ns := by
  rw [pathExpr_eq_keys, pathExpr_eq_keys] at h
  exact keys_injective hm hn h

end Expression

end LuaStubs.Lua
