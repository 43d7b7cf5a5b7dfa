import LuaStubs.Command.Path
import Mathlib.Data.Char
import Mathlib.Data.List.Lex
import Mathlib.Data.List.Sort
import Mathlib.Data.Prod.Lex

namespace LuaStubs.Path

theorem cons_le_cons_iff {α : Type} [LinearOrder α] {a b : α} {s t : List α} :
    a :: s ≤ b :: t ↔ a < b ∨ a = b ∧ s ≤ t := by
  have hlt : b :: t < a :: s ↔ b < a ∨ b = a ∧ t < s := List.cons_lt_cons_iff
  rw [← not_lt, hlt, ← not_lt]
  constructor
  · intro h
    rw [not_or, not_and] at h
    obtain hab | hab := lt_or_eq_of_le (not_lt.mp h.1)
    · exact .inl hab
    · exact .inr ⟨hab, h.2 hab.symm⟩
  · rintro (hab | ⟨rfl, hst⟩)
    · rintro (hba | ⟨rfl, -⟩)
      · exact lt_asymm hab hba
      · exact lt_irrefl b hab
    · rintro (haa | ⟨-, hts⟩)
      · exact lt_irrefl a haa
      · exact hst hts

theorem textLe_iff {s t : Text} : textLe s t = true ↔ s ≤ t := by
  induction s generalizing t with
  | nil =>
    have hnil : ([] : Text) ≤ t := not_lt.mp (List.not_lt_nil t)
    simp [textLe, hnil]
  | cons c s ih =>
    cases t with
    | nil =>
      have hnil : ([] : Text) < c :: s := List.nil_lt_cons c s
      simp [textLe, hnil]
    | cons d t => simp [textLe, cons_le_cons_iff, ih]

namespace Part

/-- What parts are compared by: their kind, then their text. -/
def key (p : Part) : ℕ ×ₗ Text := toLex (p.rank, p.text)

theorem key_injective : Function.Injective key := by
  intro p q h
  obtain ⟨hrank, htext⟩ := Prod.mk.inj (toLex.injective h)
  cases p <;> cases q <;> simp_all [rank, text]

instance : LinearOrder Part := LinearOrder.lift' key key_injective

theorem le_iff {p q : Part} : p.le q = true ↔ p ≤ q := by
  have hkey : p ≤ q ↔ p.rank < q.rank ∨ p.rank = q.rank ∧ p.text ≤ q.text := Prod.Lex.le_iff
  simp [le, hkey, textLe_iff]

end Part

theorem partsLe_iff {ps qs : List Part} : partsLe ps qs = true ↔ ps ≤ qs := by
  induction ps generalizing qs with
  | nil =>
    have hnil : ([] : List Part) ≤ qs := not_lt.mp (List.not_lt_nil qs)
    simp [partsLe, hnil]
  | cons p ps ih =>
    cases qs with
    | nil =>
      have hnil : ([] : List Part) < p :: ps := List.nil_lt_cons p ps
      simp [partsLe, hnil]
    | cons q qs =>
      rw [partsLe, cons_le_cons_iff]
      by_cases hpq : p = q
      · simp [hpq, ih]
      · simp [hpq, Part.le_iff, lt_iff_le_and_ne]

theorem le_iff {p q : Text} : le p q = true ↔ parts p ≤ parts q := partsLe_iff

theorem pairwise_mergeSort (ps : List Text) :
    (ps.mergeSort le).Pairwise fun p q => parts p ≤ parts q := by
  have hsorted : (ps.mergeSort le).Pairwise fun p q => le p q = true := by
    apply List.pairwise_mergeSort
    · intro p q r hpq hqr
      rw [le_iff] at hpq hqr ⊢
      exact hpq.trans hqr
    · intro p q
      simpa [le_iff] using le_total (parts p) (parts q)
  exact hsorted.imp le_iff.mp

theorem mem_of_mem_dropRepeatsOf {last p : Text} {ps : List Text} (h : p ∈ dropRepeatsOf last ps) :
    p ∈ ps := by
  induction ps generalizing last with
  | nil => exact h
  | cons q ps ih =>
    rw [dropRepeatsOf] at h
    split at h
    · exact List.mem_cons_of_mem q (ih h)
    · obtain rfl | h := List.mem_cons.mp h
      · exact List.mem_cons_self
      · exact List.mem_cons_of_mem q (ih h)

/-- Of every path a spelling is kept. -/
theorem exists_mem_dropRepeatsOf (last : Text) {p : Text} {ps : List Text} (h : p ∈ ps) :
    ∃ q ∈ last :: dropRepeatsOf last ps, parts q = parts p := by
  induction ps generalizing last with
  | nil => cases h
  | cons r ps ih =>
    rw [dropRepeatsOf]
    obtain rfl | h := List.mem_cons.mp h
    · split
      · next heq => exact ⟨last, by simp, heq.symm⟩
      · exact ⟨p, by simp, rfl⟩
    · split
      · exact ih last h
      · obtain ⟨q, hq, hparts⟩ := ih r h
        exact ⟨q, List.mem_cons_of_mem last hq, hparts⟩

/-- In paths that are in order, no two of those that are kept have the same parts. -/
theorem pairwise_dropRepeatsOf {last : Text} {ps : List Text}
    (h : (last :: ps).Pairwise fun p q => parts p ≤ parts q) :
    (last :: dropRepeatsOf last ps).Pairwise fun p q => parts p < parts q := by
  induction ps generalizing last with
  | nil => simp [dropRepeatsOf]
  | cons r ps ih =>
    obtain ⟨hlast, hrest⟩ := List.pairwise_cons.mp h
    rw [dropRepeatsOf]
    split
    · apply ih
      exact List.Pairwise.sublist (List.Sublist.cons_cons last (List.sublist_cons_self r ps)) h
    · next hne =>
      have hlt : parts last < parts r := lt_of_le_of_ne (hlast r (by simp)) (Ne.symm hne)
      have hkept := ih hrest
      refine List.pairwise_cons.mpr ⟨?_, hkept⟩
      intro q hq
      obtain rfl | hq := List.mem_cons.mp hq
      · exact hlt
      · exact hlt.trans ((List.pairwise_cons.mp hkept).1 q hq)

theorem pairwise_sorted (ps : List Text) :
    (sorted ps).Pairwise fun p q => parts p < parts q := by
  have hsort := pairwise_mergeSort ps
  unfold sorted
  split
  · exact List.Pairwise.nil
  · next p rest hrest =>
    rw [hrest] at hsort
    exact pairwise_dropRepeatsOf hsort

theorem mem_of_mem_sorted {p : Text} {ps : List Text} (h : p ∈ sorted ps) : p ∈ ps := by
  have hmem (q : Text) : q ∈ ps.mergeSort le ↔ q ∈ ps := List.mem_mergeSort
  unfold sorted at h
  split at h
  · cases h
  · next q rest hrest =>
    rw [hrest] at hmem
    apply (hmem p).mp
    obtain rfl | h := List.mem_cons.mp h
    · exact List.mem_cons_self
    · exact List.mem_cons_of_mem q (mem_of_mem_dropRepeatsOf h)

theorem exists_mem_sorted {p : Text} {ps : List Text} (h : p ∈ ps) :
    ∃ q ∈ sorted ps, parts q = parts p := by
  have hmem : p ∈ ps.mergeSort le := List.mem_mergeSort.mpr h
  unfold sorted
  split
  · next hnil =>
    rw [hnil] at hmem
    cases hmem
  · next q rest hrest =>
    rw [hrest] at hmem
    obtain rfl | hmem := List.mem_cons.mp hmem
    · exact ⟨p, by simp, rfl⟩
    · exact exists_mem_dropRepeatsOf q hmem

theorem nodup_sorted (ps : List Text) : (sorted ps).Nodup := by
  apply (pairwise_sorted ps).imp
  rintro p q hlt rfl
  exact lt_irrefl _ hlt

/-- Paths of different parts come in the same order wherever they stood before. -/
theorem sorted_congr {ps qs : List Text} (hsame : ∀ p, p ∈ ps ↔ p ∈ qs)
    (hspelled : ∀ p ∈ ps, ∀ q ∈ ps, parts p = parts q → p = q) : sorted ps = sorted qs := by
  have hmem (rs : List Text) (hrs : ∀ p, p ∈ ps ↔ p ∈ rs) (p : Text) : p ∈ sorted rs ↔ p ∈ ps := by
    constructor
    · intro h
      exact (hrs p).mpr (mem_of_mem_sorted h)
    · intro h
      obtain ⟨q, hq, hparts⟩ := exists_mem_sorted ((hrs p).mp h)
      have hqps := (hrs q).mpr (mem_of_mem_sorted hq)
      rwa [← hspelled q hqps p h hparts]
  have hperm : (sorted ps).Perm (sorted qs) := by
    rw [List.perm_ext_iff_of_nodup (nodup_sorted ps) (nodup_sorted qs)]
    intro p
    rw [hmem ps (fun _ => Iff.rfl), hmem qs hsame]
  apply List.Perm.eq_of_pairwise _ (pairwise_sorted ps) (pairwise_sorted qs) hperm
  intro p q _ _ hpq hqp
  exact absurd hqp (lt_asymm hpq)

theorem dropRepeatsOf_eq_self {last : Text} {ps : List Text}
    (h : (last :: ps).Pairwise fun p q => parts p < parts q) : dropRepeatsOf last ps = ps := by
  induction ps generalizing last with
  | nil => rfl
  | cons p ps ih =>
    obtain ⟨hlast, hrest⟩ := List.pairwise_cons.mp h
    have hne : parts p ≠ parts last := (hlast p List.mem_cons_self).ne'
    rw [dropRepeatsOf, if_neg hne, ih hrest]

/-- Paths that are in order, each once, stay as they are. -/
theorem sorted_eq_self {ps : List Text} (h : ps.Pairwise fun p q => parts p < parts q) :
    sorted ps = ps := by
  have hsort : ps.mergeSort le = ps := by
    apply List.mergeSort_of_pairwise
    exact h.imp fun hlt => le_iff.mpr hlt.le
  rw [sorted, hsort]
  cases ps with
  | nil => rfl
  | cons p ps => exact congrArg (p :: ·) (dropRepeatsOf_eq_self h)

end LuaStubs.Path
