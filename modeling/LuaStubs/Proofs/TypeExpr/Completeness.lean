import LuaStubs.Proofs.TypeExpr.Soundness

namespace LuaStubs.TypeExpr.Grammar

def isCloser (c : Char) : Bool := c == ',' || c == ')' || c == ']' || c == '>' || c == '\x7d'

/-- The characters that can stand after a type and its marks. -/
def isEnd (c : Char) : Bool := Text.isSpace c || c == '|' || isCloser c

def Stops (t : Text) : Prop := ∀ c ∈ t.head?, isEnd c = true

/-- What can stand after a type without marks. -/
def Follows (t : Text) : Prop := ∀ c ∈ t.head?, isEnd c = true ∨ c = '[' ∨ c = '?'

/-- After space, a comma or a closing bracket follows. -/
def Closes (t : Text) : Prop := ∃ c u, Text.trimStart t = c :: u ∧ isCloser c = true

/-- A text with a first character, of which something is known. -/
def HeadIs (p : Char → Prop) (t : Text) : Prop := ∃ c u, t = c :: u ∧ p c

theorem HeadIs.append {p : Char → Prop} {s : Text} (h : HeadIs p s) (t : Text) :
    HeadIs p (s ++ t) := by
  obtain ⟨c, u, rfl, hc⟩ := h
  exact ⟨c, u ++ t, rfl, hc⟩

theorem HeadIs.imp {p q : Char → Prop} {t : Text} (h : HeadIs p t) (hpq : ∀ c, p c → q c) :
    HeadIs q t := by
  obtain ⟨c, u, rfl, hc⟩ := h
  exact ⟨c, u, rfl, hpq c hc⟩

/-- A text that begins with what cannot stand after a type. -/
def Opens (t : Text) : Prop := HeadIs (isEnd · = false) t

theorem isSpace_of_isGap {nested : Bool} {c : Char} (h : isGap nested c = true) :
    Text.isSpace c = true := by
  cases nested with
  | true => exact h
  | false => exact Text.isSpace_of_isBlank h

theorem isEnd_of_isSpace {c : Char} (h : Text.isSpace c = true) : isEnd c = true := by
  simp [isEnd, h]

theorem isEnd_of_isCloser {c : Char} (h : isCloser c = true) : isEnd c = true := by
  simp [isEnd, h]

theorem isSpace_of_isCloser {c : Char} (h : isCloser c = true) : Text.isSpace c = false := by
  simp only [isCloser, Bool.or_eq_true, beq_iff_eq] at h
  obtain (((rfl | rfl) | rfl) | rfl) | rfl := h <;> decide

/-- No letter, digit or dot stands after a type. -/
theorem isEnd_word {c : Char} (h : isEnd c = true) : Lua.isIdentChar c = false ∧ c ≠ '.' := by
  simp only [isEnd, isCloser, Bool.or_eq_true, beq_iff_eq] at h
  obtain (h | rfl) | (((rfl | rfl) | rfl) | rfl) | rfl := h
  · refine ⟨Lua.isIdentChar_of_isSpace c h, ?_⟩
    rintro rfl
    exact absurd h (by decide)
  all_goals decide

theorem isEnd_of_isIdentChar {c : Char} (h : Lua.isIdentChar c = true) : isEnd c = false := by
  by_contra hc
  rw [(isEnd_word (by simpa using hc)).1] at h
  exact Bool.false_ne_true h

theorem Follows.wordEnds {t : Text} (h : Follows t) : Lua.WordEnds t := by
  intro c hc
  obtain h | rfl | rfl := h c hc
  · exact isEnd_word h
  all_goals decide

theorem Stops.follows {t : Text} (h : Stops t) : Follows t := fun c hc => Or.inl (h c hc)

theorem Stops.unmarked {t : Text} (h : Stops t) : Unmarked t := by
  intro u
  unfold suffixes
  split
  · exact absurd (h '[' rfl) (by decide)
  · exact absurd (h '?' rfl) (by decide)
  · rfl

theorem skipSpace_gap {nested : Bool} {w : Text} (hw : Gap nested w) (t : Text) :
    skipSpace nested (w ++ t) = skipSpace nested t := by
  rw [skipSpace_eq, skipSpace_eq, List.dropWhile_append_of_pos hw]

theorem not_isGap {c : Char} (hc : Text.isSpace c = false) (nested : Bool) :
    isGap nested c = false := by
  by_contra h
  rw [isSpace_of_isGap (by simpa using h)] at hc
  exact Bool.false_ne_true hc.symm

theorem skipSpace_cons {c : Char} (hc : Text.isSpace c = false) (nested : Bool) (t : Text) :
    skipSpace nested (c :: t) = c :: t := by
  rw [skipSpace_eq, List.dropWhile_cons_of_neg (by simp [not_isGap hc nested])]

/-- Space shows in front of a text if any was put there. -/
theorem startsSpaced_gap {nested : Bool} {w : Text} (hw : Gap nested w) {c : Char}
    (hc : Text.isSpace c = false) (t : Text) :
    startsSpaced nested (w ++ c :: t) = !w.isEmpty := by
  cases w with
  | nil => exact not_isGap hc nested
  | cons d w => exact hw d (by simp)

theorem Opens.exists_cons {c : Text} (hc : Opens c) :
    ∃ a u, c = a :: u ∧ Text.isSpace a = false := by
  obtain ⟨a, u, rfl, ha⟩ := hc
  refine ⟨a, u, rfl, ?_⟩
  by_contra h
  rw [isEnd_of_isSpace (by simpa using h)] at ha
  exact Bool.false_ne_true ha.symm

theorem skipSpace_opens {c : Text} (hc : Opens c) (nested : Bool) (t : Text) :
    skipSpace nested (c ++ t) = c ++ t := by
  obtain ⟨a, u, rfl, ha⟩ := hc.exists_cons
  exact skipSpace_cons ha nested (u ++ t)

theorem trimStart_gap {w : Text} (hw : Gap true w) (t : Text) :
    Text.trimStart (w ++ t) = Text.trimStart t := skipSpace_gap hw t

theorem trimStart_cons {c : Char} (hc : Text.isSpace c = false) (t : Text) :
    Text.trimStart (c :: t) = c :: t := skipSpace_cons hc true t

theorem trimStart_opens {c : Text} (hc : Opens c) (t : Text) : Text.trimStart (c ++ t) = c ++ t :=
  skipSpace_opens hc true t

theorem closes_gap {w : Text} (hw : Gap true w) {c : Char} (hc : isCloser c = true) (t : Text) :
    Closes (w ++ c :: t) := by
  refine ⟨c, t, ?_, hc⟩
  rw [trimStart_gap hw, trimStart_cons (isSpace_of_isCloser hc)]

theorem stops_gap {nested : Bool} {w : Text} (hw : Gap nested w) {t : Text} (ht : Stops t) :
    Stops (w ++ t) :=
  head?_append_imp
    (fun c hc => isEnd_of_isSpace (isSpace_of_isGap (hw c (List.mem_of_mem_head? hc)))) ht

theorem Closes.stops {t : Text} (h : Closes t) : Stops t := by
  obtain ⟨c, u, hu, hc⟩ := h
  obtain ⟨w, hw, gw⟩ := exists_gap_trimStart t
  rw [hw, hu]
  refine stops_gap gw ?_
  rintro d ⟨⟩
  exact isEnd_of_isCloser hc

@[simp] theorem expect_self (c : Char) (t : Text) : expect c (c :: t) = some t := by
  simp [expect]

theorem expect_eq_none {c : Char} {t : Text} (h : ∀ d ∈ t.head?, c ≠ d) : expect c t = none := by
  cases t with
  | nil => rfl
  | cons d t => simp [expect, h d rfl]

/-- A reader that takes every short spelling of a member in front of what can follow one. -/
def ReadsMember (f : Reader TypeExpr) (spells : TypeExpr → Text → Prop) (bound : Nat) : Prop :=
  ∀ u c rest, spells u c → c.length < bound → Stops rest → f (c ++ rest) = some (u, rest)

/-- A reader that takes every short spelling of an item, and maybe the space after it. -/
def ReadsItem {α : Type} (f : Reader α) (spells : α → Text → Prop) (bound : Nat) : Prop :=
  ∀ x c rest, spells x c → c.length < bound → Closes rest →
    ∃ rest', f (c ++ rest) = some (x, rest') ∧ Text.trimStart rest' = Text.trimStart rest

section Lists
variable {α : Type} {item : Reader α} {spells : α → Text → Prop} {close : Char}

theorem items_head {p : Char → Prop} (ho : ∀ x c, spells x c → HeadIs p c) {xs : List α}
    {cs : Text} (h : Items spells close xs cs) : HeadIs p cs := by
  cases h with
  | last hc => exact (ho _ _ hc).append _
  | more hc => exact (ho _ _ hc).append _

theorem items_complete {n : Nat} (hi : ReadsItem item spells n) (ho : ∀ x c, spells x c → Opens c)
    (hclose : isCloser close = true) (hcomma : close ≠ ',') {xs : List α} {cs : Text}
    (h : Items spells close xs cs) (hn : cs.length ≤ n) {bound : Nat} (hb : cs.length ≤ bound)
    (rest : Text) : items item close bound (cs ++ rest) = some (xs, rest) := by
  induction h generalizing bound with
  | @last x c w hc hw =>
    cases bound with
    | zero => simp at hb
    | succ bound =>
      have hlen : c.length < n := by
        simp only [List.length_append, List.length_cons] at hn
        omega
      obtain ⟨rest', hr, ht⟩ := hi x c (w ++ close :: rest) hc hlen (closes_gap hw hclose rest)
      rw [trimStart_gap hw, trimStart_cons (isSpace_of_isCloser hclose)] at ht
      simp [items, hr, ht]
  | @more x xs c w v cs hc hw hv hcs ih =>
    cases bound with
    | zero =>
      simp only [List.length_append, List.length_cons] at hb
      omega
    | succ bound =>
      simp only [List.length_append, List.length_cons] at hn hb
      have hcomma : isCloser ',' = true := by decide
      obtain ⟨rest', hr, ht⟩ := hi x c (w ++ ',' :: (v ++ (cs ++ rest))) hc (by omega)
        (closes_gap hw hcomma _)
      rw [trimStart_gap hw, trimStart_cons (isSpace_of_isCloser hcomma)] at ht
      have hxs := ih (by omega) (show cs.length ≤ bound by omega)
      rw [← trimStart_opens (items_head ho hcs) rest, ← trimStart_gap hv] at hxs
      simp only [List.append_assoc, List.cons_append, items, hr, Option.bind_eq_bind,
        Option.bind_some, ht, hxs]

theorem bracketed_complete {n : Nat} (hi : ReadsItem item spells n)
    (ho : ∀ x c, spells x c → Opens c) (hclose : isCloser close = true) (hcomma : close ≠ ',')
    {xs : List α} {cs : Text} (h : Bracketed spells close xs cs) (hn : cs.length ≤ n)
    (rest : Text) : bracketed item close n (cs ++ rest) = some (xs, rest) := by
  unfold bracketed
  cases h with
  | @empty w hw =>
    rw [List.append_assoc, trimStart_gap hw]
    simp [trimStart_cons (isSpace_of_isCloser hclose)]
  | @filled xs w cs hw hcs =>
    have hopen := items_head ho hcs
    rw [List.append_assoc, trimStart_gap hw, trimStart_opens hopen]
    obtain ⟨a, u, rfl, ha⟩ := hopen
    have hne : expect close (a :: u ++ rest) = none := by
      apply expect_eq_none
      rintro d ⟨⟩ rfl
      rw [isEnd_of_isCloser hclose] at ha
      exact Bool.false_ne_true ha.symm
    rw [hne]
    simp only [List.length_append] at hn
    exact items_complete hi ho hclose hcomma hcs (by omega) (by omega) rest

end Lists

section Unions
variable {member : Reader TypeExpr} {spells : TypeExpr → Text → Prop} {nested : Bool} {n : Nat}

/-- No further member of a union follows. -/
def NoBar (member : Reader TypeExpr) (nested : Bool) (t : Text) : Prop :=
  ∀ u, expect '|' (skipSpace nested t) = some u → member (skipSpace nested u) = none

theorem alternatives_noBar {t : Text} (h : NoBar member nested t) (bound : Nat) :
    alternatives member nested bound t = ([], false, t) := by
  cases bound with
  | zero => rfl
  | succ bound =>
    unfold alternatives
    split
    · rfl
    · next u hu => rw [h u hu]

theorem Closes.noBar {t : Text} (h : Closes t) : NoBar member true t := by
  obtain ⟨c, u, hu, hc⟩ := h
  intro v hv
  rw [show skipSpace true t = c :: u from hu] at hv
  obtain ⟨rfl, -⟩ := List.cons.inj (expect_eq_some hv)
  exact absurd hc (by decide)

theorem alternatives_stops {ms : List TypeExpr} {spaced : Bool} {cs rest : Text}
    (h : Alternatives spells nested ms spaced cs) (hr : Stops rest) : Stops (cs ++ rest) := by
  cases h with
  | none => exact hr
  | more hw =>
    rw [List.append_assoc]
    refine stops_gap hw ?_
    rintro d ⟨⟩
    decide

theorem alternatives_complete (hm : ReadsMember member spells n)
    (ho : ∀ u c, spells u c → Opens c) {ms : List TypeExpr} {spaced : Bool} {cs : Text}
    (h : Alternatives spells nested ms spaced cs) (hn : cs.length ≤ n) {bound : Nat}
    (hb : cs.length ≤ bound) {rest : Text} (hr : Stops rest) (hbar : NoBar member nested rest) :
    alternatives member nested bound (cs ++ rest) = (ms, spaced, rest) := by
  induction h generalizing bound with
  | none => exact alternatives_noBar hbar bound
  | @more m ms spaced w v c cs hw hv hc hcs ih =>
    simp only [List.length_append, List.length_cons] at hn hb
    cases bound with
    | zero => omega
    | succ bound =>
      have hspace : Text.isSpace '|' = false := by decide
      have hread := hm m c (cs ++ rest) hc (by omega) (alternatives_stops hcs hr)
      have hmore := ih (by omega) (show cs.length ≤ bound by omega)
      obtain ⟨a, u, rfl, ha⟩ := (ho m c hc).exists_cons
      simp only [List.append_assoc, List.cons_append] at hread ⊢
      simp [alternatives, skipSpace_gap hw, skipSpace_gap hv, skipSpace_cons hspace,
        skipSpace_cons ha, startsSpaced_gap hw hspace, startsSpaced_gap hv ha, hread, hmore]

theorem unionOf_complete (hm : ReadsMember member spells n) (ho : ∀ u c, spells u c → Opens c)
    {u : TypeExpr} {spaced : Bool} {c : Text} (h : Union spells nested u spaced c)
    (hn : c.length < n) {bound : Nat} (hb : c.length ≤ bound) {rest : Text} (hr : Stops rest)
    (hbar : NoBar member nested rest) :
    unionOf member nested bound (c ++ rest) = some ((u, spaced), rest) := by
  cases h with
  | single hc => simp [unionOf, hm _ _ _ hc hn hr, alternatives_noBar hbar]
  | @several m k ms spaced c cs hc hcs =>
    simp only [List.length_append] at hn hb
    have hread := hm m c (cs ++ rest) hc (by omega) (alternatives_stops hcs hr)
    have hcs' : cs.length ≤ bound := by omega
    have hmore := alternatives_complete hm ho hcs (by omega) hcs' hr hbar
    simp [unionOf, hread, hmore]

theorem union_opens (ho : ∀ u c, spells u c → Opens c) {u : TypeExpr} {spaced : Bool} {c : Text}
    (h : Union spells nested u spaced c) : Opens c := by
  cases h with
  | single hc => exact ho _ _ hc
  | several hc => exact (ho _ _ hc).append _

end Unions

theorem wordEnds_gap {w : Text} (hw : Gap true w) {t : Text} (ht : Lua.WordEnds t) :
    Lua.WordEnds (w ++ t) :=
  head?_append_imp
    (fun c hc => isEnd_word (isEnd_of_isSpace (hw c (List.mem_of_mem_head? hc)))) ht

theorem wordEnds_cons {c : Char} (hc : Lua.isIdentChar c = false ∧ c ≠ '.') (t : Text) :
    Lua.WordEnds (c :: t) := by
  rintro d ⟨⟩
  exact hc

theorem slotName_head {t name rest : Text} (h : slotName t = some (name, rest)) :
    HeadIs (fun c => c = '.' ∨ Lua.isIdentStart c = true) name := by
  unfold slotName at h
  split at h
  · obtain ⟨rfl, -⟩ := Prod.mk.inj (Option.some.inj h)
    exact ⟨'.', _, rfl, Or.inl rfl⟩
  · cases t with
    | nil => cases h
    | cons c t =>
      by_cases hc : Lua.isIdentStart c = true
      · simp only [Lua.ident?, hc, if_true, Option.some.injEq, Prod.mk.injEq] at h
        obtain ⟨rfl, -⟩ := h
        exact ⟨c, _, rfl, Or.inr hc⟩
      · simp [Lua.ident?, hc] at h

theorem isEnd_of_isIdentStart {c : Char} (h : Lua.isIdentStart c = true) : isEnd c = false :=
  isEnd_of_isIdentChar (Lua.isIdentChar_of_isIdentStart c h)

theorem slotName_opens {t name rest : Text} (h : slotName t = some (name, rest)) : Opens name := by
  refine (slotName_head h).imp ?_
  rintro c (rfl | hc)
  · decide
  · exact isEnd_of_isIdentStart hc

section Parts
variable {type : Reader TypeExpr} {spells : TypeExpr → Text → Prop} {n : Nat}

theorem tableField_opens {f : Text × TypeExpr} {c : Text} (h : TableField spells f c) :
    Opens c := by
  cases h with
  | mk hname => exact (slotName_opens hname).append _

theorem parameter_opens {p : Text × Option TypeExpr} {c : Text} (h : Parameter spells p c) :
    Opens c := by
  cases h with
  | bare hname => exact (slotName_opens hname).append _
  | typed hname => exact (slotName_opens hname).append _

theorem tableField_complete (ht : ReadsItem type spells n) (ho : ∀ u c, spells u c → Opens c) :
    ReadsItem (tableField type) (TableField spells) n := by
  intro f c rest hf hn hr
  cases hf with
  | @mk name w v c u hname hw hv hc =>
    simp only [List.length_append, List.length_cons] at hn
    obtain ⟨rest', hread, htrim⟩ := ht u c rest hc (by omega) hr
    refine ⟨rest', ?_, htrim⟩
    have hslot := (slotName_rereads _ _ _ hname).2 (w ++ ':' :: (v ++ (c ++ rest)))
      (wordEnds_gap hw (wordEnds_cons (by decide) _))
    simp [tableField, hslot, trimStart_gap hw, trimStart_cons (c := ':') (by decide),
      trimStart_gap hv, trimStart_opens (ho u c hc), hread]

theorem param_complete (ht : ReadsItem type spells n) (ho : ∀ u c, spells u c → Opens c) :
    ReadsItem (param type) (Parameter spells) n := by
  intro p c rest hp hn hr
  cases hp with
  | @bare name w hname hw =>
    obtain ⟨d, u, hu, hd⟩ := hr
    have hslot := (slotName_rereads _ _ _ hname).2 (w ++ rest)
      (wordEnds_gap hw (Closes.stops ⟨d, u, hu, hd⟩).follows.wordEnds)
    have hcolon : expect ':' (d :: u) = none := by
      apply expect_eq_none
      rintro e ⟨⟩ rfl
      exact absurd hd (by decide)
    refine ⟨d :: u, ?_, ?_⟩
    · simp [param, hslot, trimStart_gap hw, hu, hcolon]
    · rw [hu, trimStart_cons (isSpace_of_isCloser hd)]
  | @typed name w v c u hname hw hv hc =>
    simp only [List.length_append, List.length_cons] at hn
    obtain ⟨rest', hread, htrim⟩ := ht u c rest hc (by omega) hr
    refine ⟨rest', ?_, htrim⟩
    have hslot := (slotName_rereads _ _ _ hname).2 (w ++ ':' :: (v ++ (c ++ rest)))
      (wordEnds_gap hw (wordEnds_cons (by decide) _))
    simp [param, hslot, trimStart_gap hw, trimStart_cons (c := ':') (by decide),
      trimStart_gap hv, trimStart_opens (ho u c hc), hread]

end Parts

section Nesting
variable {member : Bool → Reader TypeExpr} {spells : Bool → TypeExpr → Text → Prop}
  {nested : Bool} {n : Nat}

theorem inner_opens (ho : ∀ b u c, spells b u c → Opens c) {u : TypeExpr} {c : Text}
    (h : Inner spells u c) : Opens c := by
  obtain ⟨spaced, hc⟩ := h
  exact union_opens (ho true) hc

theorem inner_complete (hm : ∀ b, ReadsMember (member b) (spells b) n)
    (ho : ∀ b u c, spells b u c → Opens c) {u : TypeExpr} {c rest : Text}
    (h : Inner spells u c) (hn : c.length < n) (hr : Closes rest) :
    inner member n (c ++ rest) = some (u, rest) := by
  obtain ⟨spaced, hc⟩ := h
  have hu := unionOf_complete (hm true) (ho true) hc hn hn.le hr.stops hr.noBar
  simp [inner, hu]

theorem inner_readsItem (hm : ∀ b, ReadsMember (member b) (spells b) n)
    (ho : ∀ b u c, spells b u c → Opens c) : ReadsItem (inner member n) (Inner spells) n :=
  fun _ _ rest hc hn hr => ⟨rest, inner_complete hm ho hc hn hr, rfl⟩

theorem returnType_complete (hm : ReadsMember (member nested) (spells nested) n)
    (ho : ∀ b u c, spells b u c → Opens c) {r : Option TypeExpr} {c rest : Text}
    (h : Returned (spells nested) nested r c) (hn : c.length ≤ n)
    (hc : ∀ d ∈ rest.head?, ':' ≠ d) (hr : r.isSome → Stops rest) :
    returnType (member nested) nested (c ++ rest) = (r, rest) := by
  cases h with
  | none => simp [returnType, expect_eq_none hc]
  | @some v c u hv hu =>
    simp only [List.length_append, List.length_cons] at hn
    have hread := hm u c rest hu (by omega) (hr rfl)
    simp [returnType, skipSpace_gap hv, skipSpace_opens (ho _ _ _ hu), hread]

theorem unsigned_head {t m rest : Text} (h : unsigned t = some (m, rest)) :
    ∃ d u, t = d :: u ∧ d.isDigit = true := by
  cases t with
  | nil => cases h
  | cons d u =>
    refine ⟨d, u, rfl, ?_⟩
    by_contra hd
    have hz : d ≠ '0' := by
      rintro rfl
      exact hd (by decide)
    simp [unsigned, hexadecimal, decimal, digits, hd, hz] at h

theorem number_head {t m rest : Text} (h : number t = some (m, rest)) :
    ∃ d u, t = d :: u ∧ (d = '-' ∨ d.isDigit = true) := by
  unfold number at h
  split at h
  · exact ⟨'-', _, rfl, Or.inl rfl⟩
  · obtain ⟨d, u, rfl, hd⟩ := unsigned_head h
    exact ⟨d, u, rfl, Or.inr hd⟩

theorem isDotted_head {name : Text} (h : Lua.isDotted name = true) :
    ∃ d u, name = d :: u ∧ Lua.isIdentStart d = true := by
  rw [Lua.isDotted_iff] at h
  cases name with
  | nil => cases h
  | cons d u =>
    refine ⟨d, u, rfl, ?_⟩
    by_contra hd
    simp [Lua.dotted?, hd] at h

/-- The characters by which a bracketed or quoted type is told from a word. -/
def isOpener (c : Char) : Bool :=
  c == '(' || c == '[' || c == '\x7b' || c == '\x22' || c == '\x27'

theorem isOpener_of_isIdentChar {c : Char} (h : Lua.isIdentChar c = true) : isOpener c = false := by
  by_contra hc
  simp only [isOpener, Bool.not_eq_false, Bool.or_eq_true, beq_iff_eq] at hc
  obtain (((rfl | rfl) | rfl) | rfl) | rfl := hc <;> exact absurd h (by decide)

theorem primary_word {c : Char} (hc : isOpener c = false) (t : Text) :
    primary member nested n (c :: t) =
      if c = '-' || c.isDigit then (number (c :: t)).map fun (m, rest) => (.literal m, rest)
      else (Lua.dotted? (c :: t)).bind fun (name, rest) => namedTail member nested n name rest := by
  simp only [isOpener, Bool.or_eq_false_iff, beq_eq_false_iff_ne] at hc
  unfold primary
  split <;> simp_all

theorem primary_number {m rest : Text} (h : number m = some (m, [])) (hr : Lua.WordEnds rest) :
    primary member nested n (m ++ rest) = some (.literal m, rest) := by
  have hread := (number_rereads _ _ _ h).2 rest hr
  obtain ⟨d, u, rfl, hd⟩ := number_head h
  have ho : isOpener d = false := by
    obtain rfl | hd := hd
    · decide
    · exact isOpener_of_isIdentChar (Lua.isIdentChar_of_isDigit d hd)
  have hif : (decide (d = '-') || d.isDigit) = true := by simpa using hd
  rw [List.cons_append] at hread ⊢
  rw [primary_word ho, if_pos hif, hread]
  rfl

theorem primary_named {name rest : Text} (h : Lua.isDotted name = true) (hr : Lua.WordEnds rest) :
    primary member nested n (name ++ rest) = namedTail member nested n name rest := by
  have hread := (Lua.dotted?_rereads _ _ _ ((Lua.isDotted_iff name).mp h)).2 rest hr
  obtain ⟨d, u, rfl, hd⟩ := isDotted_head h
  have ho := isOpener_of_isIdentChar (Lua.isIdentChar_of_isIdentStart d hd)
  have hif : ¬(decide (d = '-') || d.isDigit) = true := by
    have hm : d ≠ '-' := by
      rintro rfl
      exact absurd hd (by decide)
    simp [hm, Lua.not_isDigit_of_isIdentStart d hd]
  rw [List.cons_append] at hread ⊢
  rw [primary_word ho, if_neg hif, hread]
  rfl

theorem IsConstant.isDotted {name : Text} (h : IsConstant name) : Lua.isDotted name = true := by
  obtain rfl | rfl | rfl := h <;> decide

theorem namedTail_constant {name : Text} (h : IsConstant name) (t : Text) :
    namedTail member nested n name t = some (.literal name, t) := if_pos h

theorem namedTail_generic {name : Text} (h : ¬IsConstant name) (t : Text) :
    namedTail member nested n name ('<' :: t) =
      (bracketed (inner member n) '>' n t).map fun (ts, rest) => (.named name ts, rest) := if_neg h

theorem namedTail_function (t : Text) :
    namedTail member nested n "fun" ('(' :: t) =
      (bracketed (param (inner member n)) ')' n t).bind fun (ps, rest) =>
        some (.function ps (returnType (member nested) nested rest).1,
          (returnType (member nested) nested rest).2) := rfl

theorem namedTail_plain {name rest : Text} (hconst : ¬IsConstant name) (hr : Follows rest) :
    namedTail member nested n name rest = some (.named name [], rest) := by
  unfold namedTail
  rw [if_neg (show ¬(name = "true" ∨ name = "false" ∨ name = "nil") from hconst)]
  split
  · obtain h | h | h := hr '(' rfl <;> exact absurd h (by decide)
  · obtain h | h | h := hr '<' rfl <;> exact absurd h (by decide)
  · rfl

theorem braced_table (hm : ∀ b, ReadsMember (member b) (spells b) n)
    (ho : ∀ b u c, spells b u c → Opens c) {fs : List (Text × TypeExpr)} {c : Text}
    (h : Bracketed (TableField (Inner spells)) '\x7d' fs c) (hn : c.length ≤ n) (rest : Text) :
    braced (inner member n) n (c ++ rest) = some (.table fs, rest) := by
  have hread := bracketed_complete (tableField_complete (inner_readsItem hm ho)
    (fun _ _ hi => inner_opens ho hi)) (fun _ _ hf => tableField_opens hf)
    (by decide) (by decide) h hn rest
  have hkey : expect '[' (Text.trimStart (c ++ rest)) = none := by
    cases h with
    | @empty w hw =>
      rw [List.append_assoc, trimStart_gap hw]
      rfl
    | @filled fs w cs hw hcs =>
      have hhead : HeadIs (fun c => c = '.' ∨ Lua.isIdentStart c = true) cs := by
        refine items_head (fun f d hf => ?_) hcs
        cases hf with
        | mk hname => exact (slotName_head hname).append _
      rw [List.append_assoc, trimStart_gap hw, trimStart_opens (items_head (fun _ _ hf =>
        tableField_opens hf) hcs)]
      obtain ⟨a, u, rfl, ha⟩ := hhead
      apply expect_eq_none
      rintro d ⟨⟩ rfl
      exact absurd ha (by decide)
  simp [braced, hkey, hread]

theorem braced_dictionary (hm : ∀ b, ReadsMember (member b) (spells b) n)
    (ho : ∀ b u c, spells b u c → Opens c) {k v : TypeExpr} {w₁ w₂ w₃ w₄ w₅ w₆ c d : Text}
    (g₁ : Gap true w₁) (g₂ : Gap true w₂) (hk : Inner spells k c) (g₃ : Gap true w₃)
    (g₄ : Gap true w₄) (g₅ : Gap true w₅) (hv : Inner spells v d) (g₆ : Gap true w₆)
    (hc : c.length < n) (hd : d.length < n) (rest : Text) :
    braced (inner member n) n (w₁ ++ '[' :: (w₂ ++ (c ++ (w₃ ++ ']' :: (w₄ ++ ':' ::
      (w₅ ++ (d ++ (w₆ ++ '\x7d' :: rest))))))))  = some (.dictionary k v, rest) := by
  have hkey := inner_complete hm ho hk hc (closes_gap g₃ (c := ']') (by decide)
    (w₄ ++ ':' :: (w₅ ++ (d ++ (w₆ ++ '\x7d' :: rest)))))
  have hval := inner_complete hm ho hv hd (closes_gap g₆ (c := '\x7d') (by decide) rest)
  simp [braced, dictionaryTail, trimStart_gap, g₁, g₂, g₃, g₄, g₅, g₆,
    trimStart_cons (c := '[') (by decide), trimStart_cons (c := ']') (by decide),
    trimStart_cons (c := ':') (by decide), trimStart_cons (c := '\x7d') (by decide),
    trimStart_opens (inner_opens ho hk), trimStart_opens (inner_opens ho hv), hkey, hval]

theorem primary_complete (hm : ∀ b, ReadsMember (member b) (spells b) n)
    (ho : ∀ b u c, spells b u c → Opens c) {u : TypeExpr} {c rest : Text}
    (h : Primary spells nested u c) (hn : c.length ≤ n) (hr : Follows rest)
    (hopen : IsOpen u → Stops rest) : primary member nested n (c ++ rest) = some (u, rest) := by
  have hi := inner_readsItem hm ho
  have hio (u : TypeExpr) (c : Text) (hc : Inner spells u c) : Opens c := inner_opens ho hc
  cases h with
  | @parens u w c v hw hc hv =>
    simp only [List.length_append, List.length_cons] at hn
    have hread := inner_complete hm ho hc (by omega) (closes_gap hv (c := ')') (by decide) rest)
    simp [primary, trimStart_gap hw, trimStart_opens (hio _ _ hc), hread, trimStart_gap hv,
      trimStart_cons (c := ')') (by decide)]
  | @tuple ts c hc =>
    simp only [List.length_cons] at hn
    simp [primary, bracketed_complete hi hio (by decide) (by decide) hc (by omega) rest]
  | dictionary g₁ g₂ hk g₃ g₄ g₅ hv g₆ =>
    simp only [List.length_append, List.length_cons] at hn
    have hread := braced_dictionary hm ho g₁ g₂ hk g₃ g₄ g₅ hv g₆ (by omega) (by omega) rest
    simp only [List.append_assoc, List.cons_append, List.nil_append]
    exact hread
  | @table fs c hc =>
    simp only [List.length_cons] at hn
    exact braced_table hm ho hc (by omega) rest
  | @quoted q s hq hs =>
    obtain rfl | rfl := hq
    · have hread := (quotedTail_rereads '\x22' (by decide) hs).2 rest
      simp [primary, hread]
    · have hread := (quotedTail_rereads '\x27' (by decide) hs).2 rest
      simp [primary, hread]
  | number hnum => exact primary_number hnum hr.wordEnds
  | @constant name hconst =>
    rw [primary_named hconst.isDotted hr.wordEnds, namedTail_constant hconst]
  | name hname hconst =>
    rw [primary_named hname hr.wordEnds]
    exact namedTail_plain hconst hr
  | @generic name c ts hname hconst hc =>
    simp only [List.length_append, List.length_cons] at hn
    have hread := bracketed_complete hi hio (by decide) (by decide) hc (by omega) rest
    rw [List.append_assoc, List.cons_append, primary_named hname (wordEnds_cons (by decide) _),
      namedTail_generic hconst, hread]
    rfl
  | @function ps r c v hc hv =>
    simp only [List.length_append] at hn
    have hfun : Lua.isDotted ("fun" : String).toList = true := by decide
    have hps := bracketed_complete (param_complete hi hio) (fun _ _ hp => parameter_opens hp)
      (by decide) (by decide) hc (by omega) (v ++ rest)
    have hcolon : ∀ d ∈ rest.head?, ':' ≠ d := by
      rintro d hd rfl
      obtain h | h | h := hr ':' hd <;> exact absurd h (by decide)
    have hret := returnType_complete (hm nested) ho hv (by omega) hcolon (by
      intro hs
      apply hopen
      cases r with
      | none => cases hs
      | some u => trivial)
    change primary member nested n ("fun" ++ '(' :: (c ++ v ++ rest)) = _
    rw [primary_named hfun (wordEnds_cons (by decide) _), namedTail_function, List.append_assoc,
      hps]
    simp [hret]

end Nesting

theorem primary_opens {spells : Bool → TypeExpr → Text → Prop} {nested : Bool} {u : TypeExpr}
    {c : Text} (h : Primary spells nested u c) : Opens c := by
  have word {name : Text} (hname : Lua.isDotted name = true) : Opens name := by
    obtain ⟨d, t, rfl, hd⟩ := isDotted_head hname
    exact ⟨d, t, rfl, isEnd_of_isIdentStart hd⟩
  cases h with
  | parens => exact ⟨'(', _, rfl, by decide⟩
  | tuple => exact ⟨'[', _, rfl, by decide⟩
  | dictionary => exact ⟨'\x7b', _, rfl, by decide⟩
  | table => exact ⟨'\x7b', _, rfl, by decide⟩
  | quoted hq => obtain rfl | rfl := hq <;> exact ⟨_, _, rfl, by decide⟩
  | number hnum =>
    obtain ⟨d, t, rfl, hd⟩ := number_head hnum
    refine ⟨d, t, rfl, ?_⟩
    obtain rfl | hd := hd
    · decide
    · exact isEnd_of_isIdentChar (Lua.isIdentChar_of_isDigit d hd)
  | constant hconst => exact word hconst.isDotted
  | name hname => exact word hname
  | generic hname => exact (word hname).append _
  | function => exact ⟨'f', _, rfl, by decide⟩

theorem suffixes_complete {u v : TypeExpr} {m rest : Text} (h : Marks u v m)
    (hr : Unmarked rest) : suffixes u (m ++ rest) = (v, rest) := by
  induction h with
  | none => exact hr _
  | array _ ih => simpa [suffixes] using ih
  | optional _ ih => simpa [suffixes] using ih

theorem marks_follows {u v : TypeExpr} {m rest : Text} (h : Marks u v m) (hr : Stops rest) :
    Follows (m ++ rest) := by
  cases h with
  | none => exact hr.follows
  | array =>
    rintro c ⟨⟩
    exact Or.inr (Or.inl rfl)
  | optional =>
    rintro c ⟨⟩
    exact Or.inr (Or.inr rfl)

theorem member_opens {depth : Nat} {nested : Bool} {u : TypeExpr} {c : Text}
    (h : Member depth nested u c) : Opens c := by
  cases depth with
  | zero => exact h.elim
  | succ depth =>
    obtain ⟨v, p, m, hp, -, -, rfl⟩ := h
    exact (primary_opens hp).append m

/-- Every spelling of a member that is shorter than the bound is read as that member. -/
theorem member_complete (bound depth : Nat) (nested : Bool) :
    ReadsMember (member bound nested) (Member depth nested) bound := by
  induction bound generalizing depth nested with
  | zero =>
    intro u c rest _ hn
    omega
  | succ bound ih =>
    intro u c rest h hn hr
    cases depth with
    | zero => exact h.elim
    | succ depth =>
      obtain ⟨v, p, m, hp, hm, hopen, rfl⟩ := h
      rw [List.length_append] at hn
      -- a type inside the member is shorter than it, so a bound of one less covers it
      have hread := primary_complete (ih depth) (fun _ _ _ => member_opens) hp (by omega)
        (marks_follows hm hr) (by
          intro ho
          rw [hopen ho]
          exact hr)
      rw [List.append_assoc, member, hread]
      simp [suffixes_complete hm hr.unmarked]

end LuaStubs.TypeExpr.Grammar
