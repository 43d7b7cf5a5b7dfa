import LuaStubs.Proofs.TypeExpr.Completeness

namespace LuaStubs.TypeExpr

open Text (trimEnd trimStart isSpace isWhite trimStart_trimEnd)

/-- A reading with the text after it trimmed. -/
def trimRest {α : Type} (r : α × Text) : α × Text := (r.1, trimEnd r.2)

theorem skipSpace_trimEnd (nested : Bool) (t : Text) :
    skipSpace nested (trimEnd t) = trimEnd (skipSpace nested t) := by
  rw [Grammar.skipSpace_eq, Grammar.skipSpace_eq, Text.dropWhile_trimEnd]

theorem expect_trimEnd (c : Char) (hc : isSpace c = false) (t : Text) :
    expect c (trimEnd t) = (expect c t).map trimEnd := by
  cases t with
  | nil => rfl
  | cons d t =>
    obtain h | ⟨hd, -, h⟩ := Text.trimEnd_cons_cases d t
    · rw [h]
      by_cases hcd : c = d <;> simp [expect, hcd]
    · have hcd : c ≠ d := by
        intro hcd
        rw [hcd, hd] at hc
        exact Bool.false_ne_true hc.symm
      simp [h, expect, hcd]

theorem not_isSpace_of_isIdentChar (c : Char) (h : Lua.isIdentChar c = true) :
    isSpace c = false := by
  by_contra hc
  rw [Lua.isIdentChar_of_isSpace c (by simpa using hc)] at h
  exact Bool.false_ne_true h

theorem not_isSpace_of_isIdentStart (c : Char) (h : Lua.isIdentStart c = true) :
    isSpace c = false :=
  not_isSpace_of_isIdentChar c (Lua.isIdentChar_of_isIdentStart c h)

theorem dottedTail_trimEnd (t : Text) :
    Lua.dottedTail (trimEnd t) = trimRest (Lua.dottedTail t) := by
  fun_induction Lua.dottedTail t with
  | case1 c t hc path rest hp ih =>
    rw [hp] at ih
    rw [Text.trimEnd_cons '.' _ (by decide),
      Text.trimEnd_cons c _ (not_isSpace_of_isIdentStart c hc)]
    simp [Lua.dottedTail, hc, ih, trimRest]
  | case2 c t hc =>
    rw [trimRest, Text.trimEnd_cons '.' _ (by decide)]
    apply Lua.dottedTail_stop (by decide)
    intro _ d hd
    obtain h | ⟨-, -, h⟩ := Text.trimEnd_cons_cases c t
    · rw [h] at hd
      obtain rfl : c = d := Option.some.inj hd
      simpa using hc
    · rw [h] at hd
      cases hd
  | case3 c t hne hc path rest hp ih =>
    rw [hp] at ih
    rw [Text.trimEnd_cons c _ (not_isSpace_of_isIdentChar c hc), Lua.dottedTail_cons hc, ih]
    rfl
  | case4 c t hne hc =>
    rw [trimRest]
    obtain h | ⟨-, -, h⟩ := Text.trimEnd_cons_cases c t
    · rw [h]
      apply Lua.dottedTail_stop (by simpa using hc)
      intro hd e he
      cases t with
      | nil => cases he
      | cons a t => exact (hne a t hd rfl).elim
    · rw [h]
      rfl
  | case5 => rfl

theorem dotted?_trimEnd (t : Text) : Lua.dotted? (trimEnd t) = (Lua.dotted? t).map trimRest := by
  cases t with
  | nil => rfl
  | cons c t =>
    by_cases hc : Lua.isIdentStart c = true
    · rw [Text.trimEnd_cons c _ (not_isSpace_of_isIdentStart c hc)]
      simp [Lua.dotted?, hc, dottedTail_trimEnd, trimRest]
    · obtain h | ⟨-, -, h⟩ := Text.trimEnd_cons_cases c t <;> simp [h, Lua.dotted?, hc]

theorem ident?_trimEnd (t : Text) : Lua.ident? (trimEnd t) = (Lua.ident? t).map trimRest := by
  cases t with
  | nil => rfl
  | cons c t =>
    by_cases hc : Lua.isIdentStart c = true
    · rw [Text.trimEnd_cons c _ (not_isSpace_of_isIdentStart c hc)]
      simp [Lua.ident?, hc, trimRest, Text.dropWhile_trimEnd,
        Text.takeWhile_trimEnd _ not_isSpace_of_isIdentChar]
    · obtain h | ⟨-, -, h⟩ := Text.trimEnd_cons_cases c t <;> simp [h, Lua.ident?, hc]

theorem slotName_trimEnd (t : Text) : slotName (trimEnd t) = (slotName t).map trimRest := by
  unfold slotName
  split
  · next u hu =>
    obtain ⟨v, rfl⟩ := Text.exists_of_trimEnd_eq (s := ['.', '.', '.']) hu
    simp only [List.cons_append, List.nil_append] at hu ⊢
    rw [Text.trimEnd_cons '.' _ (by decide), Text.trimEnd_cons '.' _ (by decide),
      Text.trimEnd_cons '.' _ (by decide)] at hu
    simp [trimRest, show trimEnd v = u by simpa using hu]
  · next hdots =>
    split
    · next v =>
      rw [Text.trimEnd_cons '.' _ (by decide), Text.trimEnd_cons '.' _ (by decide),
        Text.trimEnd_cons '.' _ (by decide)] at hdots
      exact (hdots _ rfl).elim
    · exact ident?_trimEnd t

theorem not_isSpace_of_isDigit (c : Char) (h : c.isDigit = true) : isSpace c = false :=
  not_isSpace_of_isIdentChar c (Lua.isIdentChar_of_isDigit c h)

theorem digits_trimEnd (t : Text) : digits (trimEnd t) = trimRest (digits t) := by
  simp [digits, trimRest, Text.dropWhile_trimEnd, Text.takeWhile_trimEnd _ not_isSpace_of_isDigit]

theorem markedDigits_trimEnd (mark t : Text) (hm : trimEnd mark = mark) :
    markedDigits mark (trimEnd t) = trimRest (markedDigits mark t) := by
  unfold markedDigits
  rw [digits_trimEnd]
  cases hd : digits t with
  | mk ds rest =>
    cases ds with
    | nil => simp [trimRest, Text.trimEnd_append_of_visible _ _ hm]
    | cons d ds => simp [trimRest]

theorem fraction_trimEnd (t : Text) : fraction (trimEnd t) = trimRest (fraction t) := by
  cases t with
  | nil => rfl
  | cons c t =>
    by_cases hc : c = '.'
    · subst hc
      rw [Text.trimEnd_cons '.' _ (by decide)]
      exact markedDigits_trimEnd ['.'] t (by decide)
    · obtain h | ⟨-, -, h⟩ := Text.trimEnd_cons_cases c t <;> simp [fraction, trimRest, h, hc]

theorem exponent_trimEnd (t : Text) : exponent (trimEnd t) = trimRest (exponent t) := by
  cases t with
  | nil => rfl
  | cons c t =>
    by_cases hc : c = 'e' ∨ c = 'E'
    · have hs : isSpace c = false := by obtain rfl | rfl := hc <;> decide
      have hone : trimEnd [c] = [c] := Text.trimEnd_cons c [] hs
      have htwo (d : Char) (hd : isSpace d = false) : trimEnd [c, d] = [c, d] := by
        rw [Text.trimEnd_cons c _ hs, Text.trimEnd_cons d _ hd]
        rfl
      rw [Text.trimEnd_cons c _ hs]
      cases t with
      | nil =>
        have h : markedDigits [c] [] = trimRest (markedDigits [c] []) :=
          markedDigits_trimEnd [c] [] hone
        change exponent [c] = _
        simpa [exponent, hc] using h
      | cons d t =>
        by_cases hp : d = '+'
        · subst hp
          have h := markedDigits_trimEnd [c, '+'] t (htwo '+' (by decide))
          rw [Text.trimEnd_cons '+' _ (by decide)]
          simpa [exponent, hc] using h
        · by_cases hn : d = '-'
          · subst hn
            have h := markedDigits_trimEnd [c, '-'] t (htwo '-' (by decide))
            rw [Text.trimEnd_cons '-' _ (by decide)]
            simpa [exponent, hc] using h
          · have h := markedDigits_trimEnd [c] (d :: t) hone
            obtain ht | ⟨-, -, ht⟩ := Text.trimEnd_cons_cases d t <;>
              rw [ht] at h ⊢ <;> simpa [exponent, hc, hp, hn] using h
    · obtain h | ⟨-, -, h⟩ := Text.trimEnd_cons_cases c t <;> simp [exponent, trimRest, h, hc]

theorem decimal_trimEnd (t : Text) : decimal (trimEnd t) = (decimal t).map trimRest := by
  unfold decimal
  rw [digits_trimEnd]
  cases hd : digits t with
  | mk ds rest =>
    cases ds with
    | nil => rfl
    | cons d ds => simp [trimRest, fraction_trimEnd, exponent_trimEnd]

theorem not_isSpace_of_isHexDigit (c : Char) (h : isHexDigit c = true) : isSpace c = false :=
  not_isSpace_of_isIdentChar c (isIdentChar_of_isHexDigit c h)

theorem hexadecimal_trimEnd (t : Text) :
    hexadecimal (trimEnd t) = (hexadecimal t).map trimRest := by
  cases t with
  | nil => rfl
  | cons c t =>
    by_cases hc : c = '0'
    · subst hc
      rw [Text.trimEnd_cons '0' _ (by decide)]
      cases t with
      | nil => rfl
      | cons x t =>
        by_cases hx : x = 'x' ∨ x = 'X'
        · rw [Text.trimEnd_cons x _ (by obtain rfl | rfl := hx <;> decide)]
          by_cases hd : t.takeWhile isHexDigit = [] <;>
            simp [hexadecimal, hx, hd, trimRest, Text.dropWhile_trimEnd,
              Text.takeWhile_trimEnd _ not_isSpace_of_isHexDigit]
        · obtain h | ⟨-, -, h⟩ := Text.trimEnd_cons_cases x t <;> simp [h, hexadecimal, hx]
    · obtain h | ⟨-, -, h⟩ := Text.trimEnd_cons_cases c t <;> simp [h, hexadecimal, hc]

theorem unsigned_trimEnd (t : Text) : unsigned (trimEnd t) = (unsigned t).map trimRest := by
  unfold unsigned
  rw [hexadecimal_trimEnd, decimal_trimEnd]
  cases hexadecimal t <;> rfl

theorem number_trimEnd (t : Text) : number (trimEnd t) = (number t).map trimRest := by
  cases t with
  | nil => rfl
  | cons c t =>
    by_cases hc : c = '-'
    · subst hc
      rw [Text.trimEnd_cons '-' _ (by decide)]
      simp [number, unsigned_trimEnd, trimRest, Function.comp_def]
    · have hu := unsigned_trimEnd (c :: t)
      obtain h | ⟨-, -, h⟩ := Text.trimEnd_cons_cases c t <;> rw [h] at hu ⊢ <;>
        simpa [number, hc] using hu

theorem quotedTail_white (q : Char) (hq : isSpace q = false) {t : Text} (ht : isWhite t = true) :
    quotedTail q t = none := by
  induction t with
  | nil => rfl
  | cons c t ih =>
    have hc : isSpace c = true ∧ isWhite t = true := by simpa [isWhite] using ht
    have hesc : c ≠ '\\' := by
      intro h
      rw [h] at hc
      exact absurd hc.1 (by decide)
    have hne : c ≠ q := by
      intro h
      rw [h, hq] at hc
      exact Bool.false_ne_true hc.1
    simp [quotedTail_cons q c t hesc, hne, ih hc.2]

theorem quotedTail_trimEnd (q : Char) (hq : isSpace q = false) (hesc : q ≠ '\\') (t : Text) :
    quotedTail q (trimEnd t) = (quotedTail q t).map trimRest := by
  fun_induction quotedTail q t with
  | case1 => rfl
  | case2 c t ih =>
    rw [Text.trimEnd_cons '\\' _ (by decide)]
    obtain h | ⟨-, ht, h⟩ := Text.trimEnd_cons_cases c t
    · rw [h, quotedTail, ih]
      simp [trimRest, Function.comp_def]
    · rw [h, quotedTail_white q hq ht]
      simp [quotedTail, hesc.symm]
  | case3 t hne =>
    rw [Text.trimEnd_cons q _ hq, quotedTail_cons q q _ hesc]
    simp [trimRest]
  | case4 c t hne hcq ih =>
    by_cases hc : c = '\\'
    · cases t with
      | nil =>
        subst hc
        change quotedTail q ['\\'] = _
        simp [quotedTail, hesc.symm]
      | cons d t => exact (hne d t hc rfl).elim
    · obtain h | ⟨-, ht, h⟩ := Text.trimEnd_cons_cases c t
      · rw [h, quotedTail_cons q c _ hc, if_neg hcq, ih]
        simp [trimRest, Function.comp_def]
      · rw [h, quotedTail_white q hq ht]
        rfl

/-- On texts below a length, `g` reads the trimmed text as `f` reads the whole. -/
def Trims {α : Type} (f g : Reader α) (n : Nat) : Prop :=
  ∀ t : Text, t.length < n → g (trimEnd t) = (f t).map trimRest

/-- A reader that takes at least one character. -/
def Shrinks {α : Type} (f : Reader α) : Prop :=
  ∀ t x rest, f t = some (x, rest) → rest.length < t.length

theorem Grammar.Opens.length_lt {c : Text} (h : Grammar.Opens c) (rest : Text) :
    rest.length < (c ++ rest).length := by
  obtain ⟨a, u, rfl, -⟩ := h
  simp only [List.cons_append, List.length_cons, List.length_append]
  omega

theorem shrinks_of_sound {α : Type} {f : Reader α} {spells : α → Text → Prop}
    (hf : Grammar.Sound f spells) (ho : ∀ x c, spells x c → Grammar.Opens c) : Shrinks f := by
  intro t x rest h
  obtain ⟨c, rfl, hc⟩ := hf t x rest h
  exact (ho x c hc).length_lt rest

theorem length_of_sound {α : Type} {f : Reader α} {spells : α → Text → Prop}
    (hf : Grammar.Sound f spells) {t rest : Text} {x : α} (h : f t = some (x, rest)) :
    rest.length ≤ t.length := by
  obtain ⟨c, rfl, -⟩ := hf t x rest h
  simp

theorem slotName_shrinks : Shrinks slotName := by
  intro t name rest h
  rw [(slotName_rereads t name rest h).1]
  exact (Grammar.slotName_opens h).length_lt rest

theorem dotted?_shrinks : Shrinks Lua.dotted? := by
  intro t name rest h
  rw [(Lua.dotted?_rereads t name rest h).1]
  obtain ⟨c, u, rfl, hc⟩ := Grammar.isDotted_head
    ((Lua.isDotted_iff name).mpr (Lua.dotted?_rereads.whole h))
  exact Grammar.Opens.length_lt ⟨c, u, rfl, Grammar.isEnd_of_isIdentStart hc⟩ rest

theorem length_skipSpace (nested : Bool) (t : Text) : (skipSpace nested t).length ≤ t.length := by
  rw [Grammar.skipSpace_eq]
  exact (List.dropWhile_suffix _).length_le

theorem length_trimStart (t : Text) : (trimStart t).length ≤ t.length := length_skipSpace true t

theorem length_expect {c : Char} {t u : Text} (h : expect c t = some u) : u.length < t.length := by
  rw [Grammar.expect_eq_some h]
  exact Nat.lt_succ_self _

/-- What stands first after the white space is not white. -/
theorem trimStart_eq_cons {t u : Text} {c : Char} (h : trimStart t = c :: u) :
    isSpace c = false := by
  have hh := List.head?_dropWhile_not isSpace t
  rw [show t.dropWhile isSpace = c :: u from h] at hh
  exact hh

section Lists
variable {α : Type} {item item' : Reader α} {n : Nat}

theorem items_trims (hi : Trims item item' n) (hs : Shrinks item) (close : Char)
    (bound bound' : Nat) (t : Text) (hn : t.length < n) (hb : t.length < bound)
    (hb' : t.length < bound') :
    items item' close bound' (trimEnd t) = (items item close bound t).map trimRest := by
  induction bound generalizing bound' t with
  | zero => omega
  | succ bound ih =>
    cases bound' with
    | zero => omega
    | succ bound' =>
      simp only [items, hi t hn, Option.bind_eq_bind, Option.bind_map]
      cases hx : item t with
      | none => rfl
      | some r =>
        obtain ⟨x, u⟩ := r
        have hu := hs t x u hx
        have hlen := length_trimStart u
        simp only [Option.bind_some, Function.comp_def, trimRest, trimStart_trimEnd]
        cases hv : trimStart u with
        | nil => rfl
        | cons c v =>
          rw [hv, List.length_cons] at hlen
          rw [Text.trimEnd_cons c v (trimStart_eq_cons hv)]
          by_cases hc : c = ','
          · subst hc
            have hlen' := length_trimStart v
            simp only [trimStart_trimEnd,
              ih bound' (trimStart v) (by omega) (by omega) (by omega), Option.bind_map]
            cases items item close bound (trimStart v) <;> simp [trimRest]
          · by_cases hclose : c = close
            · subst hclose
              simp [trimRest]
            · simp [hclose]

theorem bracketed_trims (hi : Trims item item' n) (hs : Shrinks item) {close : Char}
    (hc : isSpace close = false) {bound bound' : Nat} (hb : n ≤ bound) (hb' : n ≤ bound') :
    Trims (bracketed item close bound) (bracketed item' close bound') n := by
  intro t ht
  have hlen := length_trimStart t
  unfold bracketed
  rw [trimStart_trimEnd, expect_trimEnd close hc]
  cases expect close (trimStart t) with
  | some u => rfl
  | none =>
    exact items_trims hi hs close bound bound' (trimStart t) (by omega) (by omega) (by omega)

end Lists

section Unions
variable {member member' : Reader TypeExpr} {n : Nat}

theorem startsSpaced_trimEnd (nested : Bool) {t : Text} (ht : isWhite t = false) :
    startsSpaced nested (trimEnd t) = startsSpaced nested t := by
  cases t with
  | nil => rfl
  | cons c t =>
    rw [Text.trimEnd_cons_of_visible ht]
    rfl

theorem isWhite_skipSpace (nested : Bool) (t : Text) :
    isWhite (skipSpace nested t) = isWhite t := by
  rw [Grammar.skipSpace_eq]
  exact Text.isWhite_dropWhile _ (fun _ => Grammar.isSpace_of_isGap) t

theorem not_white_of_expect {t u : Text} (h : expect '|' t = some u) : isWhite t = false := by
  rw [Grammar.expect_eq_some h]
  rfl

/-- Nothing is read from white space. -/
theorem not_white_of_read (hm : Trims member member' n) (hs' : Shrinks member') {t rest : Text}
    {u : TypeExpr} (ht : t.length < n) (h : member t = some (u, rest)) : isWhite t = false := by
  by_contra hw
  have hnil : trimEnd t = [] := (Text.trimEnd_eq_nil_iff t).mpr (by simpa using hw)
  have hread := hm t ht
  rw [hnil, h, Option.map_some] at hread
  exact Nat.not_lt_zero _ (hs' _ _ _ hread)

theorem alternatives_trims (hm : Trims member member' n) (hs : Shrinks member)
    (hs' : Shrinks member') (nested : Bool) (bound bound' : Nat) (t : Text) (hn : t.length < n)
    (hb : t.length < bound) (hb' : t.length < bound') :
    alternatives member' nested bound' (trimEnd t) =
      ((alternatives member nested bound t).1,
        trimRest (alternatives member nested bound t).2) := by
  induction bound generalizing bound' t with
  | zero => omega
  | succ bound ih =>
    cases bound' with
    | zero => omega
    | succ bound' =>
      unfold alternatives
      rw [skipSpace_trimEnd, expect_trimEnd '|' (by decide)]
      cases hu : expect '|' (skipSpace nested t) with
      | none => rfl
      | some u =>
        have hl := length_expect hu
        have hl' := length_skipSpace nested t
        have hl'' := length_skipSpace nested u
        simp only [Option.map_some, skipSpace_trimEnd, hm (skipSpace nested u) (by omega)]
        cases hv : member (skipSpace nested u) with
        | none => rfl
        | some r =>
          obtain ⟨m, v⟩ := r
          have hlv := hs _ _ _ hv
          have ht := (isWhite_skipSpace nested t).symm.trans (not_white_of_expect hu)
          have hw := (isWhite_skipSpace nested u).symm.trans
            (not_white_of_read hm hs' (by omega) hv)
          simp only [Option.map_some, trimRest, ih bound' v (by omega) (by omega) (by omega),
            startsSpaced_trimEnd nested ht, startsSpaced_trimEnd nested hw]

theorem unionOf_trims (hm : Trims member member' n) (hs : Shrinks member)
    (hs' : Shrinks member') (nested : Bool) {bound bound' : Nat} (hb : n ≤ bound)
    (hb' : n ≤ bound') : Trims (unionOf member nested bound) (unionOf member' nested bound') n := by
  intro t ht
  simp only [unionOf, hm t ht, Option.bind_eq_bind, Option.bind_map]
  cases hx : member t with
  | none => rfl
  | some r =>
    obtain ⟨m, u⟩ := r
    have hl := hs _ _ _ hx
    simp only [Option.bind_some, Function.comp_def, trimRest,
      alternatives_trims hm hs hs' nested bound bound' u (by omega) (by omega) (by omega)]
    obtain ⟨ms, spaced, rest⟩ := alternatives member nested bound u
    cases ms <;> rfl

end Unions

section Fields
variable {type type' : Reader TypeExpr} {n : Nat}

theorem tableField_trims (hu : Trims type type' n) :
    Trims (tableField type) (tableField type') n := by
  intro t ht
  simp only [tableField, slotName_trimEnd, Option.bind_eq_bind, Option.bind_map]
  cases hx : slotName t with
  | none => rfl
  | some r =>
    obtain ⟨name, u⟩ := r
    have hl := slotName_shrinks _ _ _ hx
    simp only [Option.bind_some, Function.comp_def, trimRest, trimStart_trimEnd,
      expect_trimEnd ':' (by decide), Option.bind_map]
    cases hv : expect ':' (trimStart u) with
    | none => rfl
    | some v =>
      have hlu := length_trimStart u
      have hlv := length_expect hv
      have hlv' := length_trimStart v
      simp only [Option.bind_some, hu (trimStart v) (by omega), Option.bind_map]
      cases type (trimStart v) <;> simp [trimRest]

theorem param_trims (hu : Trims type type' n) : Trims (param type) (param type') n := by
  intro t ht
  simp only [param, slotName_trimEnd, Option.bind_eq_bind, Option.bind_map]
  cases hx : slotName t with
  | none => rfl
  | some r =>
    obtain ⟨name, u⟩ := r
    have hl := slotName_shrinks _ _ _ hx
    simp only [Option.bind_some, Function.comp_def, trimRest, trimStart_trimEnd,
      expect_trimEnd ':' (by decide)]
    cases hv : expect ':' (trimStart u) with
    | none => rfl
    | some v =>
      have hlu := length_trimStart u
      have hlv := length_expect hv
      have hlv' := length_trimStart v
      simp only [Option.map_some, trimStart_trimEnd, hu (trimStart v) (by omega), Option.bind_map]
      cases type (trimStart v) <;> simp [trimRest]

theorem dictionaryTail_trims (hu : Trims type type' n) (hs : Shrinks type) :
    Trims (dictionaryTail type) (dictionaryTail type') n := by
  intro t ht
  have hlt := length_trimStart t
  simp only [dictionaryTail, trimStart_trimEnd, hu (trimStart t) (by omega),
    Option.bind_eq_bind, Option.bind_map]
  cases hk : type (trimStart t) with
  | none => rfl
  | some r =>
    obtain ⟨key, u⟩ := r
    have hl := hs _ _ _ hk
    have hlu := length_trimStart u
    simp only [Option.bind_some, Function.comp_def, trimRest, trimStart_trimEnd,
      expect_trimEnd ']' (by decide), Option.bind_map]
    cases hv : expect ']' (trimStart u) with
    | none => rfl
    | some v =>
      have hlv := length_expect hv
      have hlv' := length_trimStart v
      simp only [Option.bind_some, expect_trimEnd ':' (by decide), Option.bind_map]
      cases hw : expect ':' (trimStart v) with
      | none => rfl
      | some w =>
        have hlw := length_expect hw
        have hlw' := length_trimStart w
        simp only [Option.bind_some, Function.comp_def, trimStart_trimEnd,
          hu (trimStart w) (by omega), Option.bind_map]
        cases type (trimStart w) with
        | none => rfl
        | some r =>
          simp only [Option.bind_some, trimRest, trimStart_trimEnd,
            expect_trimEnd '\x7d' (by decide), Option.bind_map]
          cases expect '\x7d' (trimStart r.2) <;> rfl

end Fields

section Nesting
variable {bound bound' n : Nat} {nested : Bool}

theorem member_shrinks (bound : Nat) (nested : Bool) : Shrinks (member bound nested) :=
  shrinks_of_sound (Grammar.member_sound bound nested) fun _ _ h => Grammar.member_opens h

theorem inner_shrinks (bound : Nat) : Shrinks (inner (member bound) bound) :=
  shrinks_of_sound (Grammar.inner_sound (Grammar.member_sound bound))
    fun _ _ h => Grammar.inner_opens (fun _ _ _ hm => Grammar.member_opens hm) h

theorem param_shrinks (bound : Nat) : Shrinks (param (inner (member bound) bound)) :=
  shrinks_of_sound (Grammar.param_sound (Grammar.inner_sound (Grammar.member_sound bound)))
    fun _ _ h => Grammar.parameter_opens h

theorem tableField_shrinks (bound : Nat) : Shrinks (tableField (inner (member bound) bound)) :=
  shrinks_of_sound (Grammar.tableField_sound (Grammar.inner_sound (Grammar.member_sound bound)))
    fun _ _ h => Grammar.tableField_opens h

theorem inner_trims (hm : ∀ nested, Trims (member bound nested) (member bound' nested) n)
    (hb : n ≤ bound) (hb' : n ≤ bound') :
    Trims (inner (member bound) bound) (inner (member bound') bound') n := by
  intro t ht
  rw [inner, inner, Option.map_map, unionOf_trims (hm true) (member_shrinks bound true)
    (member_shrinks bound' true) true hb hb' t ht, Option.map_map]
  rfl

theorem braced_trims (hm : ∀ nested, Trims (member bound nested) (member bound' nested) n)
    (hb : n ≤ bound) (hb' : n ≤ bound') :
    Trims (braced (inner (member bound) bound) bound)
      (braced (inner (member bound') bound') bound') n := by
  intro t ht
  have hlt := length_trimStart t
  unfold braced
  rw [trimStart_trimEnd, expect_trimEnd '[' (by decide)]
  cases hu : expect '[' (trimStart t) with
  | some u =>
    have hl := length_expect hu
    exact dictionaryTail_trims (inner_trims hm hb hb') (inner_shrinks bound) u (by omega)
  | none =>
    have h := bracketed_trims (tableField_trims (inner_trims hm hb hb')) (tableField_shrinks bound)
      (show isSpace '\x7d' = false by decide) hb hb' t ht
    simp only [Option.map_none, h, Option.map_map]
    rfl

theorem returnType_trims (hm : Trims (member bound nested) (member bound' nested) n) (t : Text)
    (ht : t.length < n) :
    returnType (member bound' nested) nested (trimEnd t) =
      trimRest (returnType (member bound nested) nested t) := by
  unfold returnType
  rw [expect_trimEnd ':' (by decide)]
  cases hu : expect ':' t with
  | none => rfl
  | some u =>
    have hl := length_expect hu
    have hl' := length_skipSpace nested u
    simp only [Option.map_some, skipSpace_trimEnd, hm (skipSpace nested u) (by omega)]
    cases member bound nested (skipSpace nested u) <;> rfl

theorem namedTail_other {name t : Text} (hc : ¬Grammar.IsConstant name)
    (hp : name = "fun" → ∀ u, t ≠ '(' :: u) (hg : ∀ u, t ≠ '<' :: u) :
    namedTail (member bound) nested bound name t = some (.named name [], t) := by
  unfold namedTail
  rw [if_neg (show ¬(name = "true" ∨ name = "false" ∨ name = "nil") from hc)]
  split
  · split
    · next hname => exact absurd rfl (hp hname _)
    · rfl
  · exact absurd rfl (hg _)
  · rfl

theorem namedTail_trims (hm : ∀ nested, Trims (member bound nested) (member bound' nested) n)
    (hb : n ≤ bound) (hb' : n ≤ bound') (name : Text) :
    Trims (namedTail (member bound) nested bound name)
      (namedTail (member bound') nested bound' name) n := by
  intro t ht
  by_cases hc : Grammar.IsConstant name
  · rw [Grammar.namedTail_constant hc, Grammar.namedTail_constant hc]
    rfl
  by_cases hg : ∃ u, t = '<' :: u
  · obtain ⟨u, rfl⟩ := hg
    have hl : u.length < n := Nat.lt_of_succ_lt ht
    rw [Text.trimEnd_cons '<' u (by decide), Grammar.namedTail_generic hc,
      Grammar.namedTail_generic hc, bracketed_trims (inner_trims hm hb hb') (inner_shrinks bound)
        (by decide) hb hb' u hl, Option.map_map, Option.map_map]
    rfl
  by_cases hf : name = "fun" ∧ ∃ u, t = '(' :: u
  · obtain ⟨rfl, u, rfl⟩ := hf
    have hl : u.length < n := Nat.lt_of_succ_lt ht
    have h := bracketed_trims (param_trims (inner_trims hm hb hb')) (param_shrinks bound)
      (show isSpace ')' = false by decide) hb hb' u hl
    rw [Text.trimEnd_cons '(' u (by decide), Grammar.namedTail_function,
      Grammar.namedTail_function, h, Option.bind_map, Option.map_bind]
    cases hps : bracketed (param (inner (member bound) bound)) ')' bound u with
    | none => rfl
    | some r =>
      obtain ⟨ps, v⟩ := r
      have hlv := length_of_sound (Grammar.bracketed_sound (Grammar.param_sound
        (Grammar.inner_sound (Grammar.member_sound bound)))) hps
      simp only [Option.bind_some, Function.comp_def, trimRest,
        returnType_trims (hm nested) v (by omega), Option.map_some]
  · have hp : name = "fun" → ∀ u, t ≠ '(' :: u := fun hname u hu => hf ⟨hname, u, hu⟩
    have hp' : name = "fun" → ∀ u, trimEnd t ≠ '(' :: u := by
      intro hname u hu
      obtain ⟨v, hv⟩ := Text.exists_of_trimEnd_eq (s := ['(']) hu
      exact hp hname v hv
    have hg' : ∀ u, trimEnd t ≠ '<' :: u := by
      intro u hu
      obtain ⟨v, hv⟩ := Text.exists_of_trimEnd_eq (s := ['<']) hu
      exact hg ⟨v, hv⟩
    rw [namedTail_other hc hp fun u hu => hg ⟨u, hu⟩, namedTail_other hc hp' hg']
    rfl

theorem primary_space {c : Char} (hc : isSpace c = true) (t : Text) :
    primary (member bound) nested bound (c :: t) = none := by
  by_contra h
  obtain ⟨⟨u, rest⟩, hu⟩ := Option.ne_none_iff_exists'.mp h
  obtain ⟨s, hs, hp, -⟩ := Grammar.primary_sound (Grammar.member_sound bound)
    (fun _ _ _ _ hm => Grammar.member_unmarked hm) hu
  obtain ⟨d, v, rfl, hd⟩ := Grammar.primary_opens hp
  obtain ⟨rfl, -⟩ := List.cons.inj hs
  simp [Grammar.isEnd, hc] at hd

/-- A type that brackets or quotes open. -/
theorem primary_opener_trims
    (hm : ∀ nested, Trims (member bound nested) (member bound' nested) n) (hb : n ≤ bound)
    (hb' : n ≤ bound') {c : Char} (hc : Grammar.isOpener c = true) (t : Text) (ht : t.length < n) :
    primary (member bound') nested bound' (c :: trimEnd t) =
      (primary (member bound) nested bound (c :: t)).map trimRest := by
  simp only [Grammar.isOpener, Bool.or_eq_true, beq_iff_eq] at hc
  have hlt := length_trimStart t
  have hi := inner_trims hm hb hb'
  unfold primary
  obtain (((rfl | rfl) | rfl) | rfl) | rfl := hc
  · simp only [trimStart_trimEnd, hi (trimStart t) (by omega), Option.bind_eq_bind,
      Option.bind_map]
    cases inner (member bound) bound (trimStart t) with
    | none => rfl
    | some r =>
      simp only [Option.bind_some, Function.comp_def, trimRest, trimStart_trimEnd,
        expect_trimEnd ')' (by decide), Option.bind_map]
      cases expect ')' (trimStart r.2) <;> rfl
  · have h := bracketed_trims hi (inner_shrinks bound) (show isSpace ']' = false by decide) hb hb'
      t ht
    simp only [h, Option.map_map]
    rfl
  · exact braced_trims hm hb hb' t ht
  · simp only [quotedTail_trimEnd '\x22' (by decide) (by decide), Option.map_map]
    rfl
  · simp only [quotedTail_trimEnd '\x27' (by decide) (by decide), Option.map_map]
    rfl

theorem primary_trims (hm : ∀ nested, Trims (member bound nested) (member bound' nested) n)
    (hb : n ≤ bound) (hb' : n ≤ bound') :
    Trims (primary (member bound) nested bound) (primary (member bound') nested bound')
      (n + 1) := by
  intro t ht
  cases t with
  | nil => rfl
  | cons c t =>
    have hl : t.length < n := Nat.lt_of_succ_lt_succ ht
    by_cases hc : isSpace c = true
    · obtain h | ⟨-, -, h⟩ := Text.trimEnd_cons_cases c t
      · rw [h, primary_space hc, primary_space hc]
        rfl
      · rw [h, primary_space hc]
        rfl
    have hcons := Text.trimEnd_cons c t (by simpa using hc)
    by_cases ho : Grammar.isOpener c = true
    · rw [hcons]
      exact primary_opener_trims hm hb hb' ho t hl
    rw [hcons, Grammar.primary_word (by simpa using ho), Grammar.primary_word (by simpa using ho),
      ← hcons]
    by_cases hd : (decide (c = '-') || c.isDigit) = true
    · rw [if_pos hd, if_pos hd, number_trimEnd, Option.map_map, Option.map_map]
      rfl
    · rw [if_neg hd, if_neg hd, dotted?_trimEnd, Option.bind_map, Option.map_bind]
      cases hx : Lua.dotted? (c :: t) with
      | none => rfl
      | some r =>
        obtain ⟨name, rest⟩ := r
        have hlr : rest.length < n := by
          have hlr := dotted?_shrinks _ _ _ hx
          simp only [List.length_cons] at ht hlr
          omega
        exact namedTail_trims hm hb hb' name rest hlr

end Nesting

theorem suffixes_trimEnd (u : TypeExpr) (t : Text) :
    suffixes u (trimEnd t) = trimRest (suffixes u t) := by
  fun_induction suffixes u t with
  | case1 u t ih =>
    rw [Text.trimEnd_cons '[' _ (by decide), Text.trimEnd_cons ']' _ (by decide)]
    exact ih
  | case2 u t ih =>
    rw [Text.trimEnd_cons '?' _ (by decide)]
    exact ih
  | case3 u t harray hopt =>
    unfold suffixes
    split
    · next v hv =>
      obtain ⟨w, hw⟩ := Text.exists_of_trimEnd_eq (s := ['[', ']']) hv
      exact absurd hw (harray w)
    · next v hv =>
      obtain ⟨w, hw⟩ := Text.exists_of_trimEnd_eq (s := ['?']) hv
      exact absurd hw (hopt w)
    · rfl

/-- The space after a type, and the bound on its depth, have no part in reading it. -/
theorem member_trims (bound bound' n : Nat) (nested : Bool) (hb : n ≤ bound) (hb' : n ≤ bound') :
    Trims (member bound nested) (member bound' nested) n := by
  induction n generalizing bound bound' nested with
  | zero =>
    intro t ht
    omega
  | succ n ih =>
    cases bound with
    | zero => omega
    | succ bound =>
      cases bound' with
      | zero => omega
      | succ bound' =>
        -- both bounds go down with the length of the text, so neither runs out before it does
        have hm : ∀ nested, Trims (member bound nested) (member bound' nested) n :=
          fun nested => ih bound bound' nested (by omega) (by omega)
        intro t ht
        simp only [member, primary_trims hm (by omega) (by omega) t ht, Option.map_map]
        apply congrArg (Option.map · _)
        funext r
        exact suffixes_trimEnd r.1 r.2

theorem member_eq_none_iff {bound bound' : Nat} (nested : Bool) {t : Text}
    (hb : t.length < bound) (hb' : t.length < bound') :
    member bound nested t = none ↔ member bound' nested t = none := by
  have h := member_trims bound bound (t.length + 1) nested hb hb t (Nat.lt_succ_self _)
  have h' := member_trims bound' bound (t.length + 1) nested hb' hb t (Nat.lt_succ_self _)
  rw [← Option.map_eq_none_iff (f := trimRest), ← h, h', Option.map_eq_none_iff]

def Reading.trimmed (r : Reading) : Reading := { r with rest := trimEnd r.rest }

theorem read?_trimEnd (t : Text) :
    (read? (trimEnd t)).map Reading.trimmed = (read? t).map Reading.trimmed := by
  have trims {m bound bound' : Nat} (hb : m ≤ bound) (hb' : m ≤ bound') :=
    unionOf_trims (member_trims bound bound' m false hb hb') (member_shrinks bound false)
      (member_shrinks bound' false) false hb hb'
  -- the trimmed text is first read with the bound of the whole one
  have hwhole := trims (le_refl (t.length + 1)) (le_refl _) t (Nat.lt_succ_self _)
  have hself := trims (le_refl ((trimEnd t).length + 1)) (Nat.succ_le_succ (Text.length_trimEnd t))
    (trimEnd t) (Nat.lt_succ_self _)
  rw [Text.trimEnd_trimEnd, hwhole] at hself
  have h := congrArg (Option.map fun r => (⟨r.1.1, r.2, r.1.2⟩ : Reading)) hself
  rw [Option.map_map, Option.map_map] at h
  rw [read?, read?, Option.map_map, Option.map_map]
  exact h.symm

end LuaStubs.TypeExpr
