import LuaStubs.Proofs.TypeExpr.Grammar

namespace LuaStubs.TypeExpr.Grammar

/-- What a reader takes off a text spells what it returns. -/
def Sound {α : Type} (f : Reader α) (spells : α → Text → Prop) : Prop :=
  ∀ t x rest, f t = some (x, rest) → ∃ c, t = c ++ rest ∧ spells x c

theorem skipSpace_eq (nested : Bool) (t : Text) :
    skipSpace nested t = t.dropWhile (isGap nested) := by
  cases nested <;> rfl

/-- The space that is skipped, and how it shows. -/
theorem exists_gap (nested : Bool) (t : Text) :
    ∃ w, t = w ++ skipSpace nested t ∧ Gap nested w ∧ startsSpaced nested t = !w.isEmpty := by
  rw [skipSpace_eq]
  refine ⟨t.takeWhile (isGap nested), List.takeWhile_append_dropWhile.symm,
    fun c hc => List.mem_takeWhile_imp hc, ?_⟩
  cases t with
  | nil => rfl
  | cons c t =>
    change isGap nested c = _
    by_cases hc : isGap nested c = true <;> simp [hc]

theorem exists_gap_trimStart (t : Text) : ∃ w, t = w ++ Text.trimStart t ∧ Gap true w := by
  obtain ⟨w, hw, gw, -⟩ := exists_gap true t
  exact ⟨w, hw, gw⟩

theorem expect_eq_some {c : Char} {t u : Text} (h : expect c t = some u) : t = c :: u := by
  cases t with
  | nil => cases h
  | cons d t =>
    by_cases hd : c = d
    · obtain rfl : t = u := by simpa [expect, hd] using h
      rw [hd]
    · simp [expect, hd] at h

theorem exists_gap_expect {c : Char} {t u : Text} (h : expect c (Text.trimStart t) = some u) :
    ∃ w, t = w ++ c :: u ∧ Gap true w := by
  obtain ⟨w, hw, gw⟩ := exists_gap_trimStart t
  rw [expect_eq_some h] at hw
  exact ⟨w, hw, gw⟩

theorem Sound.exists_gap {α : Type} {f : Reader α} {spells : α → Text → Prop} (hf : Sound f spells)
    {t rest : Text} {x : α} (h : f (Text.trimStart t) = some (x, rest)) :
    ∃ w c, t = w ++ (c ++ rest) ∧ Gap true w ∧ spells x c := by
  obtain ⟨w, hw, gw⟩ := exists_gap_trimStart t
  obtain ⟨c, hc, hx⟩ := hf _ _ _ h
  rw [hc] at hw
  exact ⟨w, c, hw, gw, hx⟩

section Lists
variable {α : Type} {item : Reader α} {spells : α → Text → Prop} {close : Char} {bound : Nat}

theorem items_sound (h : Sound item spells) :
    Sound (items item close bound) (Items spells close) := by
  induction bound with
  | zero =>
    intro t xs rest hx
    cases hx
  | succ bound ih =>
    intro t xs rest ht
    obtain ⟨⟨x, u⟩, hu, hx⟩ := Option.bind_eq_some_iff.mp ht
    obtain ⟨c, rfl, hc⟩ := h t x u hu
    obtain ⟨w, hw, gw⟩ := exists_gap_trimStart u
    simp only at hx
    split at hx
    · next v hv =>
      obtain ⟨⟨ys, s⟩, hs, hy⟩ := Option.bind_eq_some_iff.mp hx
      obtain ⟨rfl, rfl⟩ := Prod.mk.inj (Option.some.inj hy)
      obtain ⟨g, cs, rfl, gg, hys⟩ := ih.exists_gap hs
      refine ⟨_, ?_, Items.more hc gw gg hys⟩
      rw [hw, hv]
      simp
    · next d v hne hv =>
      split at hx
      · next hd =>
        obtain ⟨rfl, rfl⟩ := Prod.mk.inj (Option.some.inj hx)
        subst hd
        refine ⟨_, ?_, Items.last hc gw⟩
        rw [hw, hv]
        simp
      · cases hx
    · cases hx

theorem bracketed_sound (h : Sound item spells) :
    Sound (bracketed item close bound) (Bracketed spells close) := by
  intro t xs rest hx
  unfold bracketed at hx
  split at hx
  · next u hu =>
    obtain ⟨rfl, rfl⟩ := Prod.mk.inj (Option.some.inj hx)
    obtain ⟨w, rfl, gw⟩ := exists_gap_expect hu
    exact ⟨_, by simp, Bracketed.empty gw⟩
  · obtain ⟨w, cs, rfl, gw, hxs⟩ := (items_sound h).exists_gap hx
    exact ⟨_, by simp, Bracketed.filled gw hxs⟩

end Lists

section Unions
variable {member : Reader TypeExpr} {spells : TypeExpr → Text → Prop} {nested : Bool} {bound : Nat}

theorem alternatives_sound (h : Sound member spells) (nested : Bool) (bound : Nat) (t : Text) :
    ∃ cs, t = cs ++ (alternatives member nested bound t).2.2 ∧
      Alternatives spells nested (alternatives member nested bound t).1
        (alternatives member nested bound t).2.1 cs := by
  induction bound generalizing t with
  | zero => exact ⟨[], rfl, .none⟩
  | succ bound ih =>
    unfold alternatives
    split
    · exact ⟨[], rfl, .none⟩
    · next u hu =>
      split
      · exact ⟨[], rfl, .none⟩
      · next m rest hm =>
        obtain ⟨w, hw, gw, sw⟩ := exists_gap nested t
        obtain ⟨v, hv, gv, sv⟩ := exists_gap nested u
        obtain ⟨c, hc, hmc⟩ := h _ _ _ hm
        obtain ⟨cs, hcs, hms⟩ := ih rest
        refine ⟨w ++ '|' :: (v ++ (c ++ cs)), ?_, ?_⟩
        · rw [expect_eq_some hu] at hw
          rw [hc, hcs] at hv
          conv_lhs => rw [hw, hv]
          simp
        · rw [sw, sv]
          exact .more gw gv hmc hms

theorem unionOf_sound (h : Sound member spells) :
    Sound (unionOf member nested bound) fun u c => Union spells nested u.1 u.2 c := by
  intro t u rest ht
  obtain ⟨⟨m, v⟩, hm, hu⟩ := Option.bind_eq_some_iff.mp ht
  obtain ⟨c, rfl, hmc⟩ := h _ _ _ hm
  obtain ⟨cs, hcs, hms⟩ := alternatives_sound h nested bound v
  simp only at hu
  split at hu
  · next spaced r hr =>
    obtain ⟨rfl, rfl⟩ := Prod.mk.inj (Option.some.inj hu)
    rw [hr] at hcs hms
    cases hms
    exact ⟨c, by rw [hcs]; rfl, .single hmc⟩
  · next others spaced r hne hr =>
    obtain ⟨rfl, rfl⟩ := Prod.mk.inj (Option.some.inj hu)
    rw [hr] at hcs hms
    cases others with
    | nil => exact absurd rfl hne
    | cons n ms => exact ⟨c ++ cs, by rw [hcs]; simp, .several hmc hms⟩

end Unions

section Parts
variable {type : Reader TypeExpr} {spells : TypeExpr → Text → Prop} {bound : Nat}

theorem tableField_sound (h : Sound type spells) : Sound (tableField type) (TableField spells) := by
  intro t f rest ht
  obtain ⟨⟨name, t₁⟩, hname, ht⟩ := Option.bind_eq_some_iff.mp ht
  obtain ⟨t₂, hcolon, ht⟩ := Option.bind_eq_some_iff.mp ht
  obtain ⟨⟨u, t₃⟩, hu, ht⟩ := Option.bind_eq_some_iff.mp ht
  obtain ⟨rfl, rfl⟩ := Prod.mk.inj (Option.some.inj ht)
  obtain ⟨rfl, -⟩ := slotName_rereads _ _ _ hname
  obtain ⟨w, rfl, gw⟩ := exists_gap_expect hcolon
  obtain ⟨v, c, rfl, gv, huc⟩ := h.exists_gap hu
  exact ⟨_, by simp, TableField.mk (slotName_rereads.whole hname) gw gv huc⟩

theorem param_sound (h : Sound type spells) : Sound (param type) (Parameter spells) := by
  intro t f rest ht
  obtain ⟨⟨name, t₁⟩, hname, hf⟩ := Option.bind_eq_some_iff.mp ht
  obtain ⟨rfl, -⟩ := slotName_rereads _ _ _ hname
  have hslot := slotName_rereads.whole hname
  simp only at hf
  split at hf
  · obtain ⟨rfl, rfl⟩ := Prod.mk.inj (Option.some.inj hf)
    obtain ⟨w, hw, gw⟩ := exists_gap_trimStart t₁
    refine ⟨_, ?_, Parameter.bare hslot gw⟩
    rw [List.append_assoc, ← hw]
  · next t₂ hcolon =>
    obtain ⟨⟨u, t₃⟩, hu, hf⟩ := Option.bind_eq_some_iff.mp hf
    obtain ⟨rfl, rfl⟩ := Prod.mk.inj (Option.some.inj hf)
    obtain ⟨w, rfl, gw⟩ := exists_gap_expect hcolon
    obtain ⟨v, c, rfl, gv, huc⟩ := h.exists_gap hu
    exact ⟨_, by simp, Parameter.typed hslot gw gv huc⟩

end Parts

/-- No mark stands in front. -/
def Unmarked (t : Text) : Prop := ∀ u, suffixes u t = (u, t)

theorem unmarked_suffixes (u : TypeExpr) (t : Text) : Unmarked (suffixes u t).2 := by
  fun_induction suffixes u t with
  | case1 u rest ih => exact ih
  | case2 u rest ih => exact ih
  | case3 u rest h₁ h₂ =>
    intro v
    unfold suffixes
    split
    · next r hr => exact absurd hr (h₁ r)
    · next r hr => exact absurd hr (h₂ r)
    · rfl

theorem suffixes_sound (u : TypeExpr) (t : Text) :
    ∃ m, t = m ++ (suffixes u t).2 ∧ Marks u (suffixes u t).1 m := by
  fun_induction suffixes u t with
  | case1 u rest ih =>
    obtain ⟨m, hm, hmarks⟩ := ih
    exact ⟨'[' :: ']' :: m, by simpa using hm, .array hmarks⟩
  | case2 u rest ih =>
    obtain ⟨m, hm, hmarks⟩ := ih
    exact ⟨'?' :: m, by simpa using hm, .optional hmarks⟩
  | case3 u rest h₁ h₂ => exact ⟨[], rfl, .none⟩

section Nesting
variable {member : Bool → Reader TypeExpr} {spells : Bool → TypeExpr → Text → Prop}
  {nested : Bool} {bound : Nat}

theorem inner_sound (h : ∀ n, Sound (member n) (spells n)) :
    Sound (inner member bound) (Inner spells) := by
  intro t u rest ht
  obtain ⟨⟨⟨v, spaced⟩, r⟩, hv, hu⟩ := Option.map_eq_some_iff.mp ht
  obtain ⟨rfl, rfl⟩ := Prod.mk.inj hu
  obtain ⟨c, hc, hvc⟩ := unionOf_sound (h true) _ _ _ hv
  exact ⟨c, hc, spaced, hvc⟩

theorem returnType_sound (h : Sound (member nested) (spells nested))
    (hm : ∀ t u rest, member nested t = some (u, rest) → Unmarked rest) (t : Text) :
    ∃ c, t = c ++ (returnType (member nested) nested t).2 ∧
      Returned (spells nested) nested (returnType (member nested) nested t).1 c ∧
      ((returnType (member nested) nested t).1.isSome →
        Unmarked (returnType (member nested) nested t).2) := by
  unfold returnType
  split
  · exact ⟨[], rfl, .none, by simp⟩
  · next u hu =>
    split
    · exact ⟨[], rfl, .none, by simp⟩
    · next v rest hv =>
      obtain ⟨w, hw, gw, -⟩ := exists_gap nested u
      obtain ⟨c, hc, hvc⟩ := h _ _ _ hv
      refine ⟨_, ?_, Returned.some gw hvc, fun _ => hm _ _ _ hv⟩
      rw [hc] at hw
      rw [expect_eq_some hu]
      conv_lhs => rw [hw]
      simp

theorem braced_sound (h : ∀ n, Sound (member n) (spells n)) {t rest : Text} {u : TypeExpr}
    (ht : braced (inner member bound) bound t = some (u, rest)) :
    ∃ c, t = c ++ rest ∧ Primary spells nested u ('\x7b' :: c) ∧ ¬IsOpen u := by
  unfold braced at ht
  split at ht
  · next t₁ h₁ =>
    obtain ⟨⟨k, t₂⟩, h₂, ht⟩ := Option.bind_eq_some_iff.mp ht
    obtain ⟨t₃, h₃, ht⟩ := Option.bind_eq_some_iff.mp ht
    obtain ⟨t₄, h₄, ht⟩ := Option.bind_eq_some_iff.mp ht
    obtain ⟨⟨v, t₅⟩, h₅, ht⟩ := Option.bind_eq_some_iff.mp ht
    obtain ⟨t₆, h₆, ht⟩ := Option.bind_eq_some_iff.mp ht
    obtain ⟨rfl, rfl⟩ := Prod.mk.inj (Option.some.inj ht)
    obtain ⟨w₁, rfl, g₁⟩ := exists_gap_expect h₁
    obtain ⟨w₂, c, rfl, g₂, hk⟩ := (inner_sound h).exists_gap h₂
    obtain ⟨w₃, rfl, g₃⟩ := exists_gap_expect h₃
    obtain ⟨w₄, rfl, g₄⟩ := exists_gap_expect h₄
    obtain ⟨w₅, d, rfl, g₅, hv⟩ := (inner_sound h).exists_gap h₅
    obtain ⟨w₆, rfl, g₆⟩ := exists_gap_expect h₆
    exact ⟨_, by simp, Primary.dictionary g₁ g₂ hk g₃ g₄ g₅ hv g₆, id⟩
  · obtain ⟨⟨fs, r⟩, hf, hu⟩ := Option.map_eq_some_iff.mp ht
    obtain ⟨rfl, rfl⟩ := Prod.mk.inj hu
    obtain ⟨c, hc, hfs⟩ := bracketed_sound (tableField_sound (inner_sound h)) _ _ _ hf
    exact ⟨c, hc, .table hfs, id⟩

theorem namedTail_sound (h : ∀ n, Sound (member n) (spells n))
    (hm : ∀ n t u rest, member n t = some (u, rest) → Unmarked rest) {name t rest : Text}
    {u : TypeExpr} (hname : Lua.isDotted name = true)
    (ht : namedTail member nested bound name t = some (u, rest)) :
    ∃ c, t = c ++ rest ∧ Primary spells nested u (name ++ c) ∧ (IsOpen u → Unmarked rest) := by
  unfold namedTail at ht
  split at ht
  · next hconst =>
    obtain ⟨rfl, rfl⟩ := Prod.mk.inj (Option.some.inj ht)
    exact ⟨[], rfl, by simpa using Primary.constant hconst, False.elim⟩
  · next hconst =>
    have plain : Primary spells nested (.named name []) (name ++ []) := by
      simpa using Primary.name hname hconst
    split at ht
    · next t =>
      split at ht
      · next hfun =>
        obtain ⟨⟨ps, t₁⟩, hps, hu⟩ := Option.bind_eq_some_iff.mp ht
        obtain ⟨c, rfl, hc⟩ := bracketed_sound (param_sound (inner_sound h)) _ _ _ hps
        obtain ⟨d, hd, hr, hun⟩ := returnType_sound (h nested) (hm nested) t₁
        have hu : some (function ps (returnType (member nested) nested t₁).1,
            (returnType (member nested) nested t₁).2) = some (u, rest) := hu
        obtain ⟨rfl, rfl⟩ := Prod.mk.inj (Option.some.inj hu)
        refine ⟨'(' :: (c ++ d), ?_, ?_, ?_⟩
        · conv_lhs => rw [hd]
          simp
        · rw [hfun]
          exact Primary.function hc hr
        · intro hopen
          apply hun
          cases hret : (returnType (member nested) nested t₁).1 with
          | none =>
            rw [hret] at hopen
            exact hopen.elim
          | some v => rfl
      · obtain ⟨rfl, rfl⟩ := Prod.mk.inj (Option.some.inj ht)
        exact ⟨[], rfl, plain, False.elim⟩
    · next t =>
      obtain ⟨⟨ts, r⟩, hts, hu⟩ := Option.map_eq_some_iff.mp ht
      obtain ⟨rfl, rfl⟩ := Prod.mk.inj hu
      obtain ⟨c, rfl, hc⟩ := bracketed_sound (inner_sound h) _ _ _ hts
      exact ⟨'<' :: c, rfl, .generic hname hconst hc, False.elim⟩
    · obtain ⟨rfl, rfl⟩ := Prod.mk.inj (Option.some.inj ht)
      exact ⟨[], rfl, plain, False.elim⟩

theorem not_isOpen_parenthesize (u : TypeExpr) : ¬IsOpen (parenthesize u) := by
  unfold parenthesize
  split <;> exact id

theorem primary_sound (h : ∀ n, Sound (member n) (spells n))
    (hm : ∀ n t u rest, member n t = some (u, rest) → Unmarked rest) {t rest : Text} {u : TypeExpr}
    (ht : primary member nested bound t = some (u, rest)) :
    ∃ c, t = c ++ rest ∧ Primary spells nested u c ∧ (IsOpen u → Unmarked rest) := by
  unfold primary at ht
  split at ht
  · next t =>
    obtain ⟨⟨v, t₁⟩, hv, hu⟩ := Option.bind_eq_some_iff.mp ht
    obtain ⟨t₂, hclose, hu⟩ := Option.bind_eq_some_iff.mp hu
    obtain ⟨rfl, rfl⟩ := Prod.mk.inj (Option.some.inj hu)
    obtain ⟨w, c, rfl, gw, hvc⟩ := (inner_sound h).exists_gap hv
    obtain ⟨w', rfl, gw'⟩ := exists_gap_expect hclose
    exact ⟨_, by simp, Primary.parens gw hvc gw', fun ho => (not_isOpen_parenthesize v ho).elim⟩
  · next t =>
    obtain ⟨⟨ts, r⟩, hts, hu⟩ := Option.map_eq_some_iff.mp ht
    obtain ⟨rfl, rfl⟩ := Prod.mk.inj hu
    obtain ⟨c, rfl, hc⟩ := bracketed_sound (inner_sound h) _ _ _ hts
    exact ⟨'[' :: c, rfl, .tuple hc, False.elim⟩
  · next t =>
    obtain ⟨c, rfl, hc, hopen⟩ := braced_sound h ht
    exact ⟨'\x7b' :: c, rfl, hc, fun ho => (hopen ho).elim⟩
  · next t =>
    obtain ⟨⟨s, r⟩, hs, hu⟩ := Option.map_eq_some_iff.mp ht
    obtain ⟨rfl, rfl⟩ := Prod.mk.inj hu
    obtain ⟨rfl, ha⟩ := quotedTail_rereads '\x22' (by decide) hs
    exact ⟨'\x22' :: s, rfl, .quoted (Or.inl rfl) (by simpa using ha []), False.elim⟩
  · next t =>
    obtain ⟨⟨s, r⟩, hs, hu⟩ := Option.map_eq_some_iff.mp ht
    obtain ⟨rfl, rfl⟩ := Prod.mk.inj hu
    obtain ⟨rfl, ha⟩ := quotedTail_rereads '\x27' (by decide) hs
    exact ⟨'\x27' :: s, rfl, .quoted (Or.inr rfl) (by simpa using ha []), False.elim⟩
  · next c t hparen hbracket hbrace hdouble hsingle =>
    split at ht
    · obtain ⟨⟨n, r⟩, hn, hu⟩ := Option.map_eq_some_iff.mp ht
      obtain ⟨rfl, rfl⟩ := Prod.mk.inj hu
      exact ⟨n, (number_rereads _ _ _ hn).1, .number (number_rereads.whole hn), False.elim⟩
    · obtain ⟨⟨name, t₁⟩, hname, hu⟩ := Option.bind_eq_some_iff.mp ht
      have hdotted := (Lua.isDotted_iff name).mpr (Lua.dotted?_rereads.whole hname)
      obtain ⟨d, rfl, hd⟩ := namedTail_sound h hm hdotted hu
      exact ⟨name ++ d, by simpa using (Lua.dotted?_rereads _ _ _ hname).1, hd⟩
  · cases ht

end Nesting

theorem member_unmarked {bound : Nat} {nested : Bool} {t rest : Text} {u : TypeExpr}
    (h : member bound nested t = some (u, rest)) : Unmarked rest := by
  cases bound with
  | zero => cases h
  | succ bound =>
    obtain ⟨⟨v, r⟩, hv, hu⟩ := Option.map_eq_some_iff.mp h
    have hu : suffixes v r = (u, rest) := hu
    have hr := unmarked_suffixes v r
    rw [hu] at hr
    exact hr

/-- What is read as a member of a union is spelled as one. -/
theorem member_sound (bound : Nat) (nested : Bool) :
    Sound (member bound nested) (Member bound nested) := by
  induction bound generalizing nested with
  | zero =>
    intro t u rest h
    cases h
  | succ bound ih =>
    intro t u rest h
    obtain ⟨⟨v, r⟩, hv, hu⟩ := Option.map_eq_some_iff.mp h
    have hu : suffixes v r = (u, rest) := hu
    obtain ⟨c, rfl, hc, hopen⟩ := primary_sound ih (fun _ _ _ _ => member_unmarked) hv
    obtain ⟨m, hm, hmarks⟩ := suffixes_sound v r
    rw [hu] at hm hmarks
    refine ⟨c ++ m, by rw [hm, List.append_assoc], v, c, m, hc, hmarks, ?_, rfl⟩
    intro ho
    have hr : (v, r) = (u, rest) := (hopen ho v).symm.trans hu
    rw [(Prod.mk.inj hr).2] at hm
    simpa using hm

end LuaStubs.TypeExpr.Grammar
