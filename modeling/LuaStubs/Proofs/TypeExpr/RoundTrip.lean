import LuaStubs.Proofs.Text.Parts
import LuaStubs.Proofs.TypeExpr.TrailingSpace

namespace LuaStubs.TypeExpr

open Text (byteLength_append)

theorem texts_eq_map (ts : List TypeExpr) : texts ts = ts.map text := by
  induction ts with
  | nil => rfl
  | cons t ts ih => simp [texts, ih]

theorem fieldTexts_eq_map (fs : List (Text × TypeExpr)) :
    fieldTexts fs = fs.map fun f => f.1 ++ ": " ++ text f.2 := by
  induction fs with
  | nil => rfl
  | cons f fs ih => simp [fieldTexts, ih]

theorem paramTexts_eq_map (ps : List (Text × Option TypeExpr)) :
    paramTexts ps = ps.map fun p => p.1 ++ typeTail p.2 := by
  induction ps with
  | nil => rfl
  | cons p ps ih => simp [paramTexts, ih]

theorem text_parenthesize (u : TypeExpr) : text (parenthesize u) = '(' :: (text u ++ [')']) := by
  unfold parenthesize
  split <;> simp [text, texts]

namespace Grammar

theorem gap_nil (nested : Bool) : Gap nested [] := by simp [Gap]

theorem gap_space (nested : Bool) : Gap nested [' '] := by
  intro c hc
  obtain rfl : c = ' ' := by simpa using hc
  cases nested <;> decide

section Lists
variable {α : Type} {spells : α → Text → Prop} {print : α → Text} {close : Char}

theorem items_print (hp : ∀ x c, spells x c → spells x (print x)) {xs : List α} {cs w : Text}
    (h : Items spells close xs cs) (hw : Gap true w) :
    Items spells close xs (List.intercalate ", " (xs.map print) ++ (w ++ [close])) := by
  induction h with
  | last hc =>
    rw [List.map_singleton, List.intercalate_singleton]
    exact .last (hp _ _ hc) hw
  | @more x xs c w' v cs hc _ _ hcs ih =>
    have hmore := Items.more (hp _ _ hc) (gap_nil true) (gap_space true) ih
    cases hcs <;> simpa [List.intercalate_cons_cons] using hmore

theorem bracketed_print (hp : ∀ x c, spells x c → spells x (print x)) {xs : List α} {cs : Text}
    (h : Bracketed spells close xs cs) :
    Bracketed spells close xs (List.intercalate ", " (xs.map print) ++ [close]) := by
  cases h with
  | empty => exact .empty (gap_nil true)
  | filled _ hcs =>
    simpa using Bracketed.filled (gap_nil true) (items_print hp hcs (gap_nil true))

end Lists

section Unions
variable {spells : TypeExpr → Text → Prop} {nested : Bool}

theorem alternatives_print (hp : ∀ u c, spells u c → spells u u.text) {ms : List TypeExpr}
    {spaced : Bool} {cs : Text} (h : Alternatives spells nested ms spaced cs) :
    Alternatives spells nested ms false (ms.map fun m => '|' :: m.text).flatten := by
  induction h with
  | none => exact .none
  | more _ _ hc _ ih =>
    simpa using Alternatives.more (gap_nil nested) (gap_nil nested) (hp _ _ hc) ih

theorem union_print (hp : ∀ u c, spells u c → spells u u.text) {u : TypeExpr} {spaced : Bool}
    {c : Text} (h : Union spells nested u spaced c) : Union spells nested u false u.text := by
  cases h with
  | single hc => exact .single (hp _ _ hc)
  | several hc hcs =>
    have hall := Union.several (hp _ _ hc) (alternatives_print hp hcs)
    simpa [text, texts_eq_map, Text.intercalate_cons, Function.comp_def] using hall

end Unions

section Nesting
variable {spells : Bool → TypeExpr → Text → Prop} {nested : Bool}

theorem tableField_print {type : TypeExpr → Text → Prop} (hp : ∀ u c, type u c → type u u.text)
    (f : Text × TypeExpr) (c : Text) (h : TableField type f c) :
    TableField type f (f.1 ++ ": " ++ f.2.text) := by
  cases h with
  | mk hname _ _ hc => simpa using TableField.mk hname (gap_nil true) (gap_space true) (hp _ _ hc)

theorem parameter_print {type : TypeExpr → Text → Prop} (hp : ∀ u c, type u c → type u u.text)
    (p : Text × Option TypeExpr) (c : Text) (h : Parameter type p c) :
    Parameter type p (p.1 ++ typeTail p.2) := by
  cases h with
  | bare hname => exact .bare hname (gap_nil true)
  | typed hname _ _ hc =>
    simpa [typeTail] using Parameter.typed hname (gap_nil true) (gap_space true) (hp _ _ hc)

theorem returned_print {type : TypeExpr → Text → Prop} (hp : ∀ u c, type u c → type u u.text)
    {r : Option TypeExpr} {c : Text} (h : Returned type nested r c) :
    Returned type nested r (typeTail r) := by
  cases h with
  | none => exact .none
  | some _ hc => simpa [typeTail] using Returned.some (gap_space nested) (hp _ _ hc)

theorem primary_print (hp : ∀ n u c, spells n u c → spells n u u.text) {u : TypeExpr} {c : Text}
    (h : Primary spells nested u c) : Primary spells nested u u.text := by
  have hi (u : TypeExpr) (c : Text) (hc : Inner spells u c) : Inner spells u u.text := by
    obtain ⟨spaced, hu⟩ := hc
    exact ⟨false, union_print (hp true) hu⟩
  cases h with
  | parens _ hc _ =>
    rw [text_parenthesize]
    exact .parens (gap_nil true) (hi _ _ hc) (gap_nil true)
  | tuple hc =>
    have hts : Primary spells nested _ _ := .tuple (bracketed_print hi hc)
    simpa [text, texts_eq_map] using hts
  | dictionary _ _ hk _ _ _ hv _ =>
    have hd : Primary spells nested _ _ := .dictionary (gap_space true) (gap_nil true) (hi _ _ hk)
      (gap_nil true) (gap_nil true) (gap_space true) (hi _ _ hv) (gap_space true)
    simpa [text] using hd
  | @table fs c hc =>
    have hf := tableField_print hi
    -- spaces stand inside the braces only if there are fields
    cases hc with
    | empty => exact .table (.empty (gap_nil true))
    | filled _ hcs =>
      have ht : Primary spells nested _ _ := .table
        (.filled (gap_space true) (items_print hf hcs (gap_space true)))
      cases fs with
      | nil => cases hcs
      | cons f fs => simpa [text, fieldTexts_eq_map] using ht
  | quoted hq hs => exact .quoted hq hs
  | number hn => exact .number hn
  | constant hconst => exact .constant hconst
  | name hname hconst => exact .name hname hconst
  | @generic name c ts hname hconst hc =>
    have hg : Primary spells nested _ _ := .generic hname hconst (bracketed_print hi hc)
    cases ts with
    | nil => exact .name hname hconst
    | cons t ts => simpa [text, texts_eq_map] using hg
  | function hc hv =>
    have hf := Primary.function (bracketed_print (parameter_print hi) hc)
      (returned_print (hp nested) hv)
    simpa [text, paramTexts_eq_map] using hf

end Nesting

/-- The marks that the text of a type shows are those that make it. -/
theorem marks_print {u v : TypeExpr} {m : Text} (h : Marks u v m) :
    ∃ m', v.text = u.text ++ m' ∧ Marks u v m' ∧ (m = [] → m' = []) := by
  induction h with
  | none => exact ⟨[], by simp, .none, id⟩
  | @array u v m _ ih =>
    obtain ⟨m', hm, hmarks, -⟩ := ih
    exact ⟨'[' :: ']' :: m', by simp [hm, text], .array hmarks, by simp⟩
  | @optional u v m _ ih =>
    obtain ⟨m', hm, hmarks, -⟩ := ih
    by_cases hu : u.orNothing = u
    · -- a second question mark makes no other type, and is not printed
      rw [hu] at hm hmarks
      exact ⟨m', hm, hmarks, by simp⟩
    · have ho : u.orNothing = .optional u := by
        cases u <;> first | rfl | exact absurd rfl hu
      refine ⟨'?' :: m', ?_, .optional hmarks, by simp⟩
      rw [hm, ho]
      simp [text]

/-- The text of a type is one of its spellings. -/
theorem member_print (depth : Nat) (nested : Bool) (u : TypeExpr) (c : Text)
    (h : Member depth nested u c) : Member depth nested u u.text := by
  induction depth generalizing nested u c with
  | zero => exact h.elim
  | succ depth ih =>
    obtain ⟨v, p, m, hp, hm, hopen, -⟩ := h
    obtain ⟨m', hm', hmarks, hnil⟩ := marks_print hm
    exact ⟨v, v.text, m', primary_print ih hp, hmarks, fun ho => hnil (hopen ho), hm'⟩

end Grammar

open Grammar

/-- A type that is read was spelled in front of what is left. -/
theorem read?_sound {t : Text} {r : Reading} (h : read? t = some r) :
    ∃ c, t = c ++ r.rest ∧ Union (Member (t.length + 1) false) false r.type r.ambiguous c := by
  obtain ⟨⟨⟨u, spaced⟩, rest⟩, hu, rfl⟩ := Option.map_eq_some_iff.mp h
  exact unionOf_sound (member_sound (t.length + 1) false) _ _ _ hu

/-- Every spelling of a type is read, if neither a mark nor another member follows. -/
theorem read?_complete {depth : Nat} {u : TypeExpr} {spaced : Bool} {c rest : Text}
    (h : Union (Member depth false) false u spaced c) (hr : Stops rest)
    (hbar : NoBar (member ((c ++ rest).length + 1) false) false rest) :
    read? (c ++ rest) = some ⟨u, rest, spaced⟩ := by
  have hlen : c.length < (c ++ rest).length + 1 := by
    rw [List.length_append]
    omega
  have hu := unionOf_complete (member_complete _ depth false) (fun _ _ => member_opens) h
    hlen hlen.le hr hbar
  rw [read?, hu]
  rfl

theorem stops_newline {r : Text} (hr : r = [] ∨ r.head? = some '\n') : Stops r := by
  intro c hc
  obtain rfl | hr := hr
  · cases hc
  · obtain rfl : '\n' = c := Option.some.inj (hr.symm.trans hc)
    decide

theorem noBar_newline (f : Reader TypeExpr) {r : Text} (hr : r = [] ∨ r.head? = some '\n') :
    NoBar f false r := by
  intro u hu
  cases r with
  | nil => cases hu
  | cons c r =>
    obtain rfl : c = '\n' := by simpa using hr
    exact absurd hu (by simp [skipSpace, Text.isBlank, expect])

/--
Printing a type that was read and reading it again gives the same type, and takes the printed text
as a whole, without another way to read it.
-/
theorem read?_text (s r : Text) (p : Reading) (h : read? s = some p)
    (hr : r = [] ∨ r.head? = some '\n') :
    ∃ q, read? (p.type.text ++ r) = some q ∧ q.type = p.type ∧
      q.bytes (p.type.text ++ r) = Text.byteLength p.type.text ∧ q.ambiguous = false := by
  obtain ⟨c, -, hc⟩ := read?_sound h
  have hread := read?_complete (union_print (member_print _ _) hc) (stops_newline hr)
    (noBar_newline _ hr)
  refine ⟨_, hread, rfl, ?_, rfl⟩
  simp [Reading.bytes, byteLength_append]

/-- A union with spaces, marks and a function, and text on the line after it. -/
theorem read?_text_spaced : ∃ p, read? "(A |B)??[] | fun(x :C,...): D? it" = some p ∧
    p.type.text = "(A|B)?[]|fun(x: C, ...): D?" ∧ p.ambiguous = true ∧
    ∃ q, read? (p.type.text ++ "\n|E") = some q ∧ q.type = p.type ∧
      q.bytes (p.type.text ++ "\n|E") = Text.byteLength p.type.text ∧ q.ambiguous = false := by
  have h : read? "(A |B)??[] | fun(x :C,...): D? it" = some
      ⟨.union [.array (.optional (.union [.ofName ['A'], .ofName ['B']] true)),
        .function [(['x'], some (.ofName ['C'])), ("...", none)]
          (some (.optional (.ofName ['D'])))] false, " it", true⟩ := by decide +kernel
  exact ⟨_, h, by decide, rfl, read?_text _ _ _ h (Or.inr rfl)⟩

/-- A union is read as far as its members go. -/
theorem alternatives_exhaust {f : Reader TypeExpr} (hf : Shrinks f) (nested : Bool) (bound : Nat)
    (t : Text) (hb : t.length < bound) : NoBar f nested (alternatives f nested bound t).2.2 := by
  induction bound generalizing t with
  | zero => omega
  | succ bound ih =>
    unfold alternatives
    split
    · next hbar =>
      intro u hu
      rw [hbar] at hu
      cases hu
    · next u hu =>
      split
      · next hnone =>
        intro v hv
        obtain rfl : u = v := Option.some.inj (hu.symm.trans hv)
        exact hnone
      · next m v hm =>
        have hlt := length_skipSpace nested t
        have hlu := length_skipSpace nested u
        have hl := length_expect hu
        have hlv := hf _ _ _ hm
        exact ih v (by omega)

theorem read?_exhausts {t : Text} {r : Reading} (h : read? t = some r) :
    NoBar (member (t.length + 1) false) false r.rest := by
  obtain ⟨⟨u, rest⟩, hu, rfl⟩ := Option.map_eq_some_iff.mp h
  obtain ⟨⟨m, v⟩, hm, hu⟩ := Option.bind_eq_some_iff.mp hu
  have hs := member_shrinks (t.length + 1) false
  have hlv := hs _ _ _ hm
  have hbar := alternatives_exhaust hs false (t.length + 1) v (by omega)
  simp only at hu
  split at hu
  · next ha =>
    obtain ⟨-, rfl⟩ := Prod.mk.inj (Option.some.inj hu)
    rwa [ha] at hbar
  · next ha =>
    obtain ⟨-, rfl⟩ := Prod.mk.inj (Option.some.inj hu)
    rwa [ha] at hbar

theorem text_opens {t : Text} {r : Reading} (h : read? t = some r) : Opens r.type.text := by
  obtain ⟨c, -, hc⟩ := read?_sound h
  exact union_opens (fun _ _ => member_opens) (union_print (member_print _ _) hc)

/-- In front of what was left, the text of a type is read as the type. -/
theorem read?_reprint {t : Text} {r : Reading} (h : read? t = some r) (hr : Stops r.rest) :
    read? (r.type.text ++ r.rest) = some ⟨r.type, r.rest, false⟩ := by
  obtain ⟨c, hc, hspelled⟩ := read?_sound h
  apply read?_complete (union_print (member_print _ _) hspelled) hr
  intro u hu
  have hl := length_expect hu
  have hlr := length_skipSpace false r.rest
  have hlu := length_skipSpace false u
  have hlt := congrArg List.length hc
  rw [List.length_append] at hlt
  refine (member_eq_none_iff false ?_ ?_).mp (read?_exhausts h u hu)
  · omega
  · rw [List.length_append]
    omega

end LuaStubs.TypeExpr
