import LuaStubs.Lua.Stub
import LuaStubs.Proofs.Attribute.Parts
import LuaStubs.Proofs.TypeExpr.Ambiguity

namespace LuaStubs

open Text (isSpace isBlank IsGuarded)

namespace TypeExpr

open Grammar

/-- A quoted string, which ends at the first quote that no backslash guards. -/
def IsString (t : Text) : Prop :=
  ∃ q s, (q = '\x22' ∨ q = '\x27') ∧ quotedTail q s = some (s, []) ∧ t = q :: s

theorem IsString.isGuarded {t : Text} (h : IsString t) : IsGuarded t := by
  obtain ⟨q, s, hq, hs, rfl⟩ := h
  exact isGuarded_quoted hq hs

/-- A line that ends in a quoted string ends between its quotes. -/
theorem IsString.inside {t before after : Text} (h : IsString t)
    (ht : t = before ++ '\n' :: after) : (Surroundings.after {} before).string ≠ none := by
  obtain ⟨q, s, hq, hs, rfl⟩ := h
  have hquote : Surroundings.isQuote q = true := by simpa [Surroundings.isQuote] using hq
  have hesc : q ≠ '\\' := by obtain rfl | rfl := hq <;> decide
  cases before with
  | nil =>
    obtain ⟨rfl, -⟩ := List.cons.inj ht
    cases hquote
  | cons d before =>
    obtain ⟨rfl, hsplit⟩ := List.cons.inj ht
    rw [Surroundings.after_cons, Surroundings.step_quote rfl hquote]
    exact ((after_quotedTail hesc _ hs rfl).2 before '\n' after hsplit).1

theorem Grammar.eq_literal_of_marks {u v : TypeExpr} {m value : Text} (h : Marks u v m)
    (hv : v = .literal value) : u = .literal value := by
  induction h with
  | none => exact hv
  | array _ ih => cases ih hv
  | optional _ ih =>
    have hopt := ih hv
    unfold orNothing at hopt
    split at hopt <;> cases hopt

theorem Grammar.primary_literal {spells : Bool → TypeExpr → Text → Prop} {nested : Bool}
    {u : TypeExpr} {c value : Text} (h : Primary spells nested u c) (hu : u = .literal value) :
    IsString value ∨ ∀ c ∈ value, isWordChar c = true := by
  cases h with
  | parens =>
    unfold parenthesize at hu
    split at hu <;> cases hu
  | @quoted q s hq hs =>
    obtain rfl := TypeExpr.literal.inj hu
    exact .inl ⟨q, s, hq, hs, rfl⟩
  | number hn =>
    obtain rfl := TypeExpr.literal.inj hu
    exact .inr (wordChars_of_number hn)
  | constant hname =>
    obtain rfl := TypeExpr.literal.inj hu
    obtain rfl | rfl | rfl := hname <;> exact .inr (List.all_eq_true.mp (by decide))
  | tuple | dictionary | table | name | generic | function => cases hu

/-- A literal is a quoted string, or made of the characters of names and numbers. -/
theorem literal_of_read? {t value : Text} {r : Reading} (h : read? t = some r)
    (hr : r.type = .literal value) : IsString value ∨ ∀ c ∈ value, isWordChar c = true := by
  obtain ⟨c, -, hspelled⟩ := read?_sound h
  rw [hr] at hspelled
  generalize r.ambiguous = spaced at hspelled
  cases hspelled with
  | single hmember =>
    obtain ⟨u, p, m, hprimary, hmarks, -⟩ := hmember
    exact primary_literal hprimary (eq_literal_of_marks hmarks rfl)

end TypeExpr

section Names

theorem FieldKey.newline_not_mem_expr {k : FieldKey} {first : Bool} (h : '\n' ∉ k.text first) :
    '\n' ∉ k.expr first := by
  cases k with
  | index raw => exact h
  | name n =>
    have hn : '\n' ∉ n := by
      intro hmem
      apply h
      cases first <;> simp [FieldKey.text, hmem]
    rw [FieldKey.expr, Lua.nameKey]
    split
    · simp [Lua.bracketed, hn]
    · cases first <;> simp [hn]

/-- Written as an expression, a name of one line stays on it. -/
theorem FieldPath.newline_not_mem_expr {path : FieldPath} (h : '\n' ∉ path.text) :
    '\n' ∉ path.expr := by
  cases path with
  | nil => exact h
  | cons k ks =>
    rw [FieldPath.text, List.mem_append, not_or] at h
    rw [FieldPath.expr, List.mem_append, not_or]
    refine ⟨FieldKey.newline_not_mem_expr h.1, ?_⟩
    intro hmem
    obtain ⟨t, ht, hnewline⟩ := List.mem_flatten.mp hmem
    obtain ⟨k', hk', rfl⟩ := List.mem_map.mp ht
    refine FieldKey.newline_not_mem_expr ?_ hnewline
    intro htext
    exact h.2 (List.mem_flatten.mpr ⟨_, List.mem_map_of_mem hk', htext⟩)

end Names

theorem Text.splitOn_eq_singleton_iff {sep : Char} {t : Text} : t.splitOn sep = [t] ↔ sep ∉ t := by
  refine ⟨fun h => ?_, List.splitOn_eq_singleton⟩
  apply Text.not_mem_of_mem_splitOn (t := t)
  rw [h]
  exact List.mem_singleton.mpr rfl

namespace Field

/-- The lines of an assignment are those of its comment and those of the assignment itself. -/
theorem splitOn_assignment {indent : Text} (hindent : '\n' ∉ indent) (f : Field) :
    ∃ remarks : List Text, (f.assignment indent).splitOn '\n' =
        remarks.map (indent ++ "---" ++ ·) ++
          (indent ++ f.name.expr ++ " = " ++ f.initialValue).splitOn '\n' ∧
      ['\n'].intercalate remarks = f.remark := by
  unfold assignment
  split
  · next hnone => exact ⟨[], rfl, hnone.symm⟩
  · next hsome =>
    refine ⟨f.remark.splitOn '\n', ?_, List.intercalate_splitOn '\n'⟩
    have hmarked : (Lua.comment indent f.remark).splitOn '\n' =
        (f.remark.splitOn '\n').map (indent ++ "---" ++ ·) := by
      rw [Lua.comment, if_neg hsome]
      apply List.splitOn_intercalate
      · intro l hl
        obtain ⟨m, hm, rfl⟩ := List.mem_map.mp hl
        simp [hindent, Text.not_mem_of_mem_splitOn hm]
      · simp [List.splitOn_ne_nil]
    rw [← hmarked, List.append_assoc]
    exact List.splitOn_append_cons_self _ _

theorem initialValue_eq (f : Field) :
    f.initialValue = "nil" ∨ f.type = some (.literal f.initialValue) := by
  unfold initialValue
  cases f.type with
  | none => exact .inl rfl
  | some type =>
    cases type with
    | literal value => exact .inr rfl
    | _ => exact .inl rfl

end Field

namespace Attribute

/-- The value of a field is a quoted string, or made of the characters of names and numbers. -/
theorem ReadsField.initialValue {tag word rest : Text} {pos : Position} {f : Field}
    {events : List Event} (h : ReadsField tag word rest pos f events) :
    TypeExpr.IsString f.initialValue ∨ ∀ c ∈ f.initialValue, TypeExpr.isWordChar c = true := by
  obtain hnil | htype := f.initialValue_eq
  · rw [hnil]
    exact .inr (List.all_eq_true.mp (by decide))
  · cases h with
    | missing => cases htype
    | typed hread _ => exact TypeExpr.literal_of_read? hread (Option.some.inj htype)
    | verbatim => cases htype

/--
A field that was read is assigned after lines that are marked as comments and say what there is to
say of it. Its name is on one line and its value is `nil` or a literal, so the assignment is one
line exactly if the value is. The value leaves no string open, and where a line ends in it, it is
inside a string.
-/
theorem lines_assignment (tag body indent : Text) (pos : Position) (p : AttributeReading)
    (f : Field) (h : read tag body pos = .ok p) (hf : p.value = .field f ∨ p.value = .global f)
    (hindent : ∀ c ∈ indent, isBlank c = true) :
    ∃ remarks : List Text, (f.assignment indent).splitOn '\n' =
        remarks.map (indent ++ "---" ++ ·) ++
          (indent ++ f.name.expr ++ " = " ++ f.initialValue).splitOn '\n' ∧
      ['\n'].intercalate remarks = f.remark ∧ '\n' ∉ f.name.expr ∧
      (f.initialValue = "nil" ∨ f.type = some (.literal f.initialValue)) ∧
      ((indent ++ f.name.expr ++ " = " ++ f.initialValue).splitOn '\n' =
        [indent ++ f.name.expr ++ " = " ++ f.initialValue] ↔ '\n' ∉ f.initialValue) ∧
      Text.IsOutside f.initialValue ∧
      ∀ before after, f.initialValue = before ++ '\n' :: after →
        (Surroundings.after {} before).string ≠ none := by
  obtain ⟨kind, lead, word, rest, hk, -, hcuts, hreads⟩ := read_field h hf
  have hindent : '\n' ∉ indent := fun hmem => absurd (hindent '\n' hmem) (by decide)
  have hname : '\n' ∉ f.name.expr := by
    apply FieldPath.newline_not_mem_expr
    rw [hreads.text_name]
    exact fun hmem => absurd (hcuts.visible hk '\n' hmem) (by decide)
  have hline : (indent ++ f.name.expr ++ " = " ++ f.initialValue).splitOn '\n' =
      [indent ++ f.name.expr ++ " = " ++ f.initialValue] ↔ '\n' ∉ f.initialValue := by
    rw [Text.splitOn_eq_singleton_iff]
    simp [hindent, hname]
  obtain ⟨remarks, hlines, hremark⟩ := f.splitOn_assignment hindent
  refine ⟨remarks, hlines, hremark, hname, f.initialValue_eq, hline, ?_⟩
  obtain hstring | hword := hreads.initialValue
  · exact ⟨hstring.isGuarded.returns {} rfl, fun before after => hstring.inside⟩
  · refine ⟨(TypeExpr.isGuarded_of_wordChars hword).returns {} rfl, ?_⟩
    intro before after hsplit
    exact absurd (hword '\n' (by simp [hsplit])) (by decide)

/-- Two apostrophes make a string of the words between them, which goes over the end of a line. -/
theorem read_apostrophes : read "field" " x 'tis the\nplayers' name.\n" ⟨1, 1⟩ = .ok
    { value := .field ⟨[.name "x"], some (.literal "'tis the\nplayers'"), " name.\n"⟩ } := by
  decide +kernel

theorem lines_assignment_apostrophes : ∃ f : Field,
    read "field" " x 'tis the\nplayers' name.\n" ⟨1, 1⟩ = .ok { value := .field f } ∧
    (f.assignment ['\t']).splitOn '\n' =
      ["\t---name.".toList, "\tx = 'tis the".toList, "players'".toList] ∧
    ∃ remarks : List Text, (f.assignment ['\t']).splitOn '\n' =
        remarks.map (['\t'] ++ "---" ++ ·) ++
          (['\t'] ++ f.name.expr ++ " = " ++ f.initialValue).splitOn '\n' ∧
      ['\n'].intercalate remarks = f.remark ∧ Text.IsOutside f.initialValue ∧
      ∀ before after, f.initialValue = before ++ '\n' :: after →
        (Surroundings.after {} before).string ≠ none := by
  obtain ⟨remarks, hlines, hremark, -, -, -, houtside, hinside⟩ :=
    lines_assignment _ _ ['\t'] _ _ _ read_apostrophes (.inl rfl) (List.all_eq_true.mp (by decide))
  exact ⟨_, read_apostrophes, by decide +kernel, remarks, hlines, hremark, houtside, hinside⟩

/-- Such a field leaves a line of documentation that is neither a comment nor its assignment. -/
theorem not_forall_last_line : ¬∀ (tag body indent : Text) (pos : Position)
    (p : AttributeReading) (f : Field), read tag body pos = .ok p →
    p.value = .field f ∨ p.value = .global f → (∀ c ∈ indent, isBlank c = true) →
    ∃ (comments : List Text) (value : Text), (f.assignment indent).splitOn '\n' =
        comments ++ [indent ++ f.name.expr ++ " = " ++ value] ∧
      (∀ l ∈ comments, indent ++ "---".toList <+: l) ∧
      (value = "nil" ∨ f.type = some (.literal value)) := by
  intro hall
  obtain ⟨comments, value, hlines, -⟩ := hall _ _ [] _ _ _ read_apostrophes (.inl rfl) (by simp)
  have hlast := congrArg List.getLast? hlines
  rw [List.getLast?_concat] at hlast
  have hleft : ((Field.assignment [] ⟨[.name "x"], some (.literal "'tis the\nplayers'"),
      " name.\n"⟩).splitOn '\n').getLast? = some "players'".toList := by
    decide +kernel
  cases hleft.symm.trans hlast

end Attribute

end LuaStubs
