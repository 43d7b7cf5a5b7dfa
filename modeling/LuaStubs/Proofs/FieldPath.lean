import LuaStubs.FieldPath

namespace LuaStubs.FieldPath

/-- Keys as they are written after another key. -/
def tailText (ks : FieldPath) : Text := (ks.map (FieldKey.text false)).flatten

theorem tailText_cons (k : FieldKey) (ks : FieldPath) :
    tailText (k :: ks) = k.text false ++ tailText ks := rfl

/-- What has been read of the key at hand, as it stands after another key. -/
def Progress.written : Progress → Text
  | .start => []
  | .dot => ['.']
  | .name read => '.' :: read.reverse
  | .index read => '[' :: read.reverse
  | .closed => []

/-- The keys that are read are written as the rest of the word after the key at hand. -/
theorem tailText_keysFrom {p : Progress} {t : Text} {ks : FieldPath} (hp : p ≠ .start)
    (h : keysFrom p t = some ks) : tailText ks = p.written ++ t := by
  -- the cases follow the key at hand: none yet, a dot, a name, an index, a closed index
  fun_induction keysFrom p t generalizing ks with
  | case1 | case2 | case3 | case4 => exact absurd rfl hp
  | case5 | case6 | case12 | case13 | case19 => cases h
  | case7 c t _ ih => exact ih (by simp) h
  | case8 read =>
    obtain rfl := Option.some.inj h
    rfl
  | case9 read t ih =>
    obtain ⟨js, hjs, rfl⟩ := Option.map_eq_some_iff.mp h
    rw [tailText_cons, ih (by simp) hjs]
    rfl
  | case10 read t ih =>
    obtain ⟨js, hjs, rfl⟩ := Option.map_eq_some_iff.mp h
    rw [tailText_cons, ih (by simp) hjs]
    rfl
  | case11 read c t _ _ ih =>
    rw [ih (by simp) h]
    simp [Progress.written]
  | case14 read t _ ih =>
    obtain ⟨js, hjs, rfl⟩ := Option.map_eq_some_iff.mp h
    rw [tailText_cons, ih (by simp) hjs]
    simp [FieldKey.text, Lua.bracketed, Progress.written]
  | case15 read c t _ ih =>
    rw [ih (by simp) h]
    simp [Progress.written]
  | case16 =>
    obtain rfl := Option.some.inj h
    rfl
  | case17 t ih => exact ih (by simp) h
  | case18 t ih => exact ih (by simp) h

/-- A path that could stand after a dot stands as well without it. -/
theorem text_of_tailText_dot {ks : FieldPath} {t : Text} (h : tailText ks = '.' :: t) :
    text ks = t := by
  cases ks with
  | nil => cases h
  | cons k ks =>
    cases k with
    | name n => exact (List.cons.inj h).2
    | index raw => cases h

theorem text_of_tailText_bracket {ks : FieldPath} {t : Text} (h : tailText ks = '[' :: t) :
    text ks = '[' :: t := by
  cases ks with
  | nil => cases h
  | cons k ks =>
    cases k with
    | name n => cases h
    | index raw => exact h

theorem text_ofWord (word : Text) : text (ofWord word) = word := by
  unfold ofWord
  cases h : keysFrom .start word with
  | none => simp [text, FieldKey.text]
  | some ks =>
    cases word with
    | nil =>
      obtain rfl := Option.some.inj h
      rfl
    | cons c t =>
      by_cases hb : c = '['
      · subst hb
        have hindex : keysFrom (.index []) t = some ks := h
        exact text_of_tailText_bracket (tailText_keysFrom (by simp) hindex)
      · by_cases hd : c = '.'
        · subst hd
          cases h
        · have hname : keysFrom (.name [c]) t = some ks := by simpa [keysFrom, hb, hd] using h
          exact text_of_tailText_dot (tailText_keysFrom (by simp) hname)

/-- Names are made of the characters of the word, without its dots. -/
theorem names_of_keysFrom {Q : Char → Prop} {p : Progress} {t : Text} {ks : FieldPath}
    (hp : ∀ read, p = .name read → read ≠ [] ∧ ∀ c ∈ read, c ≠ '.' ∧ Q c) (ht : ∀ c ∈ t, Q c)
    (h : keysFrom p t = some ks) :
    ∀ n, FieldKey.name n ∈ ks → n ≠ [] ∧ ∀ c ∈ n, c ≠ '.' ∧ Q c := by
  have hname {read : Text} {js : FieldPath} (hread : read ≠ [] ∧ ∀ c ∈ read, c ≠ '.' ∧ Q c)
      (hjs : ∀ n, FieldKey.name n ∈ js → n ≠ [] ∧ ∀ c ∈ n, c ≠ '.' ∧ Q c) :
      ∀ n, FieldKey.name n ∈ FieldKey.name read.reverse :: js →
        n ≠ [] ∧ ∀ c ∈ n, c ≠ '.' ∧ Q c := by
    intro n hn
    obtain hn | hn := List.mem_cons.mp hn
    · obtain rfl := FieldKey.name.inj hn
      simpa using hread
    · exact hjs n hn
  fun_induction keysFrom p t generalizing ks with
  | case1 | case16 =>
    obtain rfl := Option.some.inj h
    simp
  | case2 t ih | case17 t ih | case18 t ih =>
    exact ih (by simp) (fun c hc => ht c (List.mem_cons_of_mem _ hc)) h
  | case3 | case5 | case6 | case12 | case13 | case19 => cases h
  | case4 c t _ hdot ih =>
    rw [List.forall_mem_cons] at ht
    refine ih ?_ ht.2 h
    rintro read ⟨⟩
    exact ⟨by simp, by simpa using ⟨hdot, ht.1⟩⟩
  | case7 c t hc ih =>
    rw [List.forall_mem_cons] at ht
    refine ih ?_ ht.2 h
    rintro read ⟨⟩
    simp only [Bool.or_eq_true, decide_eq_true_eq, not_or] at hc
    exact ⟨by simp, by simpa using ⟨hc.1, ht.1⟩⟩
  | case8 read =>
    obtain rfl := Option.some.inj h
    exact hname (hp read rfl) (by simp)
  | case9 read t ih | case10 read t ih =>
    obtain ⟨js, hjs, rfl⟩ := Option.map_eq_some_iff.mp h
    exact hname (hp read rfl) (ih (by simp) (fun c hc => ht c (List.mem_cons_of_mem _ hc)) hjs)
  | case11 read c t hdot _ ih =>
    rw [List.forall_mem_cons] at ht
    refine ih ?_ ht.2 h
    rintro read' ⟨⟩
    have hc : c ≠ '.' := fun hc => hdot hc
    exact ⟨by simp, List.forall_mem_cons.mpr ⟨⟨hc, ht.1⟩, (hp read rfl).2⟩⟩
  | case14 read t _ ih =>
    obtain ⟨js, hjs, rfl⟩ := Option.map_eq_some_iff.mp h
    have hjs := ih (by simp) (fun c hc => ht c (List.mem_cons_of_mem _ hc)) hjs
    intro n hn
    exact hjs n (by simpa using hn)
  | case15 read c t _ ih =>
    exact ih (by simp) (fun c hc => ht c (List.mem_cons_of_mem _ hc)) h

/-- A path of several keys has no dots inside its names. -/
def Plain (path : FieldPath) : Prop := path.length ≤ 1 ∨ ∀ n, FieldKey.name n ∈ path → '.' ∉ n

theorem plain_ofWord (word : Text) : (ofWord word).Plain := by
  unfold ofWord
  cases h : keysFrom .start word with
  | none => exact .inl (Nat.le_refl 1)
  | some ks =>
    have hnames := names_of_keysFrom (Q := fun _ => True) (by simp) (by simp) h
    refine .inr fun n hn hdot => ?_
    exact ((hnames n hn).2 '.' hdot).1 rfl

/-- A path of some keys, with names that hold no white space and are not empty. -/
structure Visible (path : FieldPath) : Prop where
  ne_nil : path ≠ []
  names : ∀ n, FieldKey.name n ∈ path → n ≠ [] ∧ ∀ c ∈ n, Text.isSpace c = false

theorem visible_ofWord {word : Text} (hne : word ≠ []) (h : ∀ c ∈ word, Text.isSpace c = false) :
    (ofWord word).Visible := by
  constructor
  · intro hnil
    have htext := text_ofWord word
    rw [hnil] at htext
    exact hne htext.symm
  · unfold ofWord
    cases hks : keysFrom .start word with
    | none => simpa using ⟨hne, h⟩
    | some ks =>
      intro n hn
      obtain ⟨hn, hchars⟩ := names_of_keysFrom (by simp) h hks n hn
      exact ⟨hn, fun c hc => (hchars c hc).2⟩

/-- The first of the plain names are the first keys. -/
theorem take_eq_map_frontNames {path : FieldPath} {n : Nat} (h : n ≤ path.frontNames.length) :
    path.take n = (path.frontNames.take n).map .name := by
  fun_induction frontNames path generalizing n with
  | case1 name ks ih =>
    cases n with
    | zero => rfl
    | succ n =>
      rw [List.take_succ_cons, List.take_succ_cons, List.map_cons, ih (Nat.le_of_succ_le_succ h)]
  | case2 =>
    obtain rfl := Nat.le_zero.mp h
    rfl

theorem frontNames_append (names : List Text) (ks : FieldPath) :
    frontNames (names.map .name ++ ks) = names ++ frontNames ks := by
  induction names with
  | nil => rfl
  | cons n names ih => exact congrArg (n :: ·) ih

end LuaStubs.FieldPath
