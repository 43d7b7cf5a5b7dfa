import LuaStubs.Proofs.FieldPath

namespace LuaStubs

/-- A key whose text shows where it ends. -/
def FieldKey.Spellable : FieldKey → Prop
  | .name n => n ≠ [] ∧ '.' ∉ n ∧ '[' ∉ n
  | .index raw => raw ≠ [] ∧ ']' ∉ raw

instance : DecidablePred FieldKey.Spellable
  | .name n => inferInstanceAs (Decidable (n ≠ [] ∧ '.' ∉ n ∧ '[' ∉ n))
  | .index raw => inferInstanceAs (Decidable (raw ≠ [] ∧ ']' ∉ raw))

namespace FieldPath

/-- A path whose text shows its keys. -/
def Spellable (path : FieldPath) : Prop := ∀ k ∈ path, k.Spellable

instance : DecidablePred Spellable := fun path => inferInstanceAs (Decidable (∀ k ∈ path, _))

section Written

theorem keysFrom_name_append {read n : Text} (hdot : '.' ∉ n) (hopen : '[' ∉ n) (t : Text) :
    keysFrom (.name read) (n ++ t) = keysFrom (.name (n.reverse ++ read)) t := by
  induction n generalizing read with
  | nil => rfl
  | cons c n ih =>
    rw [List.mem_cons, not_or] at hdot hopen
    have hstep : keysFrom (.name read) (c :: (n ++ t)) = keysFrom (.name (c :: read)) (n ++ t) := by
      rw [keysFrom]
      · exact fun h => hdot.1 h.symm
      · exact fun h => hopen.1 h.symm
    rw [List.cons_append, hstep, ih hdot.2 hopen.2, List.reverse_cons, List.append_assoc]
    rfl

theorem keysFrom_index_append {read raw : Text} (hclose : ']' ∉ raw) (t : Text) :
    keysFrom (.index read) (raw ++ t) = keysFrom (.index (raw.reverse ++ read)) t := by
  induction raw generalizing read with
  | nil => rfl
  | cons c raw ih =>
    rw [List.mem_cons, not_or] at hclose
    have hstep : keysFrom (.index read) (c :: (raw ++ t)) =
        keysFrom (.index (c :: read)) (raw ++ t) := by
      rw [keysFrom]
      exact fun h => hclose.1 h.symm
    rw [List.cons_append, hstep, ih hclose.2, List.reverse_cons, List.append_assoc]
    rfl

/-- A name is read whole where one can begin: at the start of a word and after a dot. -/
theorem keysFrom_name {n : Text} (h : (FieldKey.name n).Spellable) (t : Text) :
    keysFrom .start (n ++ t) = keysFrom (.name n.reverse) t ∧
      keysFrom .dot (n ++ t) = keysFrom (.name n.reverse) t := by
  obtain ⟨hne, hdot, hopen⟩ := h
  obtain ⟨c, n, rfl⟩ := List.exists_cons_of_ne_nil hne
  rw [List.mem_cons, not_or] at hdot hopen
  have hname : keysFrom (.name [c]) (n ++ t) = keysFrom (.name (c :: n).reverse) t := by
    rw [keysFrom_name_append hdot.2 hopen.2, List.reverse_cons]
  have hc : c ≠ '.' := fun h => hdot.1 h.symm
  have hb : c ≠ '[' := fun h => hopen.1 h.symm
  constructor
  · rw [← hname, List.cons_append, keysFrom, if_neg hc]
    exact hb
  · rw [← hname, List.cons_append, keysFrom, if_neg (by simp [hc, hb])]

/-- A bracketed key is read whole after its opening bracket. -/
theorem keysFrom_index {raw : Text} (h : (FieldKey.index raw).Spellable) (t : Text) :
    keysFrom (.index []) (raw ++ ']' :: t) = (keysFrom .closed t).map (.index raw :: ·) := by
  have hne : raw.reverse ≠ [] := by simpa using h.1
  rw [keysFrom_index_append h.2, List.append_nil, keysFrom, if_neg hne, List.reverse_reverse]

/-- Behind a name, further keys are read as they are behind a bracket. -/
theorem keysFrom_tailText_name (read : Text) (ks : FieldPath) :
    keysFrom (.name read) (tailText ks) =
      (keysFrom .closed (tailText ks)).map (.name read.reverse :: ·) := by
  cases ks with
  | nil => rfl
  | cons k ks => cases k <;> rfl

theorem keysFrom_tailText {ks : FieldPath} (h : ks.Spellable) :
    keysFrom .closed (tailText ks) = some ks := by
  induction ks with
  | nil => rfl
  | cons k ks ih =>
    obtain ⟨hk, hks⟩ := List.forall_mem_cons.mp h
    rw [tailText_cons]
    cases k with
    | name n =>
      calc keysFrom .dot (n ++ tailText ks)
          = keysFrom (.name n.reverse) (tailText ks) := (keysFrom_name hk _).2
        _ = some (.name n :: ks) := by
          rw [keysFrom_tailText_name, ih hks, List.reverse_reverse]
          rfl
    | index raw =>
      calc keysFrom (.index []) (raw ++ [']'] ++ tailText ks)
          = keysFrom (.index []) (raw ++ ']' :: tailText ks) := by
            rw [List.append_assoc, List.singleton_append]
        _ = some (.index raw :: ks) := by
          rw [keysFrom_index hk, ih hks]
          rfl

/-- The text of a path is read as its keys. -/
theorem keysFrom_text {path : FieldPath} (h : path.Spellable) :
    keysFrom .start (text path) = some path := by
  cases path with
  | nil => rfl
  | cons k ks =>
    obtain ⟨hk, hks⟩ := List.forall_mem_cons.mp h
    cases k with
    | name n =>
      calc keysFrom .start (n ++ tailText ks)
          = keysFrom (.name n.reverse) (tailText ks) := (keysFrom_name hk _).1
        _ = some (.name n :: ks) := by
          rw [keysFrom_tailText_name, keysFrom_tailText hks, List.reverse_reverse]
          rfl
    | index raw => exact keysFrom_tailText h

end Written

section Read

/-- What has been read of the key at hand does not hold its end. -/
def Progress.Sound : Progress → Prop
  | .name read => read ≠ [] ∧ '.' ∉ read ∧ '[' ∉ read
  | .index read => ']' ∉ read
  | _ => True

theorem Progress.Sound.spellable {read : Text} (h : (Progress.name read).Sound) :
    (FieldKey.name read.reverse).Spellable := by
  obtain ⟨hne, hdot, hopen⟩ := h
  exact ⟨by simpa using hne, mt List.mem_reverse.mp hdot, mt List.mem_reverse.mp hopen⟩

theorem Progress.sound_name_singleton {c : Char} (hdot : c ≠ '.') (hopen : c ≠ '[') :
    (Progress.name [c]).Sound :=
  ⟨by simp, by simpa using hdot.symm, by simpa using hopen.symm⟩

theorem spellable_keysFrom {p : Progress} {t : Text} {ks : FieldPath} (hp : p.Sound)
    (h : keysFrom p t = some ks) : ks.Spellable := by
  fun_induction keysFrom p t generalizing ks with
  | case1 | case16 =>
    obtain rfl := Option.some.inj h
    simp [Spellable]
  | case2 t ih | case18 t ih => exact ih (by simp [Progress.Sound]) h
  | case17 t ih => exact ih trivial h
  | case3 | case5 | case6 | case12 | case13 | case19 => cases h
  | case4 c t hopen hdot ih => exact ih (Progress.sound_name_singleton hdot hopen) h
  | case7 c t hc ih =>
    simp only [Bool.or_eq_true, decide_eq_true_eq, not_or] at hc
    exact ih (Progress.sound_name_singleton hc.1 hc.2) h
  | case8 read =>
    obtain rfl := Option.some.inj h
    exact List.forall_mem_singleton.mpr hp.spellable
  | case9 read t ih =>
    obtain ⟨js, hjs, rfl⟩ := Option.map_eq_some_iff.mp h
    exact List.forall_mem_cons.mpr ⟨hp.spellable, ih trivial hjs⟩
  | case10 read t ih =>
    obtain ⟨js, hjs, rfl⟩ := Option.map_eq_some_iff.mp h
    exact List.forall_mem_cons.mpr ⟨hp.spellable, ih (by simp [Progress.Sound]) hjs⟩
  | case11 read c t hdot hopen ih =>
    have hd : '.' ≠ c := fun hc => hdot hc.symm
    have hb : '[' ≠ c := fun hc => hopen hc.symm
    exact ih ⟨by simp, List.not_mem_cons_of_ne_of_not_mem hd hp.2.1,
      List.not_mem_cons_of_ne_of_not_mem hb hp.2.2⟩ h
  | case14 read t hne ih =>
    obtain ⟨js, hjs, rfl⟩ := Option.map_eq_some_iff.mp h
    have hkey : (FieldKey.index read.reverse).Spellable :=
      ⟨by simpa using hne, mt List.mem_reverse.mp hp⟩
    exact List.forall_mem_cons.mpr ⟨hkey, ih trivial hjs⟩
  | case15 read c t hclose ih =>
    have hc : ']' ≠ c := fun hc => hclose hc.symm
    exact ih (List.not_mem_cons_of_ne_of_not_mem hc hp) h

end Read

/--
Words and paths: the path that a word spells is written as the word; a path whose keys show where
they end is what its text spells; and a word that is the text of no such path is one name.
-/
theorem ofWord_inverse :
    (∀ word : Text, text (ofWord word) = word) ∧
    (∀ path : FieldPath, path.Spellable → ofWord (text path) = path) ∧
    ∀ word : Text, (∀ path : FieldPath, path.Spellable → text path ≠ word) →
      ofWord word = [.name word] := by
  refine ⟨text_ofWord, ?_, ?_⟩
  · intro path hpath
    rw [ofWord, keysFrom_text hpath]
    rfl
  · intro word hnone
    cases h : keysFrom .start word with
    | none =>
      rw [ofWord, h]
      rfl
    | some ks =>
      have hks : ks.Spellable := spellable_keysFrom (p := .start) trivial h
      have htext : text ks = word := by
        have hword := text_ofWord word
        rwa [ofWord, h] at hword
      exact absurd htext (hnone ks hks)

/-- A dot and a bracket inside brackets are part of the key; a name cannot follow them directly. -/
theorem ofWord_inverse_brackets :
    Spellable [.index ['.', '['], .name ['a'], .index ['1']] ∧
    ofWord "[.[].a[1]" = [.index ['.', '['], .name ['a'], .index ['1']] ∧
    ofWord "a[1]b" = [.name "a[1]b"] := by
  have hpath : Spellable [.index ['.', '['], .name ['a'], .index ['1']] := by decide
  refine ⟨hpath, ofWord_inverse.2.1 _ hpath, ofWord_inverse.2.2 _ ?_⟩
  intro path hpath htext
  have hread : keysFrom .start (text path) = none := by
    rw [htext]
    decide
  rw [keysFrom_text hpath] at hread
  cases hread

end FieldPath

end LuaStubs
