import LuaStubs.Proofs.Attribute.RoundTrip
import LuaStubs.Proofs.Lua.Path

namespace LuaStubs

open Text (isSpace isBlank IsSetOff)

namespace Lua

/-- A letter or an underscore, then letters, digits and underscores. -/
def Ident : Text → Prop
  | [] => False
  | c :: t => isIdentStart c = true ∧ ∀ d ∈ t, isIdentChar d = true

/-- Identifiers with dots between them. -/
inductive Dotted : Text → Prop where
  | ident {n : Text} : Ident n → Dotted n
  | more {n t : Text} : Ident n → Dotted t → Dotted (n ++ '.' :: t)

theorem isIdent_iff_ident (n : Text) : isIdent n = true ↔ Ident n := by
  cases n with
  | nil => simp [isIdent, ident?, Ident]
  | cons c t => exact isIdent_cons_iff

theorem isDotted_cons_iff (c : Char) (t : Text) :
    isDotted (c :: t) = true ↔ isIdentStart c = true ∧ (dottedTail t).2 = [] := by
  by_cases hc : isIdentStart c = true
  · cases hd : (dottedTail t).2 <;> simp [isDotted, dotted?, hc, hd]
  · simp [isDotted, dotted?, hc]

theorem dottedTail_chars {u : Text} (hu : ∀ c ∈ u, isIdentChar c = true) (t : Text) :
    (dottedTail (u ++ t)).2 = (dottedTail t).2 := by
  induction u with
  | nil => rfl
  | cons c u ih =>
    rw [List.forall_mem_cons] at hu
    rw [List.cons_append, dottedTail_cons hu.1, ih hu.2]

theorem isDotted_of_dotted {t : Text} (h : Dotted t) : isDotted t = true := by
  induction h with
  | @ident n hn =>
    cases n with
    | nil => exact hn.elim
    | cons c u =>
      have hend := dottedTail_chars hn.2 []
      rw [List.append_nil] at hend
      exact (isDotted_cons_iff c u).mpr ⟨hn.1, hend⟩
  | @more n t hn _ ih =>
    cases n with
    | nil => exact hn.elim
    | cons c u =>
      cases t with
      | nil => cases ih
      | cons d v =>
        obtain ⟨hd, hend⟩ := (isDotted_cons_iff d v).mp ih
        have htail : (dottedTail (u ++ '.' :: d :: v)).2 = [] := by
          rw [dottedTail_chars hn.2]
          simpa [dottedTail, hd] using hend
        exact (isDotted_cons_iff c _).mpr ⟨hn.1, htail⟩

theorem IsPath.dotted {names : List Text} (h : IsPath names) :
    Dotted (['.'].intercalate names) := by
  obtain ⟨hne, hall⟩ := h
  induction names with
  | nil => exact absurd rfl hne
  | cons n names ih =>
    rw [List.forall_mem_cons] at hall
    have hn := (isIdent_iff_ident n).mp hall.1
    cases names with
    | nil =>
      rw [List.intercalate_singleton]
      exact .ident hn
    | cons m names =>
      rw [List.intercalate_cons_cons, List.append_assoc]
      exact .more hn (ih (by simp) hall.2)

theorem isDotted_iff_dotted (t : Text) : isDotted t = true ↔ Dotted t := by
  refine ⟨fun h => ?_, isDotted_of_dotted⟩
  have hpath := (isPath_splitOn h).dotted
  rwa [List.intercalate_splitOn] at hpath

end Lua

namespace Attribute

section Admitted

/-- A dotted path, and the name of a method after a colon if there is one. -/
def IsFunctionName (name : Text) : Prop :=
  ∃ path, Lua.Dotted path ∧
    (name = path ∨ ∃ method, Lua.Ident method ∧ name = path ++ ':' :: method)

theorem isSome_functionName?_iff (name : Text) :
    (functionName? name).isSome = true ↔ IsFunctionName name := by
  constructor
  · intro h
    unfold functionName? at h
    split at h
    · next path hread =>
      obtain ⟨hname, -⟩ := Lua.dotted?_rereads _ _ _ hread
      have hpath := (Lua.isDotted_iff path).mpr (Lua.dotted?_rereads.whole hread)
      exact ⟨path, (Lua.isDotted_iff_dotted path).mp hpath, .inl (by rw [hname, List.append_nil])⟩
    · next path method hread =>
      obtain ⟨hname, -⟩ := Lua.dotted?_rereads _ _ _ hread
      have hpath := (Lua.isDotted_iff path).mpr (Lua.dotted?_rereads.whole hread)
      split at h
      · next hmethod =>
        exact ⟨path, (Lua.isDotted_iff_dotted path).mp hpath,
          .inr ⟨method, (Lua.isIdent_iff_ident method).mp hmethod, hname⟩⟩
      · cases h
    · cases h
  · rintro ⟨path, hpath, hname⟩
    have hread := (Lua.isDotted_iff path).mp (Lua.isDotted_of_dotted hpath)
    obtain rfl | ⟨method, hmethod, rfl⟩ := hname
    · simp [functionName?, hread]
    · have hcolon : Lua.WordEnds (':' :: method) := by
        intro c hc
        obtain rfl := Option.some.inj hc
        decide
      have hmethod := (Lua.isIdent_iff_ident method).mpr hmethod
      simp [functionName?, (Lua.dotted?_rereads _ _ _ hread).2 _ hcolon, hmethod]

/-- The names that may follow the tag of a kind. -/
def NamingTag.Admits (kind : NamingTag) (name : Text) : Prop :=
  match kind with
  | .classTag => Lua.Dotted (name.takeWhile fun c => c != '<' && c != ':')
  | .tableTag | .enumTag => Lua.Dotted name
  | .functionTag => IsFunctionName name
  | .paramTag | .fieldTag | .globalTag => True

variable {kind : NamingTag} {tag name rest : Text} {pos : Position}

/-- An attribute is refused for its name and for nothing else. -/
theorem readNamed_refuses (h : ¬kind.Admits name) :
    readNamed kind tag name rest pos = .error (.invalidName tag name pos) := by
  cases kind with
  | classTag => exact if_neg (mt (Lua.isDotted_iff_dotted _).mp h)
  | tableTag | enumTag => exact if_neg (mt (Lua.isDotted_iff_dotted _).mp h)
  | functionTag =>
    have hnone : functionName? name = none := by
      rw [← Option.not_isSome_iff_eq_none, isSome_functionName?_iff]
      exact h
    rw [readNamed, hnone]
  | paramTag | fieldTag | globalTag => exact absurd trivial h

theorem readNamed_accepts (h : kind.Admits name) :
    ∃ p, readNamed kind tag name rest pos = .ok p := by
  cases kind with
  | classTag => exact ⟨_, if_pos ((Lua.isDotted_iff_dotted _).mpr h)⟩
  | tableTag | enumTag => exact ⟨_, if_pos ((Lua.isDotted_iff_dotted _).mpr h)⟩
  | functionTag =>
    obtain ⟨r, hr⟩ := Option.isSome_iff_exists.mp ((isSome_functionName?_iff name).mpr h)
    exact ⟨_, by rw [readNamed, hr]⟩
  | paramTag | fieldTag | globalTag => exact ⟨_, rfl⟩

theorem readNamed_error_iff {e : DocError} : readNamed kind tag name rest pos = .error e ↔
    ¬kind.Admits name ∧ e = .invalidName tag name pos := by
  by_cases hadmits : kind.Admits name
  · obtain ⟨p, hp⟩ : ∃ p, readNamed kind tag name rest pos = .ok p := readNamed_accepts hadmits
    simp [hp, hadmits]
  · simp [readNamed_refuses hadmits, hadmits, eq_comm]

end Admitted

section Ends

/-- The number of open angle brackets, from that in front of a character. -/
def angleStep (depth : Nat) (c : Char) : Nat :=
  if c = '<' then depth + 1 else if c = '>' then depth - 1 else depth

/-- The angle brackets that a text leaves open; one that closes none has no effect. -/
def openAngles (t : Text) : Nat := t.foldl angleStep 0

/-- A character that ends the name of a class if so many angle brackets are open. -/
def EndsClass (depth : Nat) (c : Char) : Prop := c = '\n' ∨ isSpace c = true ∧ depth = 0

/--
A character that ends a name after what stands before it: white space, which in the name of a class
has to stand outside of angle brackets or end the line.
-/
def NamingTag.Ends (kind : NamingTag) (before : Text) (c : Char) : Prop :=
  match kind with
  | .classTag => EndsClass (openAngles before) c
  | _ => isSpace c = true

/-- A text after a tag is cut where its name begins and where it ends. -/
structure NamingTag.Cuts (kind : NamingTag) (lead name rest : Text) : Prop where
  lead : ∀ c ∈ lead, isBlank c = true
  ne_nil : name ≠ []
  inside : ∀ before c after, name = before ++ c :: after → ¬kind.Ends before c
  ends : ∀ c ∈ rest.head?, kind.Ends name c

theorem endsClass_iff (depth : Nat) (c : Char) :
    EndsClass depth c ↔ (c = '\n' || (isSpace c && depth == 0)) = true := by
  simp [EndsClass]

theorem classSpan_stop {depth : Nat} {c : Char} (h : EndsClass depth c) (t : Text) :
    classSpan depth (c :: t) = ([], c :: t) := if_pos ((endsClass_iff depth c).mp h)

theorem classSpan_cons {depth : Nat} {c : Char} (h : ¬EndsClass depth c) (t : Text) :
    classSpan depth (c :: t) =
      (c :: (classSpan (angleStep depth c) t).1, (classSpan (angleStep depth c) t).2) :=
  if_neg (mt (endsClass_iff depth c).mpr h)

theorem classSpan_ends (depth : Nat) (t : Text) :
    (∀ before c after, (classSpan depth t).1 = before ++ c :: after →
      ¬EndsClass (before.foldl angleStep depth) c) ∧
    ∀ c ∈ (classSpan depth t).2.head?,
      EndsClass ((classSpan depth t).1.foldl angleStep depth) c := by
  induction t generalizing depth with
  | nil => simp [classSpan]
  | cons d t ih =>
    by_cases hd : EndsClass depth d
    · rw [classSpan_stop hd]
      refine ⟨by simp, ?_⟩
      intro c hc
      obtain rfl : d = c := Option.some.inj hc
      exact hd
    · rw [classSpan_cons hd]
      obtain ⟨hinside, hends⟩ := ih (angleStep depth d)
      refine ⟨?_, hends⟩
      intro before c after hname
      cases before with
      | nil =>
        obtain ⟨rfl, -⟩ := List.cons.inj hname
        exact hd
      | cons b before =>
        obtain ⟨rfl, htail⟩ := List.cons.inj hname
        exact hinside before c after htail

theorem classSpan_of_ends {depth : Nat} {name rest : Text}
    (hinside : ∀ before c after, name = before ++ c :: after →
      ¬EndsClass (before.foldl angleStep depth) c)
    (hends : ∀ c ∈ rest.head?, EndsClass (name.foldl angleStep depth) c) :
    classSpan depth (name ++ rest) = (name, rest) := by
  induction name generalizing depth with
  | nil =>
    cases rest with
    | nil => rfl
    | cons c rest => exact classSpan_stop (hends c rfl) rest
  | cons c name ih =>
    have htail : classSpan (angleStep depth c) (name ++ rest) = (name, rest) := by
      refine ih ?_ hends
      intro before d after hname
      exact hinside (c :: before) d after (by rw [hname, List.cons_append])
    have hc : ¬EndsClass depth c := hinside [] c name rfl
    rw [List.cons_append, classSpan_cons hc, htail]

variable {kind : NamingTag} {lead name rest body : Text}

theorem NamingTag.Ends.isSpace {before : Text} {c : Char} (h : kind.Ends before c) :
    isSpace c = true := by
  cases kind with
  | classTag =>
    obtain rfl | ⟨hc, -⟩ := h
    · decide
    · exact hc
  | _ => exact h

theorem NamingTag.Cuts.isSetOff (h : kind.Cuts lead name rest) : IsSetOff rest :=
  fun c hc => (h.ends c hc).isSpace

/-- Only the name of a class can hold white space. -/
theorem NamingTag.Cuts.visible (h : kind.Cuts lead name rest) (hk : kind ≠ .classTag) :
    ∀ c ∈ name, isSpace c = false := by
  intro c hc
  obtain ⟨before, after, hname⟩ := List.append_of_mem hc
  have hnot := h.inside before c after hname
  cases kind with
  | classTag => exact absurd rfl hk
  | _ => exact Bool.eq_false_iff.mpr hnot

/-- What is split off is a name, if it is anything. -/
theorem NamingTag.cuts_split (h : (kind.split body).1 ≠ []) :
    kind.Cuts (body.takeWhile isBlank) (kind.split body).1 (kind.split body).2 := by
  have hlead : ∀ c ∈ body.takeWhile isBlank, isBlank c = true := fun c hc =>
    List.mem_takeWhile_imp hc
  cases kind with
  | classTag =>
    obtain ⟨hinside, hends⟩ := classSpan_ends 0 (body.dropWhile isBlank)
    exact ⟨hlead, h, hinside, hends⟩
  | _ =>
    refine ⟨hlead, h, ?_, Text.isSetOff_word _⟩
    intro before c after hname hc
    have hmem : c ∈ (firstWord body).1 := by
      rw [show (firstWord body).1 = before ++ c :: after from hname]
      simp
    exact Bool.eq_false_iff.mp (Text.not_isSpace_of_mem_word hmem) hc

theorem NamingTag.Cuts.dropWhile_eq (h : kind.Cuts lead name rest) :
    (lead ++ name ++ rest).dropWhile isBlank = name ++ rest := by
  obtain ⟨c, u, rfl⟩ := List.exists_cons_of_ne_nil h.ne_nil
  rw [List.append_assoc]
  refine (Text.span_append isBlank lead (c :: u ++ rest) h.lead ?_).2
  intro d hd
  obtain rfl : c = d := Option.some.inj hd
  by_contra hblank
  refine h.inside [] c u rfl ?_
  have hspace := Text.isSpace_of_isBlank (Bool.not_eq_false _ ▸ hblank)
  cases kind with
  | classTag => exact .inr ⟨hspace, rfl⟩
  | _ => exact hspace

theorem NamingTag.Cuts.split_eq (h : kind.Cuts lead name rest) :
    kind.split (lead ++ name ++ rest) = (name, rest) := by
  have hdrop := h.dropWhile_eq
  cases kind with
  | classTag => exact (congrArg (classSpan 0) hdrop).trans (classSpan_of_ends h.inside h.ends)
  | _ =>
    have hvisible := h.visible (by simp)
    exact (congrArg Text.word hdrop).trans (Text.word_of_isSetOff hvisible h.isSetOff)

/-- A text has a name at its front exactly if one is read there. -/
theorem NamingTag.exists_cuts_iff (kind : NamingTag) (body : Text) :
    (∃ lead name rest, body = lead ++ name ++ rest ∧ kind.Cuts lead name rest) ↔
      (kind.split body).1 ≠ [] := by
  constructor
  · rintro ⟨lead, name, rest, rfl, hcuts⟩
    rw [hcuts.split_eq]
    exact hcuts.ne_nil
  · intro h
    refine ⟨_, _, _, ?_, cuts_split h⟩
    rw [List.append_assoc, (kind.split_spec body).1, List.takeWhile_append_dropWhile]

end Ends

end Attribute

end LuaStubs
