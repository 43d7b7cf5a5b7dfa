import LuaStubs.Proofs.Comment.Progress

namespace LuaStubs

namespace Text

/-- The bytes of a text in UTF-8. -/
def bytes (t : Text) : List UInt8 := t.flatMap String.utf8EncodeChar

theorem bytes_cons (c : Char) (t : Text) : bytes (c :: t) = String.utf8EncodeChar c ++ bytes t :=
  List.flatMap_cons

theorem bytes_append (s t : Text) : bytes (s ++ t) = bytes s ++ bytes t := List.flatMap_append

theorem byteLength_cons (c : Char) (t : Text) : byteLength (c :: t) = c.utf8Size + byteLength t :=
  rfl

theorem length_bytes (t : Text) : (bytes t).length = byteLength t := by
  induction t with
  | nil => rfl
  | cons c t ih =>
    rw [bytes_cons, List.length_append, String.length_utf8EncodeChar, ih, byteLength_cons]

section Ascii
variable {a : Char}

theorem utf8Size_ascii (ha : a.toNat < 128) : a.utf8Size = 1 :=
  Char.utf8Size_eq_one_iff.mpr (Nat.le_of_lt_succ ha)

theorem bytes_cons_ascii (ha : a.toNat < 128) (t : Text) :
    bytes (a :: t) = a.toUInt8 :: bytes t := by
  rw [bytes_cons, String.utf8EncodeChar_eq_singleton (utf8Size_ascii ha)]
  rfl

theorem byteLength_ascii {t : Text} (h : ∀ c ∈ t, c.toNat < 128) : byteLength t = t.length := by
  induction t with
  | nil => rfl
  | cons c t ih =>
    obtain ⟨hc, ht⟩ := List.forall_mem_cons.mp h
    rw [byteLength_cons, utf8Size_ascii hc, ih ht, List.length_cons, Nat.add_comm]

/-- A character other than an ASCII character begins with another byte. -/
theorem exists_utf8EncodeChar {c : Char} (ha : a.toNat < 128) (h : c ≠ a) :
    ∃ b bs, String.utf8EncodeChar c = b :: bs ∧ b ≠ a.toUInt8 := by
  have hval : c.val.toNat ≠ a.toNat := fun heq => h (Char.toNat_inj.mp heq)
  have hne {n : Nat} (hn : n % 256 ≠ a.toNat) : UInt8.ofNat n ≠ a.toUInt8 := by
    intro heq
    have hbyte : n % 256 = a.toNat % 256 := congrArg UInt8.toNat heq
    omega
  unfold String.utf8EncodeChar
  dsimp only
  split
  · exact ⟨_, _, rfl, hne (by omega)⟩
  split
  · exact ⟨_, _, rfl, hne (by omega)⟩
  split
  · exact ⟨_, _, rfl, hne (by omega)⟩
  · exact ⟨_, _, rfl, hne (by omega)⟩

theorem head?_bytes (ha : a.toNat < 128) (t : Text) :
    (bytes t).head? = some a.toUInt8 ↔ t.head? = some a := by
  cases t with
  | nil => exact iff_of_false nofun nofun
  | cons c t =>
    by_cases hc : c = a
    · simp [hc, bytes_cons_ascii ha]
    · obtain ⟨b, bs, hbs, hb⟩ := exists_utf8EncodeChar ha hc
      simp [bytes_cons, hbs, hb, hc]

theorem takeWhile_bytes (ha : a.toNat < 128) (t : Text) :
    (bytes t).takeWhile (· == a.toUInt8) = bytes (t.takeWhile (· == a)) := by
  induction t with
  | nil => rfl
  | cons c t ih =>
    by_cases hc : c = a
    · simp [hc, bytes_cons_ascii ha, ih]
    · obtain ⟨b, bs, hbs, hb⟩ := exists_utf8EncodeChar ha hc
      simp [bytes, hbs, hb, hc]

theorem ascii_of_mem_takeWhile (ha : a.toNat < 128) (t : Text) :
    ∀ c ∈ t.takeWhile (· == a), c.toNat < 128 := by
  intro c hc
  obtain rfl : c = a := by simpa using List.mem_takeWhile_imp hc
  exact ha

/-- As many bytes as characters, and after them the same text. -/
theorem run_bytes (ha : a.toNat < 128) (t : Text) :
    ((bytes t).takeWhile (· == a.toUInt8)).length = (t.takeWhile (· == a)).length ∧
      (bytes t).drop (t.takeWhile (· == a)).length = bytes (t.dropWhile (· == a)) := by
  have hlength : (bytes (t.takeWhile (· == a))).length = (t.takeWhile (· == a)).length := by
    rw [length_bytes, byteLength_ascii (ascii_of_mem_takeWhile ha t)]
  refine ⟨by rw [takeWhile_bytes ha, hlength], ?_⟩
  have hsplit : bytes t = bytes (t.takeWhile (· == a)) ++ bytes (t.dropWhile (· == a)) := by
    rw [← bytes_append, List.takeWhile_append_dropWhile]
  rw [hsplit, ← hlength]
  exact List.drop_left

end Ascii

end Text

namespace Scan
open Text (bytes byteLength)

/--
The offset after a literal, from the offset of a character inside it and whether a backslash stands
in front of this character.
-/
def literalEnd (quote : Char) : Bool → Nat → Text → Nat
  | _, i, [] => i
  | true, i, c :: t => literalEnd quote false (i + c.utf8Size) t
  | false, i, c :: t =>
    if c = '\\' then literalEnd quote true (i + 1) t
    else if c = quote then i + 1
    else literalEnd quote false (i + c.utf8Size) t

/-- The offset after `/*` at the offset `i`, with the stars counted as bytes. -/
def openerEnd (i : Nat) (afterSlash : Text) : Nat :=
  let stars := ((bytes afterSlash).takeWhile (· == '*'.toUInt8)).length
  let after := i + 1 + stars
  if 3 ≤ stars then
    if ((bytes afterSlash).drop stars).head? = some '/'.toUInt8 then after + 1 else after
  else i + 2

/-- The offset to which a step goes from the offset `i` in code. -/
def codeEnd (i : Nat) (rest : Text) : Nat :=
  match rest with
  | '/' :: '*' :: t => openerEnd i ('*' :: t)
  | '/' :: '/' :: _ => i + byteLength rest
  | '*' :: '/' :: _ => i + 2
  | '\x22' :: t => literalEnd '\x22' false (i + 1) t
  | '\x27' :: t => literalEnd '\x27' false (i + 1) t
  | _ => i + (rest.head?.map Char.utf8Size).getD 1

/-- The same, where the first thing in a line may be a `///` line. -/
def codeOffset (i : Nat) (rest : Text) : Nat :=
  if i = 0 then
    match docLine? rest with
    | some _ => i + byteLength rest
    | none => codeEnd i rest
  else codeEnd i rest

/-- The offset to which a step goes from the offset `i` in a block. -/
def blockEnd (i : Nat) (rest : Text) : Nat :=
  match Text.before? "*/" rest with
  | some inside => i + byteLength inside + 2
  | none => i + byteLength rest

/-- The offset to which a step goes from the offset `i` of a line. -/
def nextOffset (s : Scan) (i : Nat) (rest : Text) : Nat :=
  match s.mode with
  | .code => codeOffset i rest
  | .docBlock | .plainBlock => blockEnd i rest
  | .docLine => i + byteLength rest

theorem literalEnd_eq {quote : Char} (hq : quote.toNat < 128) (i : Nat) (t : Text) :
    literalEnd quote false i t = i + byteLength (t.take (literalLength quote t)) := by
  fun_induction literalLength quote t generalizing i with
  | case1 => rfl
  | case2 c t ih =>
    rw [literalEnd, if_pos rfl, literalEnd, ih]
    simp only [List.take_succ_cons, Text.byteLength_cons]
    rw [Text.utf8Size_ascii (a := '\\') (by decide)]
    omega
  | case3 t hescape =>
    rw [List.take_succ_cons, List.take_zero, Text.byteLength_cons, Text.utf8Size_ascii hq]
    by_cases hc : quote = '\\'
    · cases t with
      | nil => simp [literalEnd, hc, byteLength]
      | cons d t => exact absurd rfl (hescape d t hc)
    · simp [literalEnd, hc, byteLength]
  | case4 c t hescape hne ih =>
    rw [List.take_succ_cons, Text.byteLength_cons]
    by_cases hc : c = '\\'
    · cases t with
      | nil =>
        subst hc
        rfl
      | cons d t => exact absurd rfl (hescape d t hc)
    · rw [literalEnd, if_neg hc, if_neg hne, ih, Nat.add_assoc]

/-- The marks of an opener and the stars after them are one byte each. -/
theorem byteLength_take_opener (t : Text) (n : Nat) :
    byteLength (('/' :: '*' :: t).take ((t.takeWhile (· == '*')).length + 2 + n)) =
      (t.takeWhile (· == '*')).length + 2 + byteLength ((t.dropWhile (· == '*')).take n) := by
  have hsplit : '/' :: '*' :: t =
      ('/' :: '*' :: t.takeWhile (· == '*')) ++ t.dropWhile (· == '*') := by simp
  have hascii : ∀ c ∈ '/' :: '*' :: t.takeWhile (· == '*'), c.toNat < 128 :=
    List.forall_mem_cons.mpr ⟨by decide, List.forall_mem_cons.mpr
      ⟨by decide, Text.ascii_of_mem_takeWhile (by decide) t⟩⟩
  have hlength : ('/' :: '*' :: t.takeWhile (· == '*')).length =
      (t.takeWhile (· == '*')).length + 2 := rfl
  rw [hsplit, ← hlength, List.take_length_add_append, Text.byteLength_append,
    Text.byteLength_ascii hascii]

theorem openerEnd_eq (line col i : Nat) (t : Text) (s : Scan) : openerEnd i ('*' :: t) =
    i + byteLength (('/' :: '*' :: t).take (openerStep line col t s).1) := by
  obtain ⟨hstars, hafter⟩ := Text.run_bytes (a := '*') (by decide) ('*' :: t)
  rw [List.takeWhile_cons_of_pos (by decide), List.length_cons] at hstars hafter
  rw [List.dropWhile_cons_of_pos (by decide)] at hafter
  unfold openerEnd openerStep
  simp only [hstars, hafter, Text.head?_bytes (a := '/') (by decide)]
  by_cases hfew : (t.takeWhile (· == '*')).length + 1 < 3
  · rw [if_pos hfew, if_neg (Nat.not_le.mpr hfew)]
    rfl
  rw [if_neg hfew, if_pos (Nat.le_of_not_lt hfew)]
  by_cases hslash : (t.dropWhile (· == '*')).head? = some '/'
  · obtain ⟨u, hu⟩ := List.head?_eq_some_iff.mp hslash
    have hone : byteLength ((t.dropWhile (· == '*')).take 1) = 1 := by
      rw [hu]
      rfl
    rw [if_pos hslash, if_pos hslash, byteLength_take_opener t 1, hone]
    omega
  · have hnone : byteLength ((t.dropWhile (· == '*')).take 0) = 0 := rfl
    rw [if_neg hslash, if_neg hslash, byteLength_take_opener t 0, hnone]
    omega

theorem codeEnd_eq (line col i : Nat) {rest : Text} (hne : rest ≠ []) (s : Scan) :
    codeEnd i rest = i + byteLength (rest.take (plainCodeStep line col rest s).1) := by
  have hliteral {quote : Char} (hq : quote.toNat < 128) (t : Text) :
      literalEnd quote false (i + 1) t =
        i + byteLength ((quote :: t).take (literalLength quote t + 1)) := by
    rw [literalEnd_eq hq, List.take_succ_cons, Text.byteLength_cons, Text.utf8Size_ascii hq,
      Nat.add_assoc]
  unfold plainCodeStep
  split
  · next t => exact openerEnd_eq line col i t s
  · next t =>
    rw [List.take_of_length_le (by simp)]
    rfl
  · rfl
  · next t => exact hliteral (by decide) t
  · next t => exact hliteral (by decide) t
  · next hopen hline hclose hquote hmark =>
    unfold codeEnd
    split
    · next t => exact absurd rfl (hopen t)
    · next t => exact absurd rfl (hline t)
    · next t => exact absurd rfl (hclose t)
    · next t => exact absurd rfl (hquote t)
    · next t => exact absurd rfl (hmark t)
    · obtain ⟨c, t, rfl⟩ := List.exists_cons_of_ne_nil hne
      rfl

theorem codeOffset_eq (number : Nat) (taken : Text) {rest : Text} (hne : rest ≠ []) (s : Scan) :
    codeOffset (byteLength taken) rest =
      byteLength taken + byteLength (rest.take (codeStep number (taken.length + 1) rest s).1) := by
  have hstart : byteLength taken = 0 ↔ taken.length + 1 = 1 := by
    cases taken with
    | nil => exact iff_of_true rfl rfl
    | cons c taken =>
      have hpos := Text.byteLength_pos (List.cons_ne_nil c taken)
      exact iff_of_false (Nat.ne_of_gt hpos) (by simp)
  unfold codeOffset codeStep
  simp only [hstart]
  split
  · cases hd : docLine? rest with
    | some p =>
      dsimp only
      rw [List.take_length]
    | none => exact codeEnd_eq number _ _ hne s
  · exact codeEnd_eq number _ _ hne s

/-- What a step in a block takes, where `left` leaves the block and `kept` stays in it. -/
theorem blockEnd_eq (i : Nat) {k : Nat} {rest : Text} {left : Text → Except ScanError Scan}
    {kept s : Scan} (h : (match Text.before? "*/" rest with
      | some inside => (left inside).map (inside.length + 2, ·)
      | none => .ok (rest.length, kept)) = .ok (k, s)) :
    blockEnd i rest = i + byteLength (rest.take k) := by
  unfold blockEnd
  cases hi : Text.before? "*/" rest with
  | none =>
    rw [hi] at h
    obtain ⟨rfl, -⟩ := Prod.mk.inj (Except.ok.inj h)
    rw [List.take_length]
  | some inside =>
    rw [hi] at h
    obtain ⟨rfl, -⟩ := eq_of_map_ok h
    obtain ⟨after, rfl⟩ := Text.before?_eq_some hi
    have htwo : byteLength (("*/".toList ++ after).take 2) = 2 := rfl
    dsimp only
    rw [List.take_length_add_append, Text.byteLength_append, htwo, Nat.add_assoc]

/-- The offset goes on by the byte length of what a step takes. -/
theorem nextOffset_of_step {s s' : Scan} {number k : Nat} {taken rest : Text} (hne : rest ≠ [])
    (hstep : s.step number (taken.length + 1) rest = .ok (k, s')) :
    s.nextOffset (byteLength taken) rest = byteLength (taken ++ rest.take k) := by
  rw [Text.byteLength_append]
  unfold Scan.step at hstep
  unfold nextOffset
  cases hm : s.mode with
  | code =>
    rw [hm] at hstep
    obtain rfl : (codeStep number (taken.length + 1) rest s).1 = k :=
      congrArg Prod.fst (Except.ok.inj hstep)
    exact codeOffset_eq number taken hne s
  | docBlock =>
    rw [hm] at hstep
    exact blockEnd_eq _ hstep
  | plainBlock =>
    rw [hm] at hstep
    exact blockEnd_eq _ hstep
  | docLine =>
    rw [hm] at hstep
    obtain ⟨rfl, -⟩ := Prod.mk.inj (Except.ok.inj hstep)
    rw [List.take_length]

/--
At every point that the loop over the lines comes to, the offset computed from there is the one at
which the next point stands: the bytes from it on are those of the text ahead.
-/
theorem Visits.nextOffset {source : Text} {number : Nat} {taken rest : Text} {s : Scan}
    (h : Visits source number taken rest s) (hne : rest ≠ []) : ∃ k s',
      Visits source number (taken ++ rest.take k) (rest.drop k) s' ∧
      s.nextOffset (byteLength taken) rest = byteLength (taken ++ rest.take k) ∧
      (bytes (taken ++ rest)).drop (s.nextOffset (byteLength taken) rest) =
        bytes (rest.drop k) := by
  obtain ⟨k, s', hstep, -, -, -⟩ := h.nested.step number (taken.length + 1) hne
  have hoffset := nextOffset_of_step hne hstep
  have hline : taken ++ rest = (taken ++ rest.take k) ++ rest.drop k := by
    rw [List.append_assoc, List.take_append_drop]
  refine ⟨k, s', h.turn hne hstep, hoffset, ?_⟩
  rw [hoffset, hline, Text.bytes_append, ← Text.length_bytes]
  exact List.drop_left

end Scan

end LuaStubs
