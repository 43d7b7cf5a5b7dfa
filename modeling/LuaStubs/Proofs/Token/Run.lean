import LuaStubs.Proofs.Text.Parts
import LuaStubs.Token.Lexer

namespace LuaStubs

/-- Every run of backticks that goes no further on either side is made of pairs. -/
def Text.TicksPaired (t : Text) : Prop :=
  ∀ front n back, t = front ++ List.replicate n '\x60' ++ back →
    front.getLast? ≠ some '\x60' → back.head? ≠ some '\x60' → 2 ∣ n

/-- What can stand inside a code span. -/
def CodeSpan.Holds : CodeSpan → Text → Prop
  | .block, t => ¬"```".toList <:+: t
  | .inline, t => t.TicksPaired

namespace Token

/-- The text that tokens were cut off from. -/
def spelled (ts : List Token) : Text := ts.flatMap Token.text

/--
A cut: the span that the text stands in, the kind of the token, its text, the rest of the text, and
the span that this stands in.
-/
inductive Cut : Option CodeSpan → TokenKind → Text → Text → Option CodeSpan → Prop
  | newline (rest : Text) : Cut none .newline ['\n'] rest none
  | space {front rest : Text} (hne : front ≠ [])
      (hfront : ∀ c ∈ front, Text.isSpace c = true ∧ c ≠ '\n')
      (hrest : ∀ c ∈ rest.head?, Text.isSpace c = true → c = '\n') :
      Cut none .space front rest none
  | mark {tag rest : Text} (hne : tag ≠ []) (htag : ∀ c ∈ tag, Text.isSpace c = false)
      (hrest : Text.IsSetOff rest) : Cut none .attribute ('@' :: tag) rest none
  | word {c : Char} {tail rest : Text} (hspace : Text.isSpace c = false) (htick : c ≠ '\x60')
      (hrest : ∀ d ∈ rest.head?, Text.isSpace d = true ∨ d = '\x60') :
      Cut none .word (c :: tail) rest none
  | openCode (span : CodeSpan) (language rest : Text) :
      Cut none (.openCode span) (span.fence ++ language) rest (some span)
  | closeCode (span : CodeSpan) (rest : Text) :
      Cut (some span) (.closeCode span) span.fence rest none
  | code {span : CodeSpan} {front rest : Text} (hne : front ≠ []) (hholds : span.Holds front)
      (hopen : ¬span.fence <+: front ++ rest) (hrest : rest ≠ [] → span.fence <+: rest) :
      Cut (some span) .code front rest (some span)

theorem Cut.text_ne_nil {inside inside' : Option CodeSpan} {kind : TokenKind} {front rest : Text}
    (h : Cut inside kind front rest inside') : front ≠ [] := by
  have hfence (span : CodeSpan) : span.fence ≠ [] := by cases span <;> simp [CodeSpan.fence]
  cases h with
  | newline => simp
  | space hne => exact hne
  | mark => simp
  | word => simp
  | openCode span => simp [hfence span]
  | closeCode span => exact hfence span
  | code hne => exact hne

section Lengths

theorem wordTail_le (previous : Char) (t : Text) : wordTail previous t ≤ t.length := by
  induction t generalizing previous with
  | nil => simp [wordTail]
  | cons c t ih =>
    unfold wordTail
    split
    · simp
    · simpa using ih c

/-- A word ends in front of white space or a backtick. -/
theorem head_drop_wordTail (previous : Char) (t : Text) :
    ∀ d ∈ (t.drop (wordTail previous t)).head?, Text.isSpace d = true ∨ d = '\x60' := by
  induction t generalizing previous with
  | nil => simp [wordTail]
  | cons c t ih =>
    unfold wordTail
    split
    · next hc =>
      intro d hd
      obtain rfl : c = d := by simpa using hd
      simp only [Bool.or_eq_true, Bool.and_eq_true, beq_iff_eq] at hc
      exact hc.imp id And.left
    · simpa using ih c

theorem inlineLength_le (t : Text) : inlineLength t ≤ t.length := by
  fun_induction inlineLength t with
  | case1 => simp
  | case2 t ih => simpa using ih
  | case3 t _ => simp
  | case4 c t _ _ ih => simpa using ih

/-- Inline code ends in front of a backtick. -/
theorem prefix_drop_inlineLength (t : Text) (h : t.drop (inlineLength t) ≠ []) :
    CodeSpan.inline.fence <+: t.drop (inlineLength t) := by
  fun_induction inlineLength t with
  | case1 => simp at h
  | case2 t ih => simpa using ih (by simpa using h)
  | case3 t _ => simp [CodeSpan.fence]
  | case4 c t _ _ ih => simpa using ih (by simpa using h)

theorem ticksPaired_nil : Text.TicksPaired [] := by
  intro front n back h _ _
  have hlen := congrArg List.length h
  simp only [List.length_nil, List.length_append, List.length_replicate] at hlen
  have hn : n = 0 := by omega
  simp [hn]

theorem ticksPaired_cons {c : Char} {t : Text} (hc : c ≠ '\x60') (h : t.TicksPaired) :
    Text.TicksPaired (c :: t) := by
  intro front n back heq hfront hback
  cases front with
  | nil =>
    cases n with
    | zero => simp
    | succ n =>
      rw [List.replicate_succ] at heq
      exact absurd (List.cons.inj heq).1 hc
  | cons d front =>
    refine h front n back (List.cons.inj heq).2 ?_ hback
    intro hlast
    apply hfront
    rw [List.getLast?_cons, hlast]
    rfl

theorem ticksPaired_pair {t : Text} (h : t.TicksPaired) :
    Text.TicksPaired ('\x60' :: '\x60' :: t) := by
  intro front n back heq hfront hback
  match front with
  | [] =>
    match n with
    | 0 => simp
    | 1 =>
      have hb : back = '\x60' :: t := (List.cons.inj heq).2.symm
      simp [hb] at hback
    | n + 2 =>
      simp only [List.nil_append, List.replicate_succ, List.cons_append, List.cons.injEq,
        true_and] at heq
      have hn := h [] n back heq (by simp) hback
      omega
  | [c] =>
    obtain ⟨rfl, -⟩ := List.cons.inj heq
    simp at hfront
  | c :: d :: front =>
    obtain ⟨-, htail⟩ := List.cons.inj heq
    refine h front n back (List.cons.inj htail).2 ?_ hback
    intro hlast
    apply hfront
    rw [List.getLast?_cons, List.getLast?_cons, hlast]
    rfl

theorem ticksPaired_take_inlineLength (t : Text) :
    Text.TicksPaired (t.take (inlineLength t)) := by
  fun_induction inlineLength t with
  | case1 => exact ticksPaired_nil
  | case2 t ih => exact ticksPaired_pair ih
  | case3 t _ => exact ticksPaired_nil
  | case4 c t _ hc ih => exact ticksPaired_cons (fun h => hc h) ih

end Lengths

section Step
variable {t : Text}

/-- What a step gives: a token in front, and a cut behind it. -/
def Steps (inside : Option CodeSpan) (t : Text) (step : TokenKind × Nat × Option CodeSpan) : Prop :=
  ∃ front rest, t = front ++ rest ∧ step.2.1 = front.length ∧ Cut inside step.1 front rest step.2.2

theorem steps_space {c : Char} (hc : Text.isSpace c = true) (hn : c ≠ '\n') (t : Text) :
    Steps none (c :: t)
      (.space, (t.takeWhile fun d => Text.isSpace d && d != '\n').length + 1, none) := by
  refine ⟨c :: t.takeWhile fun d => Text.isSpace d && d != '\n',
    t.dropWhile fun d => Text.isSpace d && d != '\n', ?_, rfl, .space (by simp) ?_ ?_⟩
  · rw [List.cons_append, List.takeWhile_append_dropWhile]
  · intro d hd
    obtain rfl | hd := List.mem_cons.mp hd
    · exact ⟨hc, hn⟩
    · simpa using List.mem_takeWhile_imp hd
  · intro d hd hs
    have hstop := List.head?_dropWhile_not (fun d => Text.isSpace d && d != '\n') t
    rw [Option.mem_def.mp hd] at hstop
    simpa [hs] using hstop

theorem steps_attribute (h : (Text.word t).1 ≠ []) :
    Steps none ('@' :: t) (.attribute, (Text.word t).1.length + 1, none) := by
  refine ⟨'@' :: (Text.word t).1, (Text.word t).2, ?_, rfl,
    .mark h ?_ (Text.isSetOff_word t)⟩
  · rw [List.cons_append, Text.word_append]
  · intro c hc
    simpa using List.mem_takeWhile_imp hc

theorem steps_word {c : Char} (hc : Text.isSpace c = false) (htick : c ≠ '\x60') (t : Text) :
    Steps none (c :: t) (.word, wordTail c t + 1, none) := by
  refine ⟨c :: t.take (wordTail c t), t.drop (wordTail c t), ?_, ?_,
    .word hc htick (head_drop_wordTail c t)⟩
  · rw [List.cons_append, List.take_append_drop]
  · simp [Nat.min_eq_left (wordTail_le c t)]

theorem steps_textStep (ht : t ≠ []) : Steps none t (textStep t) := by
  unfold textStep
  split
  · next u =>
    refine ⟨CodeSpan.block.fence ++ u.takeWhile Char.isAlpha, u.dropWhile Char.isAlpha, ?_, ?_,
      .openCode .block _ _⟩
    · rw [List.append_assoc, List.takeWhile_append_dropWhile]
      rfl
    · rw [List.length_append, Nat.add_comm]
      rfl
  · next u _ => exact ⟨['\x60'], u, rfl, rfl, .openCode .inline [] u⟩
  · next u => exact ⟨['\n'], u, rfl, rfl, .newline u⟩
  · exact absurd rfl ht
  · next c u _ htick hn =>
    split
    · next hc => exact steps_space hc (fun h => hn h) u
    · next hc =>
      split
      · next hat =>
        simp only [Bool.and_eq_true, decide_eq_true_eq] at hat
        obtain ⟨rfl, hword⟩ := hat
        exact steps_attribute hword
      · exact steps_word (by simpa using hc) (fun h => htick h) u

/-- Code in a block goes up to the fence, or to the end. -/
theorem steps_blockCode (ht : t ≠ []) (hopen : ¬CodeSpan.block.fence <+: t) :
    Steps (some .block) t (.code, codeLength .block t, some .block) := by
  unfold codeLength
  cases hb : Text.before? "```" t with
  | none =>
    refine ⟨t, [], by simp, rfl, .code ht ?_ (by simpa using hopen) (by simp)⟩
    exact Text.not_infix_of_before?_eq_none hb
  | some front =>
    obtain ⟨rest, rfl⟩ := Text.before?_eq_some hb
    have hne : front ≠ [] := by
      rintro rfl
      exact hopen (List.prefix_append _ _)
    refine ⟨front, _, rfl, rfl, .code hne ?_ hopen fun _ => List.prefix_append _ _⟩
    exact Text.not_infix_of_before?_eq_some (by simp) hb

theorem steps_inlineCode (ht : t ≠ []) (hopen : ¬CodeSpan.inline.fence <+: t) :
    Steps (some .inline) t (.code, codeLength .inline t, some .inline) := by
  have hpos : 0 < inlineLength t := by
    fun_cases inlineLength t with
    | case1 => exact absurd rfl ht
    | case2 u => omega
    | case3 u _ => exact absurd (List.prefix_append ['\x60'] u) hopen
    | case4 c u => omega
  refine ⟨t.take (inlineLength t), t.drop (inlineLength t), ?_, ?_, .code ?_ ?_ ?_ ?_⟩
  · rw [List.take_append_drop]
  · simp [codeLength, Nat.min_eq_left (inlineLength_le t)]
  · simp [ht, Nat.pos_iff_ne_zero.mp hpos]
  · exact ticksPaired_take_inlineLength t
  · rwa [List.take_append_drop]
  · exact prefix_drop_inlineLength t

theorem steps_codeStep (span : CodeSpan) (ht : t ≠ []) : Steps (some span) t (codeStep span t) := by
  unfold codeStep
  split
  · next hs =>
    obtain ⟨rest, rfl⟩ := Text.isSome_after?_iff.mp hs
    exact ⟨span.fence, rest, rfl, rfl, .closeCode span rest⟩
  · next hs =>
    rw [Text.isSome_after?_iff] at hs
    cases span with
    | block => exact steps_blockCode ht hs
    | inline => exact steps_inlineCode ht hs

theorem steps_step (inside : Option CodeSpan) (ht : t ≠ []) : Steps inside t (step inside t) := by
  cases inside with
  | none => exact steps_textStep ht
  | some span => exact steps_codeStep span ht

end Step

/-- The tokens of a text from an offset on: one cut after another, and the end of the text. -/
inductive Run : Option CodeSpan → Nat → Text → List Token → Prop
  | done (offset : Nat) : Run none offset [] []
  | unclosed (span : CodeSpan) (offset : Nat) :
      Run (some span) offset [] [⟨.unclosed, [], offset⟩]
  | cut {inside inside' : Option CodeSpan} {kind : TokenKind} {front rest : Text} {offset : Nat}
      {ts : List Token} (h : Cut inside kind front rest inside')
      (hrun : Run inside' (offset + Text.byteLength front) rest ts) :
      Run inside offset (front ++ rest) (⟨kind, front, offset⟩ :: ts)

theorem lexFrom_skip (inside : Option CodeSpan) (offset skip : Nat) (t : Text) :
    lexFrom inside offset skip t =
      lexFrom inside (offset + Text.byteLength (t.take skip)) 0 (t.drop skip) := by
  induction t generalizing offset skip with
  | nil => cases inside <;> simp [lexFrom, Text.byteLength]
  | cons c t ih =>
    cases skip with
    | zero => rfl
    | succ skip =>
      have hbytes : Text.byteLength ((c :: t).take (skip + 1)) =
          c.utf8Size + Text.byteLength (t.take skip) := rfl
      rw [lexFrom, ih, hbytes, Nat.add_assoc]
      rfl

theorem lexFrom_append {inside : Option CodeSpan} {offset : Nat} {front rest : Text}
    (hne : front ≠ []) (hlen : (step inside (front ++ rest)).2.1 = front.length) :
    lexFrom inside offset 0 (front ++ rest) =
      ⟨(step inside (front ++ rest)).1, front, offset⟩ ::
        lexFrom (step inside (front ++ rest)).2.2 (offset + Text.byteLength front) 0 rest := by
  cases front with
  | nil => exact absurd rfl hne
  | cons c front =>
    have hbytes : Text.byteLength (c :: front) = c.utf8Size + Text.byteLength front := rfl
    rw [List.cons_append, lexFrom]
    rw [List.cons_append] at hlen
    simp only [hlen]
    rw [lexFrom_skip, hbytes]
    simp [Nat.add_assoc]

theorem run_lexFrom (inside : Option CodeSpan) (offset : Nat) (t : Text) :
    Run inside offset t (lexFrom inside offset 0 t) := by
  -- on the length of the text: each step takes at least one character
  induction hn : t.length using Nat.strongRecOn generalizing inside offset t with
  | ind n ih =>
    subst hn
    by_cases ht : t = []
    · subst ht
      cases inside with
      | none => exact .done offset
      | some span => exact .unclosed span offset
    · obtain ⟨front, rest, rfl, hlen, hcut⟩ := steps_step inside ht
      have hne := hcut.text_ne_nil
      have hpos : 0 < front.length := List.length_pos_iff.mpr hne
      rw [lexFrom_append hne hlen]
      refine .cut hcut (ih rest.length ?_ _ _ rest rfl)
      rw [List.length_append]
      omega

theorem run_lex (t : Text) : Run none 0 t (lex t) := run_lexFrom none 0 t

section Run
variable {inside : Option CodeSpan} {offset : Nat} {t : Text} {ts : List Token}

theorem Run.spelled_eq (h : Run inside offset t ts) : spelled ts = t := by
  induction h with
  | done => rfl
  | unclosed => rfl
  | cut _ _ ih => exact congrArg _ ih

/-- Every token but the last of an open span is a cut, and the run goes on behind it. -/
theorem Run.split {xs ys : List Token} {a : Token} (h : Run inside offset t ts)
    (hts : ts = xs ++ a :: ys) :
    a.offset = offset + Text.byteLength (spelled xs) ∧
    ((a.kind = .unclosed ∧ a.text = [] ∧ ys = []) ∨
      ∃ inside' rest inside'', Cut inside' a.kind a.text rest inside'' ∧
        Run inside'' (a.offset + Text.byteLength a.text) rest ys) := by
  induction h generalizing xs with
  | done => simp at hts
  | unclosed span offset =>
    cases xs with
    | nil =>
      obtain ⟨rfl, rfl⟩ := List.cons.inj hts
      exact ⟨rfl, .inl ⟨rfl, rfl, rfl⟩⟩
    | cons x xs => simp at hts
  | cut hcut hrun ih =>
    cases xs with
    | nil =>
      obtain ⟨rfl, rfl⟩ := List.cons.inj hts
      exact ⟨rfl, .inr ⟨_, _, _, hcut, hrun⟩⟩
    | cons x xs =>
      obtain ⟨rfl, htail⟩ := List.cons.inj hts
      obtain ⟨hoffset, hrest⟩ := ih htail
      refine ⟨?_, hrest⟩
      simp [hoffset, spelled, Text.byteLength_append, Nat.add_assoc]

end Run

end Token

end LuaStubs
