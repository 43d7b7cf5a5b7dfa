import LuaStubs.Doc.Reader
import LuaStubs.Proofs.Token.Segmentation

namespace LuaStubs

/-- The comment could be read otherwise. -/
def Warning.isAmbiguity : Warning → Bool
  | .ambiguousType _ _ => true
  | _ => false

def DocReading.ambiguities (r : DocReading) : List Warning :=
  (Event.warnings r.events).filter Warning.isAmbiguity

namespace Token

/-- The last token says that the text ended inside of a span. -/
def IsUnclosed (ts : List Token) : Prop := ts.getLast?.map Token.kind = some .unclosed

/-- The span that is left open: it is opened, and only its contents and the end follow. -/
def LeavesOpen (span : CodeSpan) (ts : List Token) : Prop :=
  ∃ front inside, IsInside inside ∧
    ts.map Token.kind = front ++ .openCode span :: (inside ++ [.unclosed])

theorem Bracketed.exists_open {ks : List TokenKind} (h : Bracketed ks)
    (hlast : ks.getLast? = some .unclosed) : ∃ front s inside, IsInside inside ∧
      ks = front ++ .openCode s :: (inside ++ [.unclosed]) := by
  induction h with
  | nil => cases hlast
  | @free k ks hk _ ih =>
    cases hks : ks with
    | nil =>
      rw [hks] at hlast
      obtain rfl : k = .unclosed := by simpa using hlast
      simp at hk
    | cons k' ks' =>
      rw [hks, List.getLast?_cons_cons, ← hks] at hlast
      obtain ⟨front, s, inside, hi, heq⟩ := ih hlast
      exact ⟨k :: front, s, inside, hi, by rw [← hks, heq, List.cons_append]⟩
  | @span s inside ks _ _ ih =>
    cases hks : ks with
    | nil =>
      rw [hks, ← List.cons_append, List.getLast?_concat] at hlast
      cases hlast
    | cons k' ks' =>
      rw [hks, ← List.cons_append, List.getLast?_append_cons, List.getLast?_cons_cons, ← hks]
        at hlast
      obtain ⟨front, s', inside', hi', heq⟩ := ih hlast
      exact ⟨.openCode s :: (inside ++ .closeCode s :: front), s', inside', hi',
        by simp [← hks, heq]⟩
  | @unclosed s inside hi => exact ⟨[], s, inside, hi, rfl⟩

theorem LeavesOpen.of_isUnclosed {t : Text} (h : IsUnclosed (lex t)) :
    ∃ span, LeavesOpen span (lex t) := by
  have hlast : ((lex t).map Token.kind).getLast? = some .unclosed := by
    rw [List.getLast?_map]
    exact h
  have hbracketed : Bracketed ((lex t).map Token.kind) := (run_lex t).goesOn
  obtain ⟨front, span, inside, hi, heq⟩ := hbracketed.exists_open hlast
  exact ⟨span, front, inside, hi, heq⟩

end Token

namespace Attribute

/-- Attributes are refused for their names alone. -/
theorem eq_invalidName_of_read {tag body : Text} {pos : Position} {e : DocError}
    (h : read tag body pos = .error e) : ∃ name, e = .invalidName tag name pos := by
  unfold read at h
  split at h
  · cases h
  next kind _ =>
  split at h
  · cases h
  next name rest _ _ =>
  refine ⟨name, ?_⟩
  cases kind with
  | fieldTag | globalTag | paramTag => cases h
  | classTag | tableTag | enumTag | functionTag =>
    simp only [readNamed] at h
    split at h
    · cases h
    · exact (Except.error.inj h).symm

theorem events_readField (tag word rest : Text) (pos : Position) (wrap : Field → Attribute) :
    ∀ w ∈ Event.warnings (readField tag word rest pos wrap).events, w.isAmbiguity = false := by
  unfold readField
  dsimp only
  split
  · simp [Event.warnings, Warning.isAmbiguity]
  · split <;> simp [Event.warnings]

/-- An attribute says itself whether it could be read otherwise, and does not warn of it. -/
theorem not_isAmbiguity_of_read {tag body : Text} {pos : Position} {r : AttributeReading}
    (h : read tag body pos = .ok r) : ∀ w ∈ Event.warnings r.events, w.isAmbiguity = false := by
  unfold read at h
  split at h
  · obtain rfl := Except.ok.inj h
    simp [Event.warnings]
  next kind _ =>
  split at h
  · obtain rfl := Except.ok.inj h
    simp [Event.warnings, Warning.isAmbiguity]
  next name rest _ _ =>
  cases kind with
  | fieldTag | globalTag =>
    obtain rfl := Except.ok.inj h
    exact events_readField tag name rest pos _
  | paramTag =>
    obtain rfl := Except.ok.inj h
    simp [Event.warnings]
  | classTag | tableTag | enumTag | functionTag =>
    simp only [readNamed] at h
    split at h
    · obtain rfl := Except.ok.inj h
      simp [Event.warnings]
    · cases h

end Attribute

namespace Doc

/-- The tokens before the first tag, and each tag with the tokens up to the next one. -/
structure Groups (ts lead : List Token) (groups : List (Token × List Token)) : Prop where
  tokens : ts = lead ++ groups.flatMap fun g => g.1 :: g.2
  lead : ∀ a ∈ lead, a.kind ≠ .attribute
  groups : ∀ g ∈ groups, g.1.kind = .attribute ∧ ∀ a ∈ g.2, a.kind ≠ .attribute

/--
A text in parts. No tag that is a token stands inside of the description or of a body, so the
parts are all that there are.
-/
structure Divides (t description : Text) (parts : List (Text × Text)) : Prop where
  whole : t = description ++ parts.flatMap fun p => '@' :: (p.1 ++ p.2)
  tag : ∀ p ∈ parts, p.1 ≠ [] ∧ ∀ c ∈ p.1, Text.isSpace c = false
  body : ∀ p ∈ parts, Text.startsWithSpace p.2 = true
  tokens : ∃ lead groups, Groups (Token.lex t) lead groups ∧ description = Token.spelled lead ∧
    parts = groups.map fun g => (g.1.value, Token.spelled g.2)

theorem sections_eq (ts : List Token) : ∃ lead groups, Groups ts lead groups ∧
    sections ts = (Token.spelled lead, groups.map fun g => (g.1.value, Token.spelled g.2)) := by
  induction ts with
  | nil => exact ⟨[], [], ⟨rfl, by simp, by simp⟩, rfl⟩
  | cons a ts ih =>
    obtain ⟨lead, groups, ⟨htokens, hlead, hgroups⟩, heq⟩ := ih
    by_cases ha : a.kind = .attribute
    · refine ⟨[], (a, lead) :: groups, ⟨by simp [htokens], by simp, ?_⟩, ?_⟩
      · exact List.forall_mem_cons.mpr ⟨⟨ha, hlead⟩, hgroups⟩
      · simp [sections, heq, ha, Token.spelled]
    · refine ⟨a :: lead, groups, ⟨by simp [htokens], ?_, hgroups⟩, ?_⟩
      · exact List.forall_mem_cons.mpr ⟨ha, hlead⟩
      · simp [sections, heq, ha, Token.spelled]

section Parts
variable {t : Text} {lead : List Token} {groups : List (Token × List Token)}

/-- A tag that is a token, and the text behind it. -/
theorem tagged_of_lex {xs ys : List Token} {a : Token} (h : Token.lex t = xs ++ a :: ys)
    (ha : a.kind = .attribute) : a.text = '@' :: a.value ∧ a.value ≠ [] ∧
      (∀ c ∈ a.value, Text.isSpace c = false) ∧ Text.IsSetOff (Token.spelled ys) := by
  obtain ⟨-, ⟨hunclosed, -⟩ | ⟨i, rest, i', hcut, hrun⟩⟩ := (Token.run_lex t).split h
  · rw [ha] at hunclosed
    cases hunclosed
  · have hvalue : a.value = a.text.drop 1 := by simp [Token.value, ha]
    rw [hrun.spelled_eq, hvalue]
    rw [ha] at hcut
    generalize a.text = front at hcut
    cases hcut with
    | mark hne htag hrest => exact ⟨rfl, hne, htag, hrest⟩

/-- The same of one of the groups. -/
theorem Groups.tagged (h : Groups (Token.lex t) lead groups)
    {before after : List (Token × List Token)} {g : Token × List Token} (hg : groups = before ++ g :: after) :
    g.1.text = '@' :: g.1.value ∧ g.1.value ≠ [] ∧ (∀ c ∈ g.1.value, Text.isSpace c = false) ∧
      Text.IsSetOff (Token.spelled g.2 ++ Token.spelled (after.flatMap fun g => g.1 :: g.2)) := by
  have hlex := h.tokens
  rw [hg, List.flatMap_append, List.flatMap_cons, ← List.append_assoc, List.cons_append] at hlex
  have hkind : g.1.kind = .attribute := (h.groups g (by simp [hg])).1
  simpa [Token.spelled] using tagged_of_lex hlex hkind

theorem Groups.whole (h : Groups (Token.lex t) lead groups) :
    t = Token.spelled lead ++ groups.flatMap fun g => '@' :: (g.1.value ++ Token.spelled g.2) := by
  have htext : ∀ g ∈ groups, Token.spelled (g.1 :: g.2) =
      '@' :: (g.1.value ++ Token.spelled g.2) := by
    intro g hg
    obtain ⟨before, after, hsplit⟩ := List.append_of_mem hg
    have htext := (h.tagged hsplit).1
    simp [Token.spelled, htext]
  calc t
    _ = Token.spelled (Token.lex t) := (Token.run_lex t).spelled_eq.symm
    _ = Token.spelled lead ++ groups.flatMap fun g => Token.spelled (g.1 :: g.2) := by
      rw [h.tokens, Token.spelled, List.flatMap_append, List.flatMap_assoc]
      rfl
    _ = _ := by rw [List.flatMap_congr htext]

/-- A text that ends in white space does not end in a tag. -/
theorem Groups.startsWithSpace (h : Groups (Token.lex t) lead groups)
    (ht : ∃ u c, t = u ++ [c] ∧ Text.isSpace c = true) :
    ∀ g ∈ groups, Text.startsWithSpace (Token.spelled g.2) = true := by
  intro g hg
  obtain ⟨before, after, hsplit⟩ := List.append_of_mem hg
  obtain ⟨-, hne, hvalue, hsetOff⟩ := h.tagged hsplit
  cases hbody : Token.spelled g.2 with
  | cons c body =>
    rw [hbody] at hsetOff
    have hspace := hsetOff c rfl
    simpa [Text.startsWithSpace] using hspace
  | nil =>
    exfalso
    rw [hbody, List.nil_append] at hsetOff
    cases after with
    | cons g' after =>
      -- the next tag would follow at once, and it does not begin with white space
      have hnext : groups = (before ++ [g]) ++ g' :: after := by simp [hsplit]
      have htext := (h.tagged hnext).1
      have hspace := hsetOff '@' (by simp [Token.spelled, htext])
      simp [Text.isSpace] at hspace
    | nil =>
      -- the text would end in the tag, whose last character is visible
      obtain ⟨u, c, ht, hc⟩ := ht
      have hwhole := h.whole
      rw [ht, hsplit, List.flatMap_append, List.flatMap_singleton, hbody, List.append_nil,
        ← List.append_assoc] at hwhole
      have hlast := congrArg List.getLast? hwhole
      rw [List.getLast?_concat, List.getLast?_append_cons, List.getLast?_cons,
        List.getLast?_eq_some_getLast hne, Option.getD_some] at hlast
      have hmem := List.getLast_mem hne
      rw [← Option.some.inj hlast] at hmem
      rw [hvalue c hmem] at hc
      cases hc

theorem divides_sections (ht : ∃ u c, t = u ++ [c] ∧ Text.isSpace c = true) :
    Divides t (sections (Token.lex t)).1 (sections (Token.lex t)).2 := by
  obtain ⟨lead, groups, h, heq⟩ := sections_eq (Token.lex t)
  rw [heq]
  refine ⟨?_, ?_, ?_, lead, groups, h, rfl, rfl⟩
  · rw [List.flatMap_map]
    exact h.whole
  · intro p hp
    obtain ⟨g, hg, rfl⟩ := List.mem_map.mp hp
    obtain ⟨before, after, hsplit⟩ := List.append_of_mem hg
    obtain ⟨-, hne, hvalue, -⟩ := h.tagged hsplit
    exact ⟨hne, hvalue⟩
  · intro p hp
    obtain ⟨g, hg, rfl⟩ := List.mem_map.mp hp
    exact h.startsWithSpace ht g hg

end Parts

section Open

theorem lastOpened_of_kinds {ts : List Token} {front inside : List TokenKind} {span : CodeSpan}
    (hi : Token.IsInside inside)
    (h : ts.map Token.kind = front ++ .openCode span :: (inside ++ [.unclosed])) :
    lastOpened ts = some span := by
  induction front generalizing ts with
  | nil =>
    obtain ⟨o, rest, rfl, ho, hrest⟩ := List.map_eq_cons_iff.mp h
    obtain rfl | rfl := hi
    · obtain ⟨u, rest, rfl, hu, hnil⟩ := List.map_eq_cons_iff.mp hrest
      rw [List.map_eq_nil_iff.mp hnil]
      simp [lastOpened, ho, hu]
    · obtain ⟨k, rest, rfl, hk, hrest⟩ := List.map_eq_cons_iff.mp hrest
      obtain ⟨u, rest, rfl, hu, hnil⟩ := List.map_eq_cons_iff.mp hrest
      rw [List.map_eq_nil_iff.mp hnil]
      simp [lastOpened, ho, hk, hu]
  | cons k front ih =>
    obtain ⟨a, ts, rfl, -, hts⟩ := List.map_eq_cons_iff.mp h
    simp [lastOpened, ih hts]

theorem unclosed?_of_leavesOpen {ts : List Token} {span : CodeSpan}
    (h : Token.LeavesOpen span ts) : unclosed? ts = some span := by
  obtain ⟨front, inside, hi, hkinds⟩ := h
  have hlast : ts.getLast?.map Token.kind = some .unclosed := by
    have happ : front ++ .openCode span :: (inside ++ [.unclosed]) =
        (front ++ .openCode span :: inside) ++ [.unclosed] := by simp
    rw [← List.getLast?_map, hkinds, happ, List.getLast?_concat]
  rw [unclosed?, if_pos hlast, lastOpened_of_kinds hi hkinds]

end Open

/-- What reading the parts of a comment gives, with the warnings that it could be read otherwise. -/
inductive Outcome (c : Comment) (description : Text) (parts : List (Text × Text)) :
    Except DocError Doc → List Warning → Prop
  /-- The first part that is refused costs the comment. -/
  | refused {front back : List (Text × Text)} {tag body : Text} {e : DocError}
      (hparts : parts = front ++ (tag, body) :: back)
      (hfront : ∀ p ∈ front, ∃ r, Attribute.read p.1 p.2 c.start = .ok r)
      (he : Attribute.read tag body c.start = .error e) :
      Outcome c description parts (.error e) []
  | accepted {rs : List AttributeReading}
      (hrs : List.Forall₂ (fun p r => Attribute.read p.1 p.2 c.start = .ok r) parts rs) :
      Outcome c description parts
        (.ok { description := description, attributes := rs.map (·.value)
               start := c.start, stop := c.stop })
        (if rs.countP (·.ambiguous) = 0 then []
          else [.ambiguousType c.start (1 + rs.countP (·.ambiguous))])

section Outcome

/-- Reading goes on up to the first part that is refused, and warns of no ambiguity on the way. -/
theorem readAttributes_cases (pos : Position) (parts : List (Text × Text)) :
    ((∃ front tag body back e, parts = front ++ (tag, body) :: back ∧
        (∀ p ∈ front, ∃ r, Attribute.read p.1 p.2 pos = .ok r) ∧
        Attribute.read tag body pos = .error e ∧ (readAttributes pos parts).1 = .error e) ∨
      ∃ rs, List.Forall₂ (fun p r => Attribute.read p.1 p.2 pos = .ok r) parts rs ∧
        (readAttributes pos parts).1 = .ok rs) ∧
    ∀ w ∈ Event.warnings (readAttributes pos parts).2, w.isAmbiguity = false := by
  induction parts with
  | nil => exact ⟨.inr ⟨[], .nil, rfl⟩, by simp [readAttributes, Event.warnings]⟩
  | cons part parts ih =>
    obtain ⟨tag, body⟩ := part
    obtain ⟨hcases, hevents⟩ := ih
    cases hread : Attribute.read tag body pos with
    | error e =>
      have hstop : readAttributes pos ((tag, body) :: parts) = (.error e, []) := by
        simp [readAttributes, hread]
      rw [hstop]
      exact ⟨.inl ⟨[], tag, body, parts, e, rfl, by simp, hread, rfl⟩, by simp [Event.warnings]⟩
    | ok r =>
      have hstep : readAttributes pos ((tag, body) :: parts) =
          ((readAttributes pos parts).1.map (r :: ·),
            r.events ++ (readAttributes pos parts).2) := by
        simp [readAttributes, hread]
      rw [hstep]
      constructor
      · obtain ⟨front, tag', body', back, e, rfl, hfront, he, herror⟩ | ⟨rs, hrs, hok⟩ := hcases
        · refine .inl ⟨(tag, body) :: front, tag', body', back, e, rfl, ?_, he, ?_⟩
          · exact List.forall_mem_cons.mpr ⟨⟨r, hread⟩, hfront⟩
          · rw [herror]
            rfl
        · refine .inr ⟨r :: rs, .cons hread hrs, ?_⟩
          rw [hok]
          rfl
      · intro w hw
        rw [Event.warnings, List.filterMap_append] at hw
        obtain hw | hw := List.mem_append.mp hw
        · exact Attribute.not_isAmbiguity_of_read hread w hw
        · exact hevents w hw

theorem ambiguity_eq (pos : Position) (rs : List AttributeReading) :
    (Event.warnings (ambiguity pos rs)).filter Warning.isAmbiguity =
      if rs.countP (·.ambiguous) = 0 then []
      else [.ambiguousType pos (1 + rs.countP (·.ambiguous))] := by
  rw [List.countP_eq_length_filter]
  unfold ambiguity
  cases (rs.filter (·.ambiguous)).length with
  | zero => rfl
  | succ n =>
    rw [if_neg (Nat.succ_ne_zero n), Nat.add_comm 1 (n + 1)]
    rfl

theorem outcome_readSections (c : Comment) (description : Text) (parts : List (Text × Text)) :
    Outcome c description parts (readSections c description parts).result
      (readSections c description parts).ambiguities := by
  obtain ⟨hcases, hevents⟩ := readAttributes_cases c.start parts
  have hnone :
      (Event.warnings (readAttributes c.start parts).2).filter Warning.isAmbiguity = [] := by
    rw [List.filter_eq_nil_iff]
    intro w hw
    simp [hevents w hw]
  obtain ⟨front, tag, body, back, e, hparts, hfront, he, herror⟩ | ⟨rs, hrs, hok⟩ := hcases
  · have hread : readSections c description parts =
        ⟨.error e, (readAttributes c.start parts).2⟩ := by
      rw [readSections, ← Prod.eta (readAttributes c.start parts), herror]
    rw [hread, DocReading.ambiguities, hnone]
    exact .refused hparts hfront he
  · have hread : readSections c description parts =
        { result := .ok { description := description, attributes := rs.map (·.value)
                          start := c.start, stop := c.stop }
          events := (readAttributes c.start parts).2 ++ ambiguity c.start rs ++
            [.note (.docRead c.start rs.length)] } := by
      rw [readSections, ← Prod.eta (readAttributes c.start parts), hok]
    have hwarnings : (readSections c description parts).ambiguities =
        if rs.countP (·.ambiguous) = 0 then []
        else [.ambiguousType c.start (1 + rs.countP (·.ambiguous))] := by
      rw [hread, DocReading.ambiguities, Event.warnings, List.filterMap_append,
        List.filterMap_append, List.filter_append, List.filter_append]
      change (Event.warnings _).filter _ ++ (Event.warnings _).filter _ ++ [] = _
      rw [hnone, ambiguity_eq, List.nil_append, List.append_nil]
    rw [hwarnings, hread]
    exact .accepted hrs

/-- The attributes of a doc are read from the parts of its comment. -/
theorem exists_parts_of_read {c : Comment} {d : Doc} (h : (read c).result = .ok d) :
    ∃ description parts rs, Divides (c.text ++ ['\n']) description parts ∧
      List.Forall₂ (fun p r => Attribute.read p.1 p.2 c.start = .ok r) parts rs ∧
      d = { description := description, attributes := rs.map (·.value)
            start := c.start, stop := c.stop } := by
  have hdivides := divides_sections (t := c.text ++ ['\n']) ⟨c.text, '\n', rfl, by decide⟩
  simp only [read] at h
  split at h
  · cases h
  · have houtcome := outcome_readSections c (sections (Token.lex (c.text ++ ['\n']))).1
      (sections (Token.lex (c.text ++ ['\n']))).2
    rw [h] at houtcome
    generalize (readSections c _ _).ambiguities = ws at houtcome
    cases houtcome with
    | accepted hrs => exact ⟨_, _, _, hdivides, hrs, rfl⟩

theorem Outcome.not_unclosedCode {c : Comment} {description : Text} {parts : List (Text × Text)}
    {result : Except DocError Doc} {ws : List Warning} (h : Outcome c description parts result ws)
    (span : CodeSpan) (pos : Position) : result ≠ .error (.unclosedCode span pos) := by
  intro heq
  cases h with
  | accepted => cases heq
  | refused _ _ he =>
    obtain ⟨name, rfl⟩ := Attribute.eq_invalidName_of_read he
    cases heq

end Outcome

/--
A comment is refused for a code span exactly when one is left open, and the error names it.
Otherwise its text, with the last line ended, falls apart into the description and the tagged parts,
and the parts give the doc or the error of the first that is refused.
-/
theorem read_divided (c : Comment) :
    ((∃ span pos, (read c).result = .error (.unclosedCode span pos)) ↔
      Token.IsUnclosed (Token.lex (c.text ++ ['\n']))) ∧
    (∀ span pos, (read c).result = .error (.unclosedCode span pos) → pos = c.start ∧
      Token.LeavesOpen span (Token.lex (c.text ++ ['\n'])) ∧
      span.fence = List.replicate (if span = .block then 3 else 1) '\x60' ∧
      (read c).ambiguities = []) ∧
    (¬Token.IsUnclosed (Token.lex (c.text ++ ['\n'])) → ∃ description parts,
      Divides (c.text ++ ['\n']) description parts ∧
      Outcome c description parts (read c).result (read c).ambiguities) := by
  by_cases hu : Token.IsUnclosed (Token.lex (c.text ++ ['\n']))
  · obtain ⟨span, hspan⟩ := Token.LeavesOpen.of_isUnclosed hu
    have hread : read c = ⟨.error (.unclosedCode span c.start), []⟩ := by
      simp only [read, unclosed?_of_leavesOpen hspan]
    rw [hread]
    refine ⟨⟨fun _ => hu, fun _ => ⟨span, c.start, rfl⟩⟩, ?_, fun h => absurd hu h⟩
    intro span' pos heq
    obtain ⟨rfl, rfl⟩ := DocError.unclosedCode.inj (Except.error.inj heq)
    exact ⟨rfl, hspan, by cases span <;> rfl, rfl⟩
  · have hclosed : unclosed? (Token.lex (c.text ++ ['\n'])) = none := if_neg hu
    have hread : read c = readSections c (sections (Token.lex (c.text ++ ['\n']))).1
        (sections (Token.lex (c.text ++ ['\n']))).2 := by
      simp only [read, hclosed]
    have hdivides := divides_sections (t := c.text ++ ['\n']) ⟨c.text, '\n', rfl, by decide⟩
    have houtcome := outcome_readSections c (sections (Token.lex (c.text ++ ['\n']))).1
      (sections (Token.lex (c.text ++ ['\n']))).2
    rw [← hread] at houtcome
    refine ⟨⟨?_, fun h => absurd h hu⟩, ?_, fun _ => ⟨_, _, hdivides, houtcome⟩⟩
    · rintro ⟨span, pos, heq⟩
      exact absurd heq (houtcome.not_unclosedCode span pos)
    · intro span pos heq
      exact absurd heq (houtcome.not_unclosedCode span pos)

/-- A tag in code is text, and two attributes that could be read otherwise give one warning. -/
theorem read_divided_ambiguous : ∃ c : Comment,
    c.text = "`@x` is no tag\n@field a Foo | Bar first\n@field b Baz | Qux second" ∧
    ¬Token.IsUnclosed (Token.lex (c.text ++ ['\n'])) ∧
    (read c).ambiguities = [.ambiguousType c.start 3] ∧
    ∃ description parts, Divides (c.text ++ ['\n']) description parts ∧
      Outcome c description parts (read c).result (read c).ambiguities := by
  let c : Comment :=
    ⟨⟨1, 1⟩, ⟨4, 1⟩, "`@x` is no tag\n@field a Foo | Bar first\n@field b Baz | Qux second"⟩
  have hclosed : ¬Token.IsUnclosed (Token.lex (c.text ++ ['\n'])) := by
    unfold Token.IsUnclosed
    decide +kernel
  have hwarning : (read c).ambiguities = [.ambiguousType c.start 3] := by decide +kernel
  exact ⟨c, rfl, hclosed, hwarning, (read_divided c).2.2 hclosed⟩

end Doc

end LuaStubs
