import LuaStubs.Proofs.Text.NormalForm
import LuaStubs.Proofs.Text.Paragraphs

namespace LuaStubs.Text

/-- A text that is empty or begins and ends visibly, and none of whose lines ends in a blank. -/
structure IsTidy (t : Text) : Prop where
  first : ∀ c ∈ t.head?, isSpace c = false
  last : ∀ c ∈ t.getLast?, isSpace c = false
  lineEnds : ∀ l ∈ t.splitOn '\n', ∀ c ∈ l.getLast?, isBlank c = false

theorem isTidy_nil : IsTidy [] := ⟨by simp, by simp, by simp⟩

theorem getLast?_dropEndWhile (p : Char → Bool) (t : Text) :
    ∀ c ∈ (dropEndWhile p t).getLast?, p c = false := by
  intro c hc
  have hhead := List.head?_dropWhile_not p t.reverse
  rw [dropEndWhile, List.getLast?_reverse] at hc
  rw [show (t.reverse.dropWhile p).head? = some c from hc] at hhead
  simpa using hhead

theorem splitOn_trimLineEnds (t : Text) :
    (trimLineEnds t).splitOn '\n' = (t.splitOn '\n').map (dropEndWhile isBlank) := by
  apply List.splitOn_intercalate
  · intro l hl hn
    obtain ⟨m, hm, rfl⟩ := List.mem_map.mp hl
    have hpre : dropEndWhile isBlank m <+: m := List.rdropWhile_prefix isBlank m
    exact not_mem_of_mem_splitOn hm (hpre.subset hn)
  · simp [List.splitOn_ne_nil]

theorem getLast?_of_mem_trimLineEnds {t l : Text} (hl : l ∈ (trimLineEnds t).splitOn '\n') :
    ∀ c ∈ l.getLast?, isBlank c = false := by
  rw [splitOn_trimLineEnds] at hl
  obtain ⟨m, -, rfl⟩ := List.mem_map.mp hl
  exact getLast?_dropEndWhile isBlank m

theorem IsTidy.trimLineEnds_eq {t : Text} (h : IsTidy t) : trimLineEnds t = t := by
  have htrim := trimLineEnds_intercalate (List.splitOn_ne_nil '\n' t)
    (fun l hl => not_mem_of_mem_splitOn hl) h.lineEnds
  rwa [List.intercalate_splitOn] at htrim

theorem StartsVisibly.trimLineEnds {t : Text} (h : StartsVisibly t) :
    StartsVisibly (trimLineEnds t) := by
  obtain ⟨c, u, rfl, hc⟩ := h
  have hblank : isBlank c = false := by
    by_contra hb
    rw [isSpace_of_isBlank (by simpa using hb)] at hc
    cases hc
  have hnewline : c ≠ '\n' := by
    rintro rfl
    exact absurd hc (by decide)
  cases hsplit : u.splitOn '\n' with
  | nil => exact absurd hsplit (List.splitOn_ne_nil '\n' u)
  | cons l ls =>
    have hline : StartsVisibly (dropEndWhile isBlank (c :: l)) := by
      have happend : dropEndWhile isBlank ([c] ++ l) =
          [c] ++ if l.all isBlank then [] else dropEndWhile isBlank l := by
        rw [dropEndWhile_append]
        split
        · simp [dropEndWhile, hblank]
        · rfl
      rw [List.singleton_append] at happend
      rw [happend]
      exact ⟨c, _, rfl, hc⟩
    rw [Text.trimLineEnds, List.splitOn_cons_eq_if_modifyHead, if_neg (by simpa using hnewline),
      hsplit, List.modifyHead_cons, List.map_cons, intercalate_cons]
    exact hline.append _

/-- The last character of a text stays if it is visible. -/
theorem getLast?_trimLineEnds {t : Text} {c : Char} (hlast : t.getLast? = some c)
    (hc : isSpace c = false) : (trimLineEnds t).getLast? = some c := by
  have hblank : isBlank c = false := by
    by_contra hb
    rw [isSpace_of_isBlank (by simpa using hb)] at hc
    cases hc
  have hone : [c].splitOn '\n' = [[c]] := by
    apply List.splitOn_eq_singleton
    rintro (_ | ⟨_, ⟨⟩⟩)
    exact absurd hc (by decide)
  obtain ⟨u, rfl⟩ := List.getLast?_eq_some_iff.mp hlast
  obtain ⟨ls, l, hsplit⟩ := (List.eq_nil_or_concat' _).resolve_left (List.splitOn_ne_nil '\n' u)
  have hline : dropEndWhile isBlank (l ++ [c]) = l ++ [c] := by
    apply dropEndWhile_eq_self
    simpa using hblank
  rw [trimLineEnds, splitOn_append_parts hsplit hone, List.map_append, List.map_singleton, hline,
    intercalate_append_last, ← List.append_assoc, List.getLast?_concat]

theorem IsTight.isTidy_trimLineEnds {t : Text} (h : IsTight t) : IsTidy (trimLineEnds t) := by
  refine ⟨?_, ?_, fun l hl => getLast?_of_mem_trimLineEnds hl⟩
  · obtain ⟨c, u, hcu, hc⟩ := h.front.trimLineEnds
    simpa [hcu] using hc
  · have hne := h.front.ne_nil
    have hlast := List.getLast?_eq_some_getLast hne
    have hvisible : isSpace (t.getLast hne) = false := by
      simpa using List.rdropWhile_eq_self_iff.mp h.back hne
    rw [getLast?_trimLineEnds hlast hvisible]
    simpa using hvisible

end LuaStubs.Text
