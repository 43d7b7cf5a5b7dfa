import LuaStubs.Command.FileTree
import LuaStubs.Proofs.Text.Parts

namespace LuaStubs.FileTree

theorem lookup_setEntry (place p : List Text) (node : Node) (es : List (List Text × Node)) :
    (setEntry place node es).lookup p = if p = place then some node else es.lookup p := by
  have hbeq {q : List Text} (h : p ≠ q) : (p == q) = false := beq_eq_false_iff_ne.mpr h
  induction es with
  | nil =>
    by_cases hp : p = place
    · simp [setEntry, hp]
    · simp [setEntry, List.lookup_cons, hp, hbeq hp]
  | cons e es ih =>
    obtain ⟨q, n⟩ := e
    rw [setEntry]
    by_cases hq : q = place
    · by_cases hp : p = place
      · simp [hq, hp]
      · simp [hq, hp, List.lookup_cons, hbeq hp]
    · by_cases hp : p = q
      · simp [hp, hq]
      · simp [hq, List.lookup_cons, hbeq hp, ih]

theorem node?_set {place : List Text} (hplace : isGiven place = false) (t : FileTree) (node : Node)
    (p : List Text) : (t.set place node).node? p = if p = place then some node else t.node? p := by
  by_cases hp : p = place
  · simp [node?, set, lookup_setEntry, hp, hplace]
  · simp [node?, set, lookup_setEntry, hp]

theorem isGiven_append {name : Text} (h : isDots name = false) (parent : List Text) :
    isGiven (parent ++ [name]) = false := by
  simp only [isDots, Bool.or_eq_false_iff, decide_eq_false_iff_not] at h
  obtain ⟨⟨hroot, -⟩, hup⟩ := h
  cases parent with
  | nil => simp [isGiven, hroot, hup]
  | cons q parent => simp [isGiven, hup]

section Growth
variable {t t' t'' : FileTree}

/-- What is there stays, and directories stay directories. -/
structure Grows (t t' : FileTree) : Prop where
  directories : ∀ p, t.isDirectoryAt p = true → t'.isDirectoryAt p = true
  nodes : ∀ p, t'.node? p = none → t.node? p = none

theorem Grows.refl (t : FileTree) : Grows t t := ⟨fun _ h => h, fun _ h => h⟩

theorem Grows.trans (h : Grows t t') (h' : Grows t' t'') : Grows t t'' :=
  ⟨fun p hp => h'.directories p (h.directories p hp), fun p hp => h.nodes p (h'.nodes p hp)⟩

theorem grows_set {place : List Text} (hplace : isGiven place = false)
    (hdir : t.isDirectoryAt place = false) (node : Node) : Grows t (t.set place node) := by
  constructor
  · intro p hp
    have hne : p ≠ place := by
      rintro rfl
      simp [hdir] at hp
    simpa [isDirectoryAt, node?_set hplace, hne] using hp
  · intro p hp
    rw [node?_set hplace] at hp
    split at hp
    · cases hp
    · exact hp

/-- A step of a path that leads somewhere leads there also after more has been put into the tree. -/
theorem Grows.stepFrom (h : Grows t t') {place q : List Text} {name : Text}
    (hstep : t.stepFrom place name = .ok q) : t'.stepFrom place name = .ok q := by
  unfold FileTree.stepFrom at hstep ⊢
  split at hstep
  · next hroot => rwa [if_pos hroot]
  next hroot =>
  rw [if_neg hroot]
  split at hstep
  · cases hstep
  next hdir =>
  have hdir' := h.directories place (by simpa using hdir)
  rw [if_neg (by simp [hdir'])]
  split at hstep
  · next hcur => rwa [if_pos hcur]
  next hcur =>
  rw [if_neg hcur]
  split at hstep
  · next hup => rwa [if_pos hup]
  next hup =>
  rw [if_neg hup]
  split at hstep
  · cases hstep
  next hsome =>
  have hsome' : ¬(t'.node? (place ++ [name])).isNone = true := by
    intro hnone
    rw [Option.isNone_iff_eq_none] at hnone hsome
    exact hsome (h.nodes _ hnone)
  rwa [if_neg hsome']

theorem Grows.follow (h : Grows t t') {place q : List Text} {names : List Text}
    (hfollow : t.follow place names = .ok q) : t'.follow place names = .ok q := by
  induction names generalizing place with
  | nil => exact hfollow
  | cons name names ih =>
    rw [FileTree.follow] at hfollow ⊢
    split at hfollow
    · cases hfollow
    · next r hstep =>
      rw [h.stepFrom hstep]
      exact ih hfollow

theorem Grows.locate (h : Grows t t') {path : Text} {place : List Text}
    (hlocate : t.locate path = .ok place) : t'.locate path = .ok place := by
  unfold FileTree.locate at hlocate ⊢
  split at hlocate
  · cases hlocate
  · next hne =>
    rw [if_neg hne]
    exact h.follow hlocate

end Growth

section Put
variable {t t' : FileTree}

theorem follow_append (t : FileTree) (place : List Text) (ns ms : List Text) :
    t.follow place (ns ++ ms) = (t.follow place ns).bind fun q => t.follow q ms := by
  induction ns generalizing place with
  | nil => rfl
  | cons n ns ih =>
    rw [List.cons_append, follow, follow]
    cases t.stepFrom place n with
    | error e => rfl
    | ok q => exact ih q

/-- A name that is no dots leads from a directory to what it holds under this name. -/
theorem stepFrom_name {parent : List Text} {name : Text} (hdots : isDots name = false) :
    t.stepFrom parent name =
      if !t.isDirectoryAt parent then .error .notADirectory
      else if (t.node? (parent ++ [name])).isNone then .error .notFound
      else .ok (parent ++ [name]) := by
  simp only [isDots, Bool.or_eq_false_iff, decide_eq_false_iff_not] at hdots
  obtain ⟨⟨hroot, hcur⟩, hup⟩ := hdots
  rw [stepFrom, if_neg hroot, if_neg hcur, if_neg hup]

/-- What is put into a directory is where its names lead. -/
theorem follow_set {names parent : List Text} {last : Text} (hlast : names.getLast? = some last)
    (hparent : t.parentOf names = .ok parent) (hdots : isDots last = false)
    (hdir : t.isDirectoryAt (parent ++ [last]) = false) (node : Node) :
    (t.set (parent ++ [last]) node).follow [] names = .ok (parent ++ [last]) := by
  have hgiven := isGiven_append hdots parent
  have hgrows := grows_set hgiven hdir node
  obtain ⟨front, rfl⟩ := List.getLast?_eq_some_iff.mp hlast
  unfold parentOf at hparent
  rw [List.dropLast_concat] at hparent
  split at hparent
  · cases hparent
  next above habove =>
  split at hparent
  · next hparentDir =>
    obtain rfl := Except.ok.inj hparent
    have hstep : (t.set (above ++ [last]) node).stepFrom above last = .ok (above ++ [last]) := by
      rw [stepFrom_name hdots]
      simp [hgrows.directories _ hparentDir, node?_set hgiven]
    simp only [follow_append, hgrows.follow habove, Except.bind, follow, hstep]
  · cases hparent

end Put

section Directories
variable {t t' t'' : FileTree} {steps : List Text}

/-- The files of both trees are at the same places, and as readable, and hold the same. -/
def SameFiles (t t' : FileTree) : Prop :=
  ∀ place r c, t'.node? place = some (.file r c) ↔ t.node? place = some (.file r c)

/-- All that was there stays as it is, and what is new is a directory that some steps pass. -/
structure AddsDirectories (steps : List Text) (t t' : FileTree) : Prop where
  kept : ∀ place node, t.node? place = some node → t'.node? place = some node
  added : ∀ place node, t.node? place = none → t'.node? place = some node →
    node = .directory true ∧ ∃ front, front <+: steps ∧ t'.follow [] front = .ok place

namespace AddsDirectories

theorem refl (steps : List Text) (t : FileTree) : AddsDirectories steps t t := by
  refine ⟨fun _ _ h => h, fun place node hnone hsome => ?_⟩
  rw [hnone] at hsome
  cases hsome

theorem grows (h : AddsDirectories steps t t') : Grows t t' := by
  constructor
  · intro p hp
    obtain ⟨node, hnode, hdir⟩ := (Option.any_eq_true _ _).mp hp
    exact (Option.any_eq_true _ _).mpr ⟨node, h.kept p node hnode, hdir⟩
  · intro p hp
    by_contra hsome
    obtain ⟨node, hnode⟩ := Option.ne_none_iff_exists'.mp hsome
    rw [h.kept p node hnode] at hp
    cases hp

theorem trans (h : AddsDirectories steps t t') (h' : AddsDirectories steps t' t'') :
    AddsDirectories steps t t'' := by
  refine ⟨fun place node hnode => h'.kept place node (h.kept place node hnode), ?_⟩
  intro place node hnone hnode
  cases hmiddle : t'.node? place with
  | none => exact h'.added place node hmiddle hnode
  | some made =>
    obtain ⟨hdir, front, hfront, hfollow⟩ := h.added place made hnone hmiddle
    obtain rfl := Option.some.inj ((h'.kept place made hmiddle).symm.trans hnode)
    exact ⟨hdir, front, hfront, h'.grows.follow hfollow⟩

/-- Other steps that lead wherever these do pass the same directories. -/
theorem of_fronts {steps' : List Text} (h : AddsDirectories steps t t')
    (hsteps : ∀ front place, front <+: steps → t'.follow [] front = .ok place →
      ∃ front', front' <+: steps' ∧ t'.follow [] front' = .ok place) :
    AddsDirectories steps' t t' := by
  refine ⟨h.kept, fun place node hnone hnode => ?_⟩
  obtain ⟨hdir, front, hfront, hfollow⟩ := h.added place node hnone hnode
  exact ⟨hdir, hsteps front place hfront hfollow⟩

theorem mono {steps' : List Text} (h : AddsDirectories steps t t') (hsteps : steps <+: steps') :
    AddsDirectories steps' t t' :=
  h.of_fronts fun front _ hfront hfollow => ⟨front, hfront.trans hsteps, hfollow⟩

theorem sameFiles (h : AddsDirectories steps t t') : SameFiles t t' := by
  intro place r c
  refine ⟨fun hfile => ?_, h.kept place _⟩
  cases hnode : t.node? place with
  | none => cases (h.added place _ hnode hfile).1
  | some node => exact (h.kept place node hnode).symm.trans hfile

end AddsDirectories

/-- Making a directory puts it where nothing was, and its names lead there afterwards. -/
theorem makeDirectory_cases {names : List Text} (h : t.makeDirectory names = .ok t') : ∃ place,
    isGiven place = false ∧ t.node? place = none ∧ t' = t.set place (.directory true) ∧
      t'.follow [] names = .ok place := by
  unfold makeDirectory at h
  split at h
  · cases h
  next last hlast =>
  split at h
  · cases h
  next parent hparent =>
  split at h
  · cases h
  next hfree =>
  obtain rfl := Except.ok.inj h
  simp only [Bool.or_eq_true, not_or, Bool.not_eq_true, Option.isSome_eq_false_iff,
    Option.isNone_iff_eq_none] at hfree
  obtain ⟨hdots, hnone⟩ := hfree
  have hdir : t.isDirectoryAt (parent ++ [last]) = false := by simp [isDirectoryAt, hnone]
  exact ⟨parent ++ [last], isGiven_append hdots parent, hnone, rfl,
    follow_set hlast hparent hdots hdir _⟩

theorem addsDirectories_of_makeDirectory {names : List Text} (h : t.makeDirectory names = .ok t') :
    AddsDirectories names t t' := by
  obtain ⟨made, hgiven, hfree, rfl, hfollow⟩ := makeDirectory_cases h
  constructor
  · intro place node hnode
    have hne : place ≠ made := by
      rintro rfl
      rw [hfree] at hnode
      cases hnode
    rw [node?_set hgiven, if_neg hne, hnode]
  · intro place node hnone hnode
    rw [node?_set hgiven] at hnode
    split at hnode
    · next hplace =>
      obtain rfl := Option.some.inj hnode
      exact ⟨rfl, names, List.prefix_rfl, hplace ▸ hfollow⟩
    · rw [hnone] at hnode
      cases hnode

theorem addsDirectories_of_ensureDirectory {names : List Text}
    (h : t.ensureDirectory names = .ok t') : AddsDirectories names t t' := by
  unfold ensureDirectory at h
  split at h
  · next t₁ hmake =>
    obtain rfl := Except.ok.inj h
    exact addsDirectories_of_makeDirectory hmake
  · split at h
    · split at h
      · obtain rfl := Except.ok.inj h
        exact .refl names t
      · cases h
    · cases h

/-- The tree that there is after an attempt. -/
def treeAfter : Except (FileTree × OsError) FileTree → FileTree
  | .ok t => t
  | .error (t, _) => t

theorem addsDirectories_of_attempt (t : FileTree) (names : List Text) :
    AddsDirectories names t (treeAfter ((t.ensureDirectory names).mapError (t, ·))) := by
  cases h : t.ensureDirectory names with
  | error e => exact .refl names t
  | ok t' => exact addsDirectories_of_ensureDirectory h

theorem addsDirectories_of_ensureAbove (t : FileTree) (names : List Text) :
    AddsDirectories names.reverse t (treeAfter (t.ensureAbove names)) := by
  induction names generalizing t with
  | nil => exact .refl _ t
  | cons name above ih =>
    rw [ensureAbove]
    split
    · have hfront : above.reverse <+: (name :: above).reverse := by simp
      have hmade := (ih t).mono hfront
      cases habove : t.ensureAbove above with
      | error e =>
        rw [habove] at hmade
        exact hmade
      | ok t₁ =>
        rw [habove] at hmade
        exact hmade.trans (addsDirectories_of_attempt t₁ _)
    · exact addsDirectories_of_attempt t _

/-- The steps of a path without those that stay where they are. -/
def wayOf (path : Text) : List Text := (Path.parts path).map Path.Part.text

theorem map_text_filterMap (segs : List Text) :
    (segs.filterMap Path.Part.ofSegment?).map Path.Part.text =
      (segs.filter (· ≠ [])).filter (· ≠ ['.']) := by
  induction segs with
  | nil => rfl
  | cons seg segs ih =>
    by_cases hnil : seg = []
    · simpa [hnil, Path.Part.ofSegment?] using ih
    by_cases hcur : seg = ['.']
    · simpa [hcur, Path.Part.ofSegment?] using ih
    by_cases hup : seg = ['.', '.']
    · simpa [hup, Path.Part.ofSegment?, Path.Part.text] using ih
    · simpa [hnil, hcur, hup, Path.Part.ofSegment?, Path.Part.text] using ih

theorem segments_eq_cons_wayOf {path : Text} (hpath : path ≠ []) : ∃ first rest,
    segments path = first :: rest ∧ wayOf path = first :: rest.filter (· ≠ ['.']) := by
  cases path with
  | nil => exact absurd rfl hpath
  | cons c path =>
    cases hsplit : path.splitOn '/' with
    | nil => exact absurd hsplit (List.splitOn_ne_nil '/' path)
    | cons front segs =>
      by_cases hslash : c = '/'
      · refine ⟨['/'], (front :: segs).filter (· ≠ []), ?_, ?_⟩
        · simp [segments, List.splitOn_cons_eq_if_modifyHead, hslash, hsplit]
        · rw [← map_text_filterMap]
          simp [wayOf, Path.parts, List.splitOn_cons_eq_if_modifyHead, hslash, hsplit,
            Path.frontPart?, Path.Part.text]
      · refine ⟨c :: front, segs.filter (· ≠ []), ?_, ?_⟩
        · simp [segments, List.splitOn_cons_eq_if_modifyHead, hslash, hsplit]
        · have hfront : (Path.frontPart? (c :: front) !segs.isEmpty).toList.map Path.Part.text =
              [c :: front] := by
            by_cases hcur : c :: front = ['.']
            · simp [hcur, Path.frontPart?, Path.Part.text]
            by_cases hup : c :: front = ['.', '.']
            · simp [hup, Path.frontPart?, Path.Part.ofSegment?, Path.Part.text]
            · simp [hcur, hup, Path.frontPart?, Path.Part.ofSegment?, Path.Part.text]
          rw [← map_text_filterMap]
          simp [wayOf, Path.parts, List.splitOn_cons_eq_if_modifyHead, hslash, hsplit, hfront]

/-- Steps that stay where they are can be left out of a way. -/
theorem follow_filter {place q : List Text} {names : List Text}
    (h : t.follow place names = .ok q) :
    t.follow place (names.filter (· ≠ ['.'])) = .ok q := by
  induction names generalizing place with
  | nil => exact h
  | cons name names ih =>
    rw [follow] at h
    split at h
    · cases h
    next r hstep =>
    by_cases hcur : name = ['.']
    · have hstay : r = place := by
        subst hcur
        unfold stepFrom at hstep
        split at hstep
        · next hroot => exact absurd hroot (by decide)
        · split at hstep
          · cases hstep
          · exact (Except.ok.inj hstep).symm
      rw [List.filter_cons_of_neg (by simp [hcur]), ← hstay]
      exact ih h
    · rw [List.filter_cons_of_pos (by simp [hcur]), follow, hstep]
      exact ih h

/-- A way along the segments of a path is one along its parts. -/
theorem exists_front_wayOf {path : Text} {front place : List Text}
    (hfront : front <+: segments path) (h : t.follow [] front = .ok place) :
    ∃ front', front' <+: wayOf path ∧ t.follow [] front' = .ok place := by
  cases front with
  | nil => exact ⟨[], List.nil_prefix, h⟩
  | cons name names =>
    have hpath : path ≠ [] := by
      rintro rfl
      simp [segments] at hfront
    obtain ⟨first, rest, hsegments, hway⟩ := segments_eq_cons_wayOf hpath
    rw [hsegments, List.cons_prefix_cons] at hfront
    obtain ⟨rfl, hrest⟩ := hfront
    refine ⟨name :: names.filter (· ≠ ['.']), ?_, ?_⟩
    · rw [hway]
      exact List.cons_prefix_cons.mpr ⟨rfl, hrest.filter _⟩
    · rw [follow] at h ⊢
      split at h
      · cases h
      · next q hstep => exact follow_filter h

/-- Making a directory and those above it adds directories on its path and nothing else. -/
theorem addsDirectories_of_ensurePath (t : FileTree) (path : Text) :
    AddsDirectories (wayOf path) t (treeAfter (t.ensurePath path)) := by
  have hlast (t : FileTree) : AddsDirectories (wayOf path) t
      (treeAfter ((t.ensureDirectory (segments path)).mapError (t, ·))) :=
    (addsDirectories_of_attempt t _).of_fronts fun _ _ => exists_front_wayOf
  rw [ensurePath]
  split
  · have hfront : (Path.parts path).dropLast.map Path.Part.text <+: wayOf path :=
      (List.dropLast_prefix _).map _
    have hmade := addsDirectories_of_ensureAbove t
      ((Path.parts path).dropLast.map Path.Part.text).reverse
    rw [List.reverse_reverse] at hmade
    split
    · next e habove =>
      rw [habove] at hmade
      exact hmade.mono hfront
    · next t₁ habove =>
      rw [habove] at hmade
      exact (hmade.mono hfront).trans (hlast t₁)
  · exact hlast t

end Directories

section Write
variable {t t' : FileTree} {path content : Text}

/-- Writing puts the text at a place that is no directory, and the path leads to it afterwards. -/
theorem write_cases (h : t.write path content = .ok t') : ∃ place readable,
    isGiven place = false ∧ t.isDirectoryAt place = false ∧
      t' = t.set place (.file readable (.text content)) ∧ t'.locate path = .ok place := by
  unfold write at h
  split at h
  · cases h
  next last hlast =>
  split at h
  · cases h
  next parent hparent =>
  split at h
  · cases h
  next hfree =>
  obtain rfl := Except.ok.inj h
  simp only [Bool.or_eq_true, not_or, Bool.not_eq_true] at hfree
  obtain ⟨⟨hslash, hdots⟩, hdir⟩ := hfree
  refine ⟨parent ++ [last], _, isGiven_append hdots parent, hdir, rfl, ?_⟩
  have hpath : path ≠ [] := by
    rintro rfl
    simp [segments] at hlast
  rw [locate, if_neg hpath, hslash]
  simp only [Bool.false_eq_true, if_false, List.append_nil]
  exact follow_set hlast hparent hdots hdir _

theorem grows_of_write (h : t.write path content = .ok t') : Grows t t' := by
  obtain ⟨place, readable, hgiven, hdir, rfl, -⟩ := write_cases h
  exact grows_set hgiven hdir _

theorem get?_of_locate {place : List Text} (h : t.locate path = .ok place) :
    t.get? path = t.node? place := by
  rw [get?, h]

/-- A path leads to what was written there last. -/
theorem content?_of_write (h : t.write path content = .ok t') :
    t'.content? path = some (.text content) := by
  obtain ⟨place, readable, hgiven, -, rfl, hlocate⟩ := write_cases h
  rw [content?, get?_of_locate hlocate, node?_set hgiven, if_pos rfl]
  rfl

/-- A path that leads elsewhere leads to the same as before. -/
theorem get?_of_write_of_ne (h : t.write path content = .ok t') {other : Text} {place : List Text}
    (hother : t.locate other = .ok place) (hne : t'.locate path ≠ t'.locate other) :
    t'.get? other = t.get? other := by
  have hother' := (grows_of_write h).locate hother
  obtain ⟨written, readable, hgiven, -, rfl, hlocate⟩ := write_cases h
  have hplace : place ≠ written := by
    rintro rfl
    exact hne (hlocate.trans hother'.symm)
  rw [get?_of_locate hother', get?_of_locate hother, node?_set hgiven, if_neg hplace]

end Write

/-- A name that something in a directory can have. -/
structure IsName (name : Text) : Prop where
  ne_nil : name ≠ []
  no_slash : '/' ∉ name
  not_dots : isDots name = false

section Names
variable {t : FileTree} {dir name : Text}

theorem segments_join (h : IsName name) :
    segments (Path.join dir name) = segments dir ++ [name] := by
  have hne := h.ne_nil
  have hsplit : name.splitOn '/' = [name] := List.splitOn_eq_singleton h.no_slash
  have hhead : name.head? ≠ some '/' := fun hc => h.no_slash (List.mem_of_head? hc)
  unfold Path.join
  by_cases hdir : dir = []
  · simp [hdir, segments, hhead, hsplit, hne]
  have hfront (u : Text) : (dir ++ u).head? = dir.head? := by
    cases dir with
    | nil => exact absurd rfl hdir
    | cons c dir => rfl
  simp only [hhead, hdir, decide_false, Bool.or_false, Bool.false_eq_true, if_false]
  unfold segments
  split
  · next hlast =>
    rw [hfront]
    obtain ⟨front, rfl⟩ := List.getLast?_eq_some_iff.mp hlast
    rw [List.append_assoc, List.singleton_append, List.splitOn_append_cons_self,
      List.splitOn_append_cons_self, hsplit]
    simp [hne]
  · rw [List.append_assoc, hfront, List.singleton_append, List.splitOn_append_cons_self, hsplit]
    simp [hne]

theorem endsWithSlash_join (h : IsName name) : endsWithSlash (Path.join dir name) = false := by
  have hlast : name.getLast? ≠ some '/' := fun hc => h.no_slash (List.mem_of_getLast? hc)
  obtain ⟨front, hjoin⟩ : ∃ front, Path.join dir name = front ++ name := by
    unfold Path.join
    split
    · exact ⟨[], rfl⟩
    · split
      · exact ⟨dir, rfl⟩
      · exact ⟨dir ++ ['/'], rfl⟩
  rw [endsWithSlash, hjoin, List.getLast?_append_of_ne_nil front h.ne_nil]
  simpa using hlast

/-- The way to a name in a directory is the way to the directory, and then the name. -/
theorem locate_join (hname : IsName name) {place : List Text}
    (h : t.locate (Path.join dir name) = .ok place) :
    ∃ parent, t.follow [] (segments dir) = .ok parent ∧ place = parent ++ [name] := by
  rw [locate] at h
  split at h
  · cases h
  rw [endsWithSlash_join hname, segments_join hname] at h
  simp only [Bool.false_eq_true, if_false, List.append_nil, follow_append] at h
  cases hdir : t.follow [] (segments dir) with
  | error e => simp [hdir, Except.bind] at h
  | ok parent =>
    simp only [hdir, Except.bind, follow, stepFrom_name hname.not_dots] at h
    refine ⟨parent, rfl, ?_⟩
    split at h
    · cases h
    · next q hstep =>
      split at hstep
      · cases hstep
      · split at hstep
        · cases hstep
        · rw [← Except.ok.inj h, ← Except.ok.inj hstep]

/-- In one directory, two names lead to the same place only if they are the same. -/
theorem locate_join_eq_iff {name' : Text} (hname : IsName name) (hname' : IsName name')
    {place place' : List Text} (h : t.locate (Path.join dir name) = .ok place)
    (h' : t.locate (Path.join dir name') = .ok place') : place = place' ↔ name = name' := by
  obtain ⟨parent, hparent, rfl⟩ := locate_join hname h
  obtain ⟨parent', hparent', rfl⟩ := locate_join hname' h'
  obtain rfl := Except.ok.inj (hparent.symm.trans hparent')
  simp

end Names

end LuaStubs.FileTree
