import Literate.Proofs.Files
import Literate.Proofs.Paths
import Literate.Settings.File
import Literate.World

namespace Literate

namespace Text

theorem length_le_byteSize (t : Text) : t.length ≤ t.byteSize := by
  have counted (n : Nat) : n + t.length ≤ t.foldl (fun n c => n + c.utf8Size) n := by
    induction t generalizing n with
    | nil => exact Nat.le_refl n
    | cons c t ih =>
      have one : 0 < c.utf8Size := c.utf8Size_pos
      have rest := ih (n + c.utf8Size)
      rw [List.foldl_cons, List.length_cons]
      omega
  have whole := counted 0
  unfold byteSize
  omega

end Text

namespace Path

/-- Whether steps never lead above the directory they begin in, `depth` levels further up. -/
def staysBelow : Nat → List Text → Bool
  | _, [] => true
  | depth, piece :: rest =>
    if piece = ['.', '.'] then
      match depth with
      | 0 => false
      | depth + 1 => staysBelow depth rest
    else staysBelow (depth + 1) rest

theorem mem_unsplit {c : Char} {pieces : List Text} (h : c ∈ unsplit pieces) :
    c = '/' ∨ ∃ piece ∈ pieces, c ∈ piece := by
  induction pieces with
  | nil => simp [unsplit] at h
  | cons piece pieces ih =>
    cases pieces with
    | nil => exact Or.inr ⟨piece, List.mem_cons_self, h⟩
    | cons next pieces =>
      have parts : c ∈ piece ++ '/' :: unsplit (next :: pieces) := h
      rcases List.mem_append.1 parts with here | later
      · exact Or.inr ⟨piece, List.mem_cons_self, here⟩
      · rcases List.mem_cons.1 later with slash | later
        · exact Or.inl slash
        · rcases ih later with slash | ⟨other, mem, inside⟩
          · exact Or.inl slash
          · exact Or.inr ⟨other, List.mem_cons_of_mem _ mem, inside⟩

/-- The characters of a path that are neither slashes nor dots are those of its steps. -/
theorem exists_step_of_mem {c : Char} {p : Text} (h : c ∈ p) (slash : c ≠ '/') (dot : c ≠ '.') :
    ∃ piece ∈ steps p, c ∈ piece := by
  rw [← unsplit_splitOn p] at h
  rcases mem_unsplit h with same | ⟨piece, mem, inside⟩
  · exact absurd same slash
  · have named : isSilent piece = false := by
      rw [← Bool.not_eq_true]
      intro silent
      rcases isSilent_iff.1 silent with rfl | rfl
      · exact List.not_mem_nil inside
      · exact dot (List.mem_singleton.1 inside)
    exact ⟨piece, List.mem_filter.2 ⟨mem, by simp [named]⟩, inside⟩

end Path

namespace FileTree

variable {t : FileTree}

theorem enter_ok_iff {spot next : Spot} {piece : Text} (named : Path.isSilent piece = false) :
    enter spot piece = .ok next ↔ piece = ['.', '.'] ∧ next = spot.dropLast ∨
      piece ≠ ['.', '.'] ∧ isLong piece = false ∧ next = spot ++ [piece] := by
  unfold enter
  rw [named, if_neg Bool.false_ne_true]
  by_cases up : piece = ['.', '.']
  · rw [if_pos up, Except.ok.injEq]
    constructor
    · intro same
      exact Or.inl ⟨up, same.symm⟩
    · rintro (⟨_, same⟩ | ⟨down, _⟩)
      · exact same.symm
      · exact absurd up down
  · rw [if_neg up]
    cases isLong piece with
    | true => simp [up]
    | false =>
      rw [if_neg Bool.false_ne_true, Except.ok.injEq]
      constructor
      · intro same
        exact Or.inr ⟨up, rfl, same.symm⟩
      · rintro (⟨up', _⟩ | ⟨_, _, same⟩)
        · exact absurd up' up
        · exact same.symm

theorem walk_filter {spot target : Spot} {pieces : List Text}
    (h : t.walk spot pieces = .ok target) :
    t.walk spot (pieces.filter fun piece => !Path.isSilent piece) = .ok target := by
  induction pieces generalizing spot with
  | nil => exact h
  | cons piece rest ih =>
    obtain ⟨hd, next, entered, later⟩ := walk_cons_ok_iff.1 h
    cases silent : Path.isSilent piece with
    | true =>
      have stay : spot = next := by simpa [enter, silent] using entered
      rw [List.filter_cons_of_neg (by simp [silent]), stay]
      exact ih later
    | false =>
      rw [List.filter_cons_of_pos (by simp [silent])]
      exact walk_cons_ok_iff.2 ⟨hd, next, entered, ih later⟩

/-- Pieces that name nothing only ask for a directory, and so does the walk to a directory. -/
theorem walk_filter_iff {spot target : Spot} {pieces : List Text}
    (hd : t.get? target = some .directory) :
    t.walk spot (pieces.filter fun piece => !Path.isSilent piece) = .ok target ↔
      t.walk spot pieces = .ok target := by
  refine ⟨?_, walk_filter⟩
  intro h
  induction pieces generalizing spot with
  | nil => exact h
  | cons piece rest ih =>
    cases silent : Path.isSilent piece with
    | true =>
      rw [List.filter_cons_of_neg (by simp [silent])] at h
      have here : t.get? spot = some .directory := by
        cases steps : rest.filter fun piece => !Path.isSilent piece with
        | nil =>
          rw [steps] at h
          have same : spot = target := Except.ok.inj h
          rw [same]
          exact hd
        | cons step steps' =>
          rw [steps] at h
          exact (walk_cons_ok_iff.1 h).1
      have stay : enter spot piece = .ok spot := by simp [enter, silent]
      exact walk_cons_ok_iff.2 ⟨here, spot, stay, ih h⟩
    | false =>
      rw [List.filter_cons_of_pos (by simp [silent])] at h
      obtain ⟨here, next, entered, later⟩ := walk_cons_ok_iff.1 h
      exact walk_cons_ok_iff.2 ⟨here, next, entered, ih later⟩

/-- Steps without double dots lead down by as many names. -/
theorem eq_append_of_walk {spot target : Spot} {steps : List Text}
    (named : ∀ step ∈ steps, Path.isSilent step = false) (noUp : ['.', '.'] ∉ steps)
    (h : t.walk spot steps = .ok target) : target = spot ++ steps := by
  induction steps generalizing spot with
  | nil =>
    rw [List.append_nil]
    exact (Except.ok.inj h).symm
  | cons step steps ih =>
    obtain ⟨_, next, entered, later⟩ := walk_cons_ok_iff.1 h
    have down : step ≠ ['.', '.'] := fun same => noUp (same ▸ List.mem_cons_self)
    have place : next = spot ++ [step] := by
      rcases (enter_ok_iff (named step List.mem_cons_self)).1 entered with ⟨up, _⟩ | ⟨_, _, place⟩
      · exact absurd up down
      · exact place
    have rest := ih (fun other mem => named other (List.mem_cons_of_mem _ mem))
      (fun mem => noUp (List.mem_cons_of_mem _ mem)) later
    rw [rest, place, List.append_assoc, List.singleton_append]

/-- Steps that stay below a directory end there or further down. -/
theorem isPrefix_of_walk {spot target : Spot} {steps : List Text} (extra : Spot)
    (named : ∀ step ∈ steps, Path.isSilent step = false)
    (below : Path.staysBelow extra.length steps = true)
    (h : t.walk (spot ++ extra) steps = .ok target) : spot <+: target := by
  induction steps generalizing extra with
  | nil =>
    have same : spot ++ extra = target := Except.ok.inj h
    exact ⟨extra, same⟩
  | cons step steps ih =>
    obtain ⟨_, next, entered, later⟩ := walk_cons_ok_iff.1 h
    have named' : ∀ other ∈ steps, Path.isSilent other = false :=
      fun other mem => named other (List.mem_cons_of_mem _ mem)
    unfold Path.staysBelow at below
    rcases (enter_ok_iff (named step List.mem_cons_self)).1 entered with
      ⟨up, place⟩ | ⟨down, _, place⟩
    · rw [if_pos up] at below
      cases hx : extra with
      | nil =>
        rw [hx] at below
        exact absurd below Bool.false_ne_true
      | cons name extra' =>
        have more : extra ≠ [] := by simp [hx]
        have length : extra.dropLast.length = extra'.length := by simp [hx]
        rw [hx] at below
        rw [place, List.dropLast_append_of_ne_nil more] at later
        exact ih extra.dropLast named' (length ▸ below) later
    · rw [if_neg down] at below
      rw [place, List.append_assoc] at later
      have length : (extra ++ [step]).length = extra.length + 1 := by simp
      exact ih (extra ++ [step]) named' (length ▸ below) later

/-- A name that something in a directory can have. -/
structure IsName (name : Text) : Prop where
  noSlash : '/' ∉ name
  named : Path.isSilent name = false
  notUp : name ≠ ['.', '.']
  short : isLong name = false

theorem IsName.steps {name : Text} (h : IsName name) : Path.steps name = [name] := by
  rw [Path.steps, Text.splitOn_of_not_mem h.noSlash, List.filter_cons_of_pos (by simp [h.named])]
  rfl

theorem start_join (t : FileTree) (dir : Text) {name : Text} (h : IsName name) :
    t.start (Path.join dir name) = t.start dir := by
  unfold start
  rw [Path.isAbsolute_join (Path.isAbsolute_of_not_mem h.noSlash)]

/-- A name joined to a path leads to the entry of this name, in the directory that the steps of the
path lead to. -/
theorem find_join_iff {dir name : Text} (hn : IsName name) {spot : Spot} {item : Item} :
    t.find (Path.join dir name) = .ok (spot, item) ↔ check (Path.join dir name) = .ok () ∧
      ∃ holder, t.walk (t.start dir) (Path.steps dir) = .ok holder ∧
        t.get? holder = some .directory ∧ spot = holder ++ [name] ∧ t.get? spot = some item := by
  obtain ⟨above, split⟩ := Path.splitOn_join dir hn.noSlash
  have steps : above.filter (fun piece => !Path.isSilent piece) = Path.steps dir := by
    have whole : Path.steps (Path.join dir name) = Path.steps dir ++ [name] := by
      rw [Path.steps_join (Path.isAbsolute_of_not_mem hn.noSlash), hn.steps]
    rw [Path.steps, split, List.filter_append,
      List.filter_cons_of_pos (by simp [hn.named]), List.filter_nil] at whole
    exact List.append_cancel_right whole
  have last {holder : Spot} : enter holder name = .ok spot ↔ spot = holder ++ [name] := by
    simp [enter_ok_iff hn.named, hn.notUp, hn.short]
  rw [find_ok_iff, t.start_join dir hn, split, walk_append_ok_iff, ← steps]
  constructor
  · rintro ⟨checked, ⟨holder, walked, final⟩, present⟩
    obtain ⟨hd, next, entered, stop⟩ := walk_cons_ok_iff.1 final
    obtain rfl : next = spot := Except.ok.inj stop
    exact ⟨checked, holder, (walk_filter_iff hd).2 walked, hd, last.1 entered, present⟩
  · rintro ⟨checked, holder, walked, hd, place, present⟩
    have final : t.walk holder [name] = .ok spot :=
      walk_cons_ok_iff.2 ⟨hd, spot, last.2 place, rfl⟩
    exact ⟨checked, ⟨holder, (walk_filter_iff hd).1 walked, final⟩, present⟩

theorem inside_of_isSome {dir : Spot} {name : Text}
    (h : (t.get? (dir ++ [name])).isSome = true) :
    t.get? dir = some .directory ∧ isLong name = false ∧ '\x00' ∉ name := by
  have nonempty : (dir ++ [name]).isEmpty = false := by simp
  rw [get?, itemAt?, nonempty, if_neg Bool.false_ne_true, Option.isSome_map] at h
  obtain ⟨e, he⟩ := Option.isSome_iff_exists.1 h
  have spot : e.1 = dir ++ [name] := by simpa using List.find?_some he
  have inside := t.nested e (List.mem_of_find?_eq_some he)
  rw [spot, List.dropLast_concat] at inside
  exact ⟨inside.1, by simpa [endsProper] using inside.2⟩

theorem directory_of_isSome {dir rest : Spot} (more : rest ≠ [])
    (present : (t.get? (dir ++ rest)).isSome = true) : t.get? dir = some .directory := by
  induction rest using List.reverseRecOn with
  | nil => exact absurd rfl more
  | append_singleton rest name ih =>
    rw [← List.append_assoc] at present
    have above := (inside_of_isSome present).1
    by_cases empty : rest = []
    · rwa [empty, List.append_nil] at above
    · exact ih empty (by rw [above]; rfl)

/-- What is on the way to something in the tree has a name that a path can have. -/
theorem name_of_isSome {dir names : Spot} (present : (t.get? (dir ++ names)).isSome = true)
    {name : Text} (mem : name ∈ names) : isLong name = false ∧ '\x00' ∉ name := by
  obtain ⟨before, behind, rfl⟩ := List.append_of_mem mem
  have here : (t.get? (dir ++ before ++ [name])).isSome = true := by
    cases behind with
    | nil => rwa [List.append_assoc]
    | cons next behind =>
      have split : dir ++ (before ++ name :: next :: behind) =
          dir ++ before ++ [name] ++ next :: behind := by simp
      rw [split] at present
      rw [directory_of_isSome (by simp) present]
      rfl
  exact (inside_of_isSome here).2

/-- Whatever is in the tree can be walked to. -/
theorem walk_of_isSome {dir : Spot} {steps : List Text} {last : Text}
    (named : ∀ step ∈ steps, Path.isSilent step = false) (noUp : ['.', '.'] ∉ steps)
    (present : (t.get? (dir ++ steps ++ [last])).isSome = true) :
    t.walk dir steps = .ok (dir ++ steps) := by
  induction steps generalizing dir with
  | nil =>
    rw [List.append_nil]
    rfl
  | cons step steps ih =>
    have split : dir ++ step :: steps ++ [last] = dir ++ (step :: steps ++ [last]) := by simp
    rw [split] at present
    have here : t.get? dir = some .directory := directory_of_isSome (by simp) present
    have short : isLong step = false := (name_of_isSome present (by simp)).1
    have down : step ≠ ['.', '.'] := fun same => noUp (same ▸ List.mem_cons_self)
    have entered : enter dir step = .ok (dir ++ [step]) :=
      (enter_ok_iff (named step List.mem_cons_self)).2 (Or.inr ⟨down, short, rfl⟩)
    have further : t.walk (dir ++ [step]) steps = .ok (dir ++ [step] ++ steps) := by
      apply ih
      · exact fun other mem => named other (List.mem_cons_of_mem _ mem)
      · exact fun mem => noUp (List.mem_cons_of_mem _ mem)
      · simpa using present
    rw [List.append_assoc, List.singleton_append] at further
    exact walk_cons_ok_iff.2 ⟨here, dir ++ [step], entered, further⟩

/-- The spot that a path without double dots stands for, whatever is in the tree. -/
def denotes (t : FileTree) (path : Text) : Spot := t.start path ++ Path.steps path

theorem start_of_mem_ascent (t : FileTree) {dir above : Text} (h : above ∈ Path.ascent dir) :
    t.start above = t.start dir := by
  unfold start
  rw [Path.isAbsolute_of_mem_ascent h]

/-- The paths on the way up stand for a directory and those above it. -/
theorem map_denotes_ascent (t : FileTree) (dir : Text) :
    (Path.ascent dir).map t.denotes =
      (Path.steps dir).inits.reverse.map (t.start dir ++ ·) ++
        (if Path.isDotted dir then [t.start dir] else []) := by
  have same : (Path.ascent dir).map t.denotes =
      ((Path.ascent dir).map Path.steps).map (t.start dir ++ ·) := by
    rw [List.map_map]
    apply List.map_congr_left
    intro above mem
    show t.start above ++ Path.steps above = t.start dir ++ Path.steps above
    rw [t.start_of_mem_ascent mem]
  rw [same, Path.map_steps_ascent, List.map_append]
  congr 1
  split
  · simp
  · rfl

/-- Something of this name is in the directory that the path stands for, and can be reached by the
path: one of 4096 bytes or more is not followed. -/
def Shows (t : FileTree) (dir name : Text) : Prop :=
  (t.get? (t.denotes dir ++ [name])).isSome = true ∧ (Path.join dir name).byteSize < 4096

instance (t : FileTree) (dir name : Text) : Decidable (t.Shows dir name) :=
  inferInstanceAs (Decidable (_ ∧ _))

theorem pathExists_iff {path : Text} :
    t.pathExists path = true ↔ ∃ spot item, t.find path = .ok (spot, item) := by
  unfold pathExists
  cases t.find path with
  | error e => simp [Except.toOption]
  | ok found =>
    obtain ⟨spot, item⟩ := found
    simp [Except.toOption]

theorem pathExists_join_iff {dir name : Text} (noUp : ['.', '.'] ∉ Path.steps dir)
    (hn : IsName name) : t.pathExists (Path.join dir name) = true ↔ t.Shows dir name := by
  have named : ∀ step ∈ Path.steps dir, Path.isSilent step = false :=
    fun step mem => Path.not_silent_of_mem_steps mem
  have steps : Path.steps (Path.join dir name) = Path.steps dir ++ [name] := by
    rw [Path.steps_join (Path.isAbsolute_of_not_mem hn.noSlash), hn.steps]
  rw [pathExists_iff]
  constructor
  · rintro ⟨spot, item, found⟩
    obtain ⟨checked, holder, walked, _, rfl, present⟩ := (find_join_iff hn).1 found
    have place : holder = t.denotes dir := eq_append_of_walk named noUp walked
    rw [place] at present
    exact ⟨by rw [present]; rfl, (check_ok_iff.1 checked).2.2⟩
  · rintro ⟨present, short⟩
    obtain ⟨item, got⟩ := Option.isSome_iff_exists.1 present
    have walked : t.walk (t.start dir) (Path.steps dir) = .ok (t.denotes dir) :=
      walk_of_isSome named noUp present
    have noZero : '\x00' ∉ Path.join dir name := by
      intro mem
      obtain ⟨piece, taken, inside⟩ := Path.exists_step_of_mem mem (by decide) (by decide)
      rw [steps] at taken
      unfold denotes at present
      rw [List.append_assoc] at present
      exact (name_of_isSome present taken).2 inside
    have nonempty : Path.join dir name ≠ [] := by
      intro empty
      rw [empty, Path.steps_nil] at steps
      simp at steps
    have checked : check (Path.join dir name) = .ok () :=
      check_ok_iff.2 ⟨noZero, nonempty, short⟩
    have hd : t.get? (t.denotes dir) = some .directory := (inside_of_isSome present).1
    exact ⟨_, item, (find_join_iff hn).2 ⟨checked, _, walked, hd, rfl, got⟩⟩

end FileTree

namespace Settings

open FileTree (IsName)

theorem isName_of_mem_fileNames {name : Text} (h : name ∈ fileNames) : IsName name := by
  rcases List.mem_cons.1 h with rfl | rest
  · exact ⟨by decide, by decide, by decide, by decide⟩
  · rw [List.mem_singleton.1 rest]
    exact ⟨by decide, by decide, by decide, by decide⟩

theorem searchPaths_eq (dir : Text) :
    searchPaths dir = (Path.ascent dir).flatMap fun d => fileNames.map (Path.join d) := by
  fun_induction Path.ascent dir with
  | case1 dir top =>
    rw [searchPaths]
    split
    · simp
    · simp_all
  | case2 dir parent up ih =>
    rw [searchPaths]
    split
    · simp_all
    · rename_i other up'
      obtain rfl : parent = other := Option.some.inj (up.symm.trans up')
      rw [ih, List.flatMap_cons]

/-- The search changes nothing and ends with the first path at which something is. -/
theorem run_find (w : World) (dir : Text) :
    (find dir : StateM World (Option Text)).run w =
      ((searchPaths dir).find? w.files.pathExists, w) := by
  have looked (paths : List Text) :
      (paths.findM? Host.pathExists : StateM World (Option Text)).run w =
        (paths.find? w.files.pathExists, w) := by
    induction paths with
    | nil => rfl
    | cons path paths ih =>
      have first : (Host.pathExists path : StateM World Bool).run w =
        (w.files.pathExists path, w) := rfl
      rw [List.findM?, StateT.run_bind, first, List.find?_cons]
      cases w.files.pathExists path with
      | true => rfl
      | false => exact ih
  exact looked (searchPaths dir)

theorem find?_searchPaths_eq_none_iff {p : Text → Bool} {dir : Text} :
    (searchPaths dir).find? p = none ↔
      ∀ d ∈ Path.ascent dir, ∀ name ∈ fileNames, p (Path.join d name) = false := by
  rw [List.find?_eq_none, searchPaths_eq]
  simp only [List.mem_flatMap, List.mem_map, Bool.not_eq_true]
  constructor
  · intro none d hd name hn
    exact none _ ⟨d, hd, name, hn, rfl⟩
  · rintro none _ ⟨d, hd, name, hn, rfl⟩
    exact none d hd name hn

/-- The first of the paths that are looked at: nothing is in the directories in front of it, nor
under the names that are preferred to its own. -/
theorem find?_searchPaths_eq_some_iff {p : Text → Bool} {dir file : Text} :
    (searchPaths dir).find? p = some file ↔
      ∃ nearer d further, Path.ascent dir = nearer ++ d :: further ∧
        (∀ d' ∈ nearer, ∀ name ∈ fileNames, p (Path.join d' name) = false) ∧
        ∃ preferred name others, fileNames = preferred ++ name :: others ∧
          (∀ name' ∈ preferred, p (Path.join d name') = false) ∧
          p (Path.join d name) = true ∧ file = Path.join d name := by
  have here (d : Text) : (fileNames.map (Path.join d)).find? p = some file ↔
      ∃ preferred name others, fileNames = preferred ++ name :: others ∧
        (∀ name' ∈ preferred, p (Path.join d name') = false) ∧
        p (Path.join d name) = true ∧ file = Path.join d name := by
    rw [List.find?_map, Option.map_eq_some_iff]
    simp only [List.find?_eq_some_iff_append, Function.comp_apply, Bool.not_eq_true']
    constructor
    · rintro ⟨name, ⟨found, preferred, others, split, before⟩, rfl⟩
      exact ⟨preferred, name, others, split, before, found, rfl⟩
    · rintro ⟨preferred, name, others, split, before, found, rfl⟩
      exact ⟨name, ⟨found, preferred, others, split, before⟩, rfl⟩
  have absent (d : Text) : (fileNames.map (Path.join d)).find? p = none ↔
      ∀ name ∈ fileNames, p (Path.join d name) = false := by
    simp [List.find?_eq_none]
  rw [searchPaths_eq, List.find?_flatMap, List.findSome?_eq_some_iff]
  simp only [here, absent]
  constructor
  · rintro ⟨nearer, d, further, split, found, before⟩
    exact ⟨nearer, d, further, split, before, found⟩
  · rintro ⟨nearer, d, further, split, before, found⟩
    exact ⟨nearer, d, further, split, found, before⟩

/-- The search ends in every tree, and looks for a file in the directory that it begins in and in
those above it, the nearest first: up to the root for an absolute path, and up to the current
directory for a relative one, which is looked at once more if the path begins with a dot. The file
that is found is in the nearest of them that shows one, under the name that is preferred. If none
shows any, nothing is found. -/
theorem find_nearest {w : World} {dir : Text} (noUp : ['.', '.'] ∉ Path.steps dir) :
    searchPaths dir = (Path.ascent dir).flatMap (fun d => fileNames.map (Path.join d)) ∧
      (Path.ascent dir).map w.files.denotes =
        (Path.steps dir).inits.reverse.map (w.files.start dir ++ ·) ++
          (if Path.isDotted dir then [w.files.start dir] else []) ∧
      ∃ answer, (find dir : StateM World (Option Text)).run w = (answer, w) ∧
        (answer = none ↔ ∀ d ∈ Path.ascent dir, ∀ name ∈ fileNames, ¬w.files.Shows d name) ∧
        ∀ file, answer = some file ↔
          ∃ nearer d further, Path.ascent dir = nearer ++ d :: further ∧
            (∀ d' ∈ nearer, ∀ name ∈ fileNames, ¬w.files.Shows d' name) ∧
            ∃ preferred name others, fileNames = preferred ++ name :: others ∧
              (∀ name' ∈ preferred, ¬w.files.Shows d name') ∧
              w.files.Shows d name ∧ file = Path.join d name := by
  have shows {d name : Text} (hd : d ∈ Path.ascent dir) (hn : name ∈ fileNames) :
      w.files.pathExists (Path.join d name) = true ↔ w.files.Shows d name := by
    have above := Path.steps_isPrefix_of_mem_ascent hd
    have noUp' : ['.', '.'] ∉ Path.steps d := fun mem => noUp (above.subset mem)
    exact FileTree.pathExists_join_iff noUp' (isName_of_mem_fileNames hn)
  have hides {d name : Text} (hd : d ∈ Path.ascent dir) (hn : name ∈ fileNames) :
      w.files.pathExists (Path.join d name) = false ↔ ¬w.files.Shows d name := by
    rw [← shows hd hn, Bool.not_eq_true]
  refine ⟨searchPaths_eq dir, w.files.map_denotes_ascent dir, _, run_find w dir, ?_, ?_⟩
  · rw [find?_searchPaths_eq_none_iff]
    exact forall₂_congr fun d hd => forall₂_congr fun name hn => hides hd hn
  · intro file
    rw [find?_searchPaths_eq_some_iff]
    refine exists_congr fun nearer => exists_congr fun d => exists_congr fun further => ?_
    refine and_congr_right fun split => ?_
    have here : d ∈ Path.ascent dir := by simp [split]
    have before {d' : Text} (hd : d' ∈ nearer) : d' ∈ Path.ascent dir := by simp [split, hd]
    apply and_congr
    · exact forall₂_congr fun d' hd => forall₂_congr fun name hn => hides (before hd) hn
    · refine exists_congr fun preferred => exists_congr fun name => exists_congr fun others => ?_
      refine and_congr_right fun names => ?_
      have chosen : name ∈ fileNames := by simp [names]
      have first {name' : Text} (hn : name' ∈ preferred) : name' ∈ fileNames := by simp [names, hn]
      apply and_congr
      · exact forall₂_congr fun name' hn => hides here (first hn)
      · exact and_congr (shows here chosen) Iff.rfl

/-- A file with the second name, two levels up from a path that begins and ends with a dot. -/
theorem find_nearest_dotted :
    let w : World := { files := { items :=
      [([['p']], .directory), ([['p'], ".tangler.toml".toList], .file (.text [])),
        ([['p'], ['q']], .directory), ([['p'], ['q'], ['r']], .directory)] } }
    (Path.ascent "./p//q/r/.".toList).map w.files.denotes =
        [[['p'], ['q'], ['r']], [['p'], ['q']], [['p']], [], []] ∧
    (find "./p//q/r/.".toList : StateM World (Option Text)).run w =
        (some "./p/.tangler.toml".toList, w) := by
  intro w
  have noUp : ['.', '.'] ∉ Path.steps "./p//q/r/.".toList := by decide
  obtain ⟨_, dirs, answer, run, _, found⟩ := @find_nearest w _ noUp
  have up : Path.ascent "./p//q/r/.".toList =
    ["./p//q/r/.".toList, "./p//q".toList] ++ "./p".toList :: [['.'], []] := by cbv
  have steps : Path.steps "./p//q/r/.".toList = [['p'], ['q'], ['r']] := by decide
  refine ⟨?_, ?_⟩
  · rw [dirs, steps]
    decide
  · rw [run]
    have file : answer = some "./p/.tangler.toml".toList := by
      refine (found _).2 ⟨_, _, _, up, ?_, ["tangler.toml".toList], _, [], rfl, ?_, ?_, rfl⟩
      · decide
      · decide
      · decide
    rw [file]

/-- A path of so many slashes that it cannot be followed: the directory has the file, and nothing is
found. -/
theorem find_misses_long_path :
    let w : World := { files := { items :=
      [([['a']], .directory), ([['a'], "tangler.toml".toList], .file (.text []))] } }
    let dir := 'a' :: List.replicate 4096 '/'
    ['.', '.'] ∉ Path.steps dir ∧ dir ∈ Path.ascent dir ∧
      w.files.denotes dir = [['a']] ∧
      (w.files.get? [['a'], "tangler.toml".toList]).isSome = true ∧
      (find dir : StateM World (Option Text)).run w = (none, w) := by
  intro w dir
  have steps : Path.steps dir = [['a']] := by
    show Path.steps (['a'] ++ '/' :: List.replicate 4095 '/') = [['a']]
    rw [Path.steps_append, Path.steps_slashes]
    decide
  have place : w.files.denotes dir = [['a']] := by
    rw [FileTree.denotes, steps]
    rfl
  have noUp : ['.', '.'] ∉ Path.steps dir := by
    rw [steps]
    decide
  refine ⟨noUp, Path.mem_ascent_self dir, place, rfl, ?_⟩
  rw [run_find]
  have none : (searchPaths dir).find? w.files.pathExists = none := by
    rw [find?_searchPaths_eq_none_iff]
    intro d hd name hn
    have isName := isName_of_mem_fileNames hn
    rw [← Bool.not_eq_true]
    rcases Path.mem_ascent_cases hd with rfl | above
    · rw [FileTree.pathExists_join_iff noUp isName]
      rintro ⟨_, short⟩
      have long : 4096 ≤ dir.length := by
        rw [List.length_cons, List.length_replicate]
        omega
      have further := Path.length_le_length_join dir (Path.isAbsolute_of_not_mem isName.noSlash)
      have bytes := Text.length_le_byteSize (Path.join dir name)
      omega
    · rw [steps] at above
      have still : Path.steps d = [] := List.prefix_nil.1 above
      have noUp' : ['.', '.'] ∉ Path.steps d := by simp [still]
      have top : w.files.denotes d = [] := by
        rw [FileTree.denotes, still, w.files.start_of_mem_ascent hd]
        rfl
      rw [FileTree.pathExists_join_iff noUp' isName, FileTree.Shows, top]
      have bare : ∀ name ∈ fileNames, (w.files.get? [name]).isSome = false := by decide
      rintro ⟨present, _⟩
      exact absurd present (by simp [bare name hn])
  rw [none]

/-- A file that is found is joined to a path on the way up, and the steps that were taken back lead
from the directory that holds it to the one in which the search began. If they are names only, the
search has gone up by as many levels. If they never lead above the directory that holds the file,
this directory is the one in which the search began, or one above it. -/
theorem find_in_ancestry {w : World} {dir file : Text} {start : Spot}
    (found : (find dir : StateM World (Option Text)).run w = (some file, w))
    (resolved : w.files.walk (w.files.start dir) (Text.splitOn '/' dir) = .ok start) :
    ∃ above name holder item passed, above ∈ Path.ascent dir ∧ file = Path.join above name ∧
      Path.steps dir = Path.steps above ++ passed ∧
      w.files.find file = .ok (holder ++ [name], item) ∧
      w.files.walk holder passed = .ok start ∧
      (['.', '.'] ∉ passed → start = holder ++ passed) ∧
      (Path.staysBelow 0 passed = true → holder <+: start) := by
  have answer : (searchPaths dir).find? w.files.pathExists = some file := by
    rw [run_find] at found
    exact congrArg Prod.fst found
  obtain ⟨nearer, above, further, split, _, _, name, _, names, _, present, rfl⟩ :=
    find?_searchPaths_eq_some_iff.1 answer
  have mem : above ∈ Path.ascent dir := by simp [split]
  have isName : IsName name := isName_of_mem_fileNames (by simp [names])
  obtain ⟨spot, item, entry⟩ := FileTree.pathExists_iff.1 present
  obtain ⟨_, holder, walked, _, rfl, _⟩ := (FileTree.find_join_iff isName).1 entry
  obtain ⟨passed, back⟩ := Path.steps_isPrefix_of_mem_ascent mem
  have whole : w.files.walk (w.files.start dir) (Path.steps above ++ passed) = .ok start := by
    rw [back]
    exact FileTree.walk_filter resolved
  rw [w.files.start_of_mem_ascent mem] at walked
  have rest : w.files.walk holder passed = .ok start := by
    obtain ⟨next, front, rest⟩ := FileTree.walk_append_ok_iff.1 whole
    obtain rfl : holder = next := Except.ok.inj (walked.symm.trans front)
    exact rest
  have named : ∀ step ∈ passed, Path.isSilent step = false := by
    intro step mem
    apply Path.not_silent_of_mem_steps (p := dir)
    rw [← back]
    exact List.mem_append_right _ mem
  refine ⟨above, name, holder, item, passed, mem, rfl, back.symm, entry, rest, ?_, ?_⟩
  · intro noUp
    exact FileTree.eq_append_of_walk named noUp rest
  · intro below
    have stays : w.files.walk (holder ++ []) passed = .ok start := by rwa [List.append_nil]
    exact FileTree.isPrefix_of_walk [] named below stays

/-- Steps that lead down and up again, all of them taken back on the way to the file. -/
theorem find_in_ancestry_balanced :
    let w : World := { files := { items :=
      [([['p']], .directory), ([['p'], "tangler.toml".toList], .file (.text [])),
        ([['p'], ['q']], .directory), ([['p'], ['q'], ['r']], .directory)] } }
    (find "p/q/r/..".toList : StateM World (Option Text)).run w =
        (some "p/tangler.toml".toList, w) ∧
      w.files.walk [] (Text.splitOn '/' "p/q/r/..".toList) = .ok [['p'], ['q']] ∧
      ∃ above name holder item passed, above ∈ Path.ascent "p/q/r/..".toList ∧
        "p/tangler.toml".toList = Path.join above name ∧
        [['p'], ['q'], ['r'], ['.', '.']] = Path.steps above ++ passed ∧
        w.files.find "p/tangler.toml".toList = .ok (holder ++ [name], item) ∧
        w.files.walk holder passed = .ok [['p'], ['q']] ∧
        (['.', '.'] ∉ passed → [['p'], ['q']] = holder ++ passed) ∧
        (Path.staysBelow 0 passed = true → holder <+: [['p'], ['q']]) := by
  intro w
  have answer : (searchPaths "p/q/r/..".toList).find? w.files.pathExists =
      some "p/tangler.toml".toList := by decide +kernel
  have found : (find "p/q/r/..".toList : StateM World (Option Text)).run w =
      (some "p/tangler.toml".toList, w) := by rw [run_find, answer]
  have resolved : w.files.walk [] (Text.splitOn '/' "p/q/r/..".toList) = .ok [['p'], ['q']] := rfl
  exact ⟨found, resolved, find_in_ancestry found resolved⟩

/-- A double dot that is taken back leads down: the search begins in the current directory, and the
file that it finds is in a directory below. -/
theorem find_leaves_ancestry :
    let w : World := { files := { items :=
      [([['a']], .directory), ([['a'], "tangler.toml".toList], .file (.text []))] } }
    (find "a/..".toList : StateM World (Option Text)).run w = (some "a/tangler.toml".toList, w) ∧
      w.files.walk (w.files.start "a/..".toList) (Text.splitOn '/' "a/..".toList) = .ok [] ∧
      w.files.find "a/tangler.toml".toList =
        .ok ([['a']] ++ ["tangler.toml".toList], .file (.text [])) ∧
      ¬[['a']] <+: ([] : Spot) := by
  intro w
  have answer : (searchPaths "a/..".toList).find? w.files.pathExists =
      some "a/tangler.toml".toList := by decide +kernel
  exact ⟨by rw [run_find, answer], rfl, rfl, by decide⟩

end Settings

end Literate
