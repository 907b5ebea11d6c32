import Mathlib.Data.List.DropRight
import Mathlib.Logic.Relation
import Literate.FileTree
import Literate.Proofs.Paths
import Literate.Proofs.Reading

namespace Literate

/-- Goes from a path to its parent. -/
def Path.Up (path dir : Text) : Prop := Path.parent? path = some dir

namespace FileTree

open Read (bind_ok_iff)
open Relation (ReflTransGen)

variable {t t' t'' : FileTree}

theorem Admits.noDirectory {spot : Spot} {content : Content} (h : t.Admits spot (.file content)) :
    t.get? spot ≠ some .directory :=
  fun hd => Item.noConfusion (h.2.2.2 hd)

theorem get?_set {spot : Spot} {item : Item} (h : t.Admits spot item) (other : Spot) :
    (t.set spot item).get? other = if other = spot then some item else t.get? other := by
  have items : (t.set spot item).items = (spot, item) :: t.items.filter fun e => e.1 ≠ spot :=
    if_pos h
  rw [get?, items]
  exact itemAt?_set h.1 item other

theorem get?_erase {spot : Spot} (h : t.get? spot ≠ some .directory) (other : Spot) :
    (t.erase spot).get? other = if other = spot then none else t.get? other := by
  have items : (t.erase spot).items = t.items.filter fun e => e.1 ≠ spot := if_neg h
  rw [get?, items]
  by_cases same : other = spot
  · have nonempty : spot ≠ [] := by
      rintro rfl
      exact h rfl
    simp [itemAt?, same, nonempty]
  · rw [if_neg same]
    exact itemAt?_filter (fun s => s ≠ spot) (by simpa using same)

theorem get?_erase_set {spot : Spot} {content : Content} (h : t.Admits spot (.file content))
    (free : t.get? spot = none) (other : Spot) :
    ((t.set spot (.file content)).erase spot).get? other = t.get? other := by
  have isFile : (t.set spot (.file content)).get? spot ≠ some .directory := by
    simp [get?_set h]
  rw [get?_erase isFile, get?_set h]
  by_cases same : other = spot
  · rw [if_pos same, same, free]
  · rw [if_neg same, if_neg same]

/-- What the file at a spot holds, if one is there. -/
def fileAt? (t : FileTree) (spot : Spot) : Option Content :=
  match t.get? spot with
  | some (.file content) => some content
  | _ => none

theorem fileAt?_eq_some {spot : Spot} {content : Content} :
    t.fileAt? spot = some content ↔ t.get? spot = some (.file content) := by
  unfold fileAt?
  split <;> simp_all

theorem fileAt?_congr {spot : Spot} (h : t'.get? spot = t.get? spot) :
    t'.fileAt? spot = t.fileAt? spot := by
  unfold fileAt?
  rw [h]

/-- Where a piece leads from a directory. -/
def enter (spot : Spot) (piece : Text) : Except FileFault Spot :=
  if Path.isSilent piece then .ok spot
  else if piece = ['.', '.'] then .ok spot.dropLast
  else if isLong piece then .error .tooLong
  else .ok (spot ++ [piece])

theorem walk_cons_ok_iff {spot target : Spot} {piece : Text} {rest : List Text} :
    t.walk spot (piece :: rest) = .ok target ↔ t.get? spot = some .directory ∧
      ∃ next, enter spot piece = .ok next ∧ t.walk next rest = .ok target := by
  rw [walk]
  unfold enter
  split
  · simp_all
  · simp_all
  · rename_i hd
    rw [hd]
    split
    · simp
    · split
      · simp
      · split <;> simp

theorem walk_append_ok_iff {spot target : Spot} {ps qs : List Text} :
    t.walk spot (ps ++ qs) = .ok target ↔
      ∃ next, t.walk spot ps = .ok next ∧ t.walk next qs = .ok target := by
  induction ps generalizing spot with
  | nil => simp [walk]
  | cons piece rest ih =>
    simp only [List.cons_append, walk_cons_ok_iff]
    constructor
    · rintro ⟨hd, mid, he, hw⟩
      obtain ⟨next, hr, hq⟩ := ih.1 hw
      exact ⟨next, ⟨hd, mid, he, hr⟩, hq⟩
    · rintro ⟨next, ⟨hd, mid, he, hr⟩, hq⟩
      exact ⟨hd, mid, he, ih.2 ⟨next, hr, hq⟩⟩

/-- Empty pieces only ask for a directory. -/
theorem walk_empty {spot : Spot} (h : t.get? spot = some .directory) {pieces : List Text}
    (empty : ∀ piece ∈ pieces, piece = []) : t.walk spot pieces = .ok spot := by
  induction pieces with
  | nil => rfl
  | cons piece rest ih =>
    obtain rfl := empty piece List.mem_cons_self
    exact walk_cons_ok_iff.2
      ⟨h, spot, rfl, ih fun piece hp => empty piece (List.mem_cons_of_mem _ hp)⟩

/-- The directories are still there, and paths start where they started. -/
structure Keeps (t t' : FileTree) : Prop where
  cwd : t'.cwd = t.cwd
  directory {spot : Spot} : t.get? spot = some .directory → t'.get? spot = some .directory

namespace Keeps

theorem refl (t : FileTree) : Keeps t t := ⟨rfl, id⟩

theorem trans (h : Keeps t t') (h' : Keeps t' t'') : Keeps t t'' :=
  ⟨h'.cwd.trans h.cwd, fun hd => h'.directory (h.directory hd)⟩

theorem start (h : Keeps t t') (path : Text) : t'.start path = t.start path := by
  unfold FileTree.start
  rw [h.cwd]

theorem walk (h : Keeps t t') {pieces : List Text} {spot target : Spot}
    (hw : t.walk spot pieces = .ok target) : t'.walk spot pieces = .ok target := by
  induction pieces generalizing spot with
  | nil => exact hw
  | cons piece rest ih =>
    obtain ⟨hd, next, he, hr⟩ := walk_cons_ok_iff.1 hw
    exact walk_cons_ok_iff.2 ⟨h.directory hd, next, he, ih hr⟩

end Keeps

theorem find_ok_iff {path : Text} {spot : Spot} {item : Item} :
    t.find path = .ok (spot, item) ↔ check path = .ok () ∧
      t.walk (t.start path) (Text.splitOn '/' path) = .ok spot ∧ t.get? spot = some item := by
  unfold find
  simp only [bind_ok_iff]
  constructor
  · rintro ⟨_, checked, target, hw, hg⟩
    split at hg
    · simp at hg
    · rename_i found
      simp only [Except.ok.injEq, Prod.mk.injEq] at hg
      obtain ⟨rfl, rfl⟩ := hg
      exact ⟨checked, hw, found⟩
  · rintro ⟨checked, hw, hg⟩
    exact ⟨(), checked, spot, hw, by rw [hg]⟩

/-- A path goes on leading where it leads. -/
theorem Keeps.find (h : Keeps t t') {path : Text} {spot : Spot} {item item' : Item}
    (hf : t.find path = .ok (spot, item)) (hg : t'.get? spot = some item') :
    t'.find path = .ok (spot, item') := by
  obtain ⟨checked, hw, _⟩ := find_ok_iff.1 hf
  exact find_ok_iff.2 ⟨checked, by rw [h.start]; exact h.walk hw, hg⟩

/-- Nothing was taken away, and no directory became a file. -/
structure Grows (t t' : FileTree) : Prop extends Keeps t t' where
  isSome {spot : Spot} : (t.get? spot).isSome = true → (t'.get? spot).isSome = true

namespace Grows

theorem refl (t : FileTree) : Grows t t := ⟨.refl t, id⟩

theorem trans (h : Grows t t') (h' : Grows t' t'') : Grows t t'' :=
  ⟨h.toKeeps.trans h'.toKeeps, fun present => h'.isSome (h.isSome present)⟩

theorem exists_find (h : Grows t t') {path : Text} {spot : Spot} {item : Item}
    (hf : t.find path = .ok (spot, item)) : ∃ item', t'.find path = .ok (spot, item') := by
  have present := h.isSome (Option.isSome_iff_exists.2 ⟨item, (find_ok_iff.1 hf).2.2⟩)
  obtain ⟨item', hg⟩ := Option.isSome_iff_exists.1 present
  exact ⟨item', h.toKeeps.find hf hg⟩

end Grows

theorem readText_of_find {path content : Text} {spot : Spot}
    (h : t.find path = .ok (spot, .file (.text content))) : t.readText path = .ok content := by
  unfold readText
  rw [h]
  rfl

theorem keeps_set {spot : Spot} {item : Item} (h : t.Admits spot item) :
    Keeps t (t.set spot item) where
  cwd := rfl
  directory {other} hd := by
    rw [get?_set h]
    split
    · rename_i same
      rw [h.2.2.2 (same ▸ hd)]
    · exact hd

theorem keeps_erase {spot : Spot} (h : t.get? spot ≠ some .directory) : Keeps t (t.erase spot) where
  cwd := rfl
  directory {other} hd := by
    rw [get?_erase h, if_neg (by rintro rfl; exact h hd)]
    exact hd

theorem check_ok_iff {path : Text} :
    check path = .ok () ↔ '\x00' ∉ path ∧ path ≠ [] ∧ path.byteSize < 4096 := by
  unfold check
  by_cases zero : '\x00' ∈ path
  · simp [zero]
  · by_cases empty : path = []
    · simp [empty]
    · by_cases long : 4096 ≤ path.byteSize
      · simp [zero, empty, long]
      · simp [zero, empty, long]
        omega

/-- The slot that a path names: a name behind the pieces that lead to its directory. Behind the name
stand only empty pieces, and none unless the path ends in a slash. -/
theorem slot_ok {path : Text} {s : Slot} (h : t.slot path = .ok s) (named : s.isNamed = true) :
    check path = .ok () ∧ ∃ above empties, Text.splitOn '/' path = above ++ s.name :: empties ∧
      (∀ piece ∈ empties, piece = []) ∧ (s.slash = false → empties = []) ∧
      t.walk (t.start path) above = .ok s.dir ∧ t.get? s.dir = some .directory := by
  unfold slot at h
  simp only [bind_ok_iff] at h
  obtain ⟨_, checked, h⟩ := h
  have parts := List.rdropWhile_append_rtakeWhile (l := Text.splitOn '/' path) (p := List.isEmpty)
  have front : ((Text.splitOn '/' path).reverse.dropWhile List.isEmpty).reverse =
    (Text.splitOn '/' path).rdropWhile List.isEmpty := rfl
  rw [front] at h
  refine ⟨checked, ?_⟩
  split at h
  · obtain rfl := Except.ok.inj h
    simp [Slot.isNamed, Path.isSilent] at named
  · rename_i name last
    obtain ⟨above, split⟩ := List.getLast?_eq_some_iff.1 last
    obtain ⟨dir, hw, made⟩ := bind_ok_iff.1 h
    obtain rfl := Except.ok.inj made
    rw [split, List.dropLast_concat, walk_append_ok_iff] at hw
    obtain ⟨dir', hw, stay⟩ := hw
    obtain ⟨hd, next, same, stop⟩ := walk_cons_ok_iff.1 stay
    obtain rfl : dir' = next := Except.ok.inj same
    obtain rfl : dir' = dir := Except.ok.inj stop
    refine ⟨above, (Text.splitOn '/' path).rtakeWhile List.isEmpty, ?_, ?_, ?_, hw, hd⟩
    · refine parts.symm.trans ?_
      rw [split, List.append_assoc]
      rfl
    · intro piece hp
      simpa using List.mem_rtakeWhile_imp hp
    · intro noSlash
      have length := congrArg List.length parts
      rw [List.length_append] at length
      have short : ¬((Text.splitOn '/' path).rdropWhile List.isEmpty).length <
        (Text.splitOn '/' path).length := by simpa using noSlash
      exact List.length_eq_zero_iff.1 (by omega)

/-- Only a directory is in the way of something new in a slot. -/
theorem admits_of_slot {path : Text} {s : Slot} (h : t.slot path = .ok s) (named : s.isNamed = true)
    (short : isLong s.name = false) (keeps : Keeps t t') (free : t'.get? s.spot ≠ some .directory)
    (item : Item) : t'.Admits s.spot item := by
  obtain ⟨checked, above, empties, split, _, _, _, hd⟩ := slot_ok h named
  have piece : s.name ∈ Text.splitOn '/' path := by simp [split]
  have noZero : '\x00' ∉ s.name := fun zero =>
    (check_ok_iff.1 checked).1 (Text.mem_of_mem_splitOn piece zero).1
  refine ⟨by simp [Slot.spot], ?_, by simp [endsProper, Slot.spot, short, noZero], ?_⟩
  · rw [Slot.spot, List.dropLast_concat]
    exact keeps.directory hd
  · exact fun directory => absurd directory free

theorem Keeps.slot (h : Keeps t t') {path : Text} {s : Slot} (hs : t.slot path = .ok s) :
    t'.slot path = .ok s := by
  unfold FileTree.slot at hs ⊢
  simp only [bind_ok_iff] at hs ⊢
  obtain ⟨_, checked, hs⟩ := hs
  refine ⟨(), checked, ?_⟩
  split at hs
  · exact hs
  · obtain ⟨dir, hw, made⟩ := bind_ok_iff.1 hs
    exact bind_ok_iff.2 ⟨dir, by rw [h.start]; exact h.walk hw, made⟩

/-- An item that was put in a slot is found on the path of the slot. -/
theorem find_of_slot {path : Text} {s : Slot} (h : t.slot path = .ok s) (named : s.isNamed = true)
    (short : isLong s.name = false) (keeps : Keeps t t') {item : Item}
    (hg : t'.get? s.spot = some item) (hi : s.slash = true → item = .directory) :
    t'.find path = .ok (s.spot, item) := by
  obtain ⟨checked, above, empties, split, empty, noSlash, hw, hd⟩ := slot_ok h named
  have entered : enter s.dir s.name = .ok s.spot := by
    simp only [Slot.isNamed, Bool.and_eq_true, Bool.not_eq_true', bne_iff_ne] at named
    simp [enter, named, short, Slot.spot]
  have stay : t'.walk s.spot empties = .ok s.spot := by
    cases slash : s.slash with
    | false =>
      rw [noSlash slash]
      rfl
    | true => exact walk_empty (hg.trans (by rw [hi slash])) empty
  refine find_ok_iff.2 ⟨checked, ?_, hg⟩
  rw [keeps.start, split]
  exact walk_append_ok_iff.2 ⟨s.dir, keeps.walk hw,
    walk_cons_ok_iff.2 ⟨keeps.directory hd, s.spot, entered, stay⟩⟩

/-- What a refusal guards is done only if it does not apply. -/
theorem guard_ok_iff {α : Type} {refused : Prop} [Decidable refused] {e : FileFault}
    {x : Except FileFault α} {a : α} :
    (if refused then .error e else x) = .ok a ↔ ¬refused ∧ x = .ok a := by
  split <;> simp_all

theorem makeDir_ok {path : Text} (h : t.makeDir path = .ok t') :
    ∃ spot, t.Admits spot .directory ∧ t.get? spot = none ∧ t' = t.set spot .directory ∧
      t'.find path = .ok (spot, .directory) := by
  obtain ⟨s, slot, h⟩ := bind_ok_iff.1 h
  simp only [guard_ok_iff] at h
  obtain ⟨named, short, free, made⟩ := h
  obtain rfl := Except.ok.inj made
  have named' : s.isNamed = true := by simpa using named
  have short' : isLong s.name = false := by simpa using short
  have noItem : t.get? s.spot = none := by simpa using free
  have admits : t.Admits s.spot .directory :=
    admits_of_slot slot named' short' (.refl t) (by simp [noItem]) _
  refine ⟨s.spot, admits, noItem, rfl, ?_⟩
  exact find_of_slot slot named' short' (keeps_set admits) (by rw [get?_set admits, if_pos rfl])
    fun _ => rfl

theorem createFile_ok {path content : Text} (h : t.createFile path content = .ok t') :
    ∃ s, t.slot path = .ok s ∧ s.isNamed = true ∧ t.Admits s.spot (.file (.text content)) ∧
      t' = t.set s.spot (.file (.text content)) ∧
      t'.find path = .ok (s.spot, .file (.text content)) := by
  obtain ⟨s, slot, h⟩ := bind_ok_iff.1 h
  simp only [guard_ok_iff] at h
  obtain ⟨plain, short, free, made⟩ := h
  obtain rfl := Except.ok.inj made
  simp only [Bool.or_eq_true, Bool.not_eq_true', not_or] at plain
  have named : s.isNamed = true := by simpa using plain.1
  have short' : isLong s.name = false := by simpa using short
  have admits : t.Admits s.spot (.file (.text content)) :=
    admits_of_slot slot named short' (.refl t) free _
  refine ⟨s, slot, named, admits, rfl, ?_⟩
  exact find_of_slot slot named short' (keeps_set admits) (by rw [get?_set admits, if_pos rfl])
    fun slash => absurd slash plain.2

theorem moveFile_ok {source target : Text} (h : t.moveFile source target = .ok t') :
    ∃ s d content, t.slot source = .ok s ∧ t.slot target = .ok d ∧ d.isNamed = true ∧
      d.slash = false ∧ t.get? s.spot = some (.file content) ∧ t.get? d.spot ≠ some .directory ∧
      (t.erase s.spot).Admits d.spot (.file content) ∧
      t' = (t.erase s.spot).set d.spot (.file content) ∧
      t'.find target = .ok (d.spot, .file content) := by
  obtain ⟨s, source, h⟩ := bind_ok_iff.1 h
  obtain ⟨d, target, h⟩ := bind_ok_iff.1 h
  obtain ⟨named, h⟩ := guard_ok_iff.1 h
  split at h
  · simp at h
  · simp at h
  · rename_i content found
    simp only [guard_ok_iff] at h
    obtain ⟨short, noSlash, free, made⟩ := h
    obtain rfl := Except.ok.inj made
    have named' : d.isNamed = true := by simpa using named
    have short' : isLong d.name = false := by simpa using short
    have slash : d.slash = false := by simpa using noSlash
    have isFile : t.get? s.spot ≠ some .directory := by simp [found]
    have erased := keeps_erase isFile
    have free' : (t.erase s.spot).get? d.spot ≠ some .directory := by
      rw [get?_erase isFile]
      split
      · simp
      · exact free
    have admits : (t.erase s.spot).Admits d.spot (.file content) :=
      admits_of_slot target named' short' erased free' _
    refine ⟨s, d, content, source, target, named', slash, found, free, admits, rfl, ?_⟩
    exact find_of_slot target named' short' (erased.trans (keeps_set admits))
      (by rw [get?_set admits, if_pos rfl]) (by simp [slash])

theorem removeFile_ok {path : Text} {spot : Spot} {content : Content}
    (h : t.find path = .ok (spot, .file content)) : t.removeFile path = .ok (t.erase spot) := by
  unfold removeFile
  rw [h]
  rfl

/-- Nothing changed but that directories were made where nothing was, each of them on one of the
given paths. -/
structure Makes (paths : Text → Prop) (t t' : FileTree) : Prop where
  cwd : t'.cwd = t.cwd
  made (spot : Spot) : t'.get? spot = t.get? spot ∨
    t.get? spot = none ∧ ∃ dir, paths dir ∧ t'.find dir = .ok (spot, .directory)

namespace Makes

variable {paths paths' : Text → Prop}

theorem refl (paths : Text → Prop) (t : FileTree) : Makes paths t t := ⟨rfl, fun _ => Or.inl rfl⟩

theorem grows (h : Makes paths t t') : Grows t t' where
  cwd := h.cwd
  directory {spot} hd := by
    rcases h.made spot with same | ⟨free, _⟩
    · rw [same, hd]
    · simp [free] at hd
  isSome {spot} present := by
    rcases h.made spot with same | ⟨free, _⟩
    · rwa [same]
    · simp [free] at present

theorem fileAt? (h : Makes paths t t') (spot : Spot) : t'.fileAt? spot = t.fileAt? spot := by
  rcases h.made spot with same | ⟨free, dir, _, found⟩
  · exact fileAt?_congr same
  · simp [FileTree.fileAt?, free, (find_ok_iff.1 found).2.2]

theorem trans (h : Makes paths t t') (h' : Makes paths t' t'') : Makes paths t t'' where
  cwd := h'.cwd.trans h.cwd
  made spot := by
    rcases h'.made spot with same | ⟨free, later⟩
    · rcases h.made spot with same' | ⟨free, dir, hd, found⟩
      · exact Or.inl (same.trans same')
      · have isDir := same.trans (find_ok_iff.1 found).2.2
        exact Or.inr ⟨free, dir, hd, h'.grows.toKeeps.find found isDir⟩
    · rcases h.made spot with same' | ⟨free', _⟩
      · exact Or.inr ⟨same'.symm.trans free, later⟩
      · exact Or.inr ⟨free', later⟩

theorem mono (h : Makes paths t t') (hp : ∀ dir, paths dir → paths' dir) : Makes paths' t t' where
  cwd := h.cwd
  made spot := (h.made spot).imp_right fun ⟨free, dir, hd, found⟩ => ⟨free, dir, hp dir hd, found⟩

end Makes

theorem makes_of_makeDir {path : Text} (h : t.makeDir path = .ok t') :
    Makes (ReflTransGen Path.Up path) t t' := by
  obtain ⟨spot, admits, free, rfl, found⟩ := makeDir_ok h
  refine ⟨rfl, fun other => ?_⟩
  by_cases same : other = spot
  · exact Or.inr ⟨same ▸ free, path, .refl, same ▸ found⟩
  · exact Or.inl (by rw [get?_set admits, if_neg same])

/-- Whether or not it is refused, making a directory makes nothing but this one and those above
it. -/
theorem makes_makeDirs (t : FileTree) (path : Text) :
    Makes (ReflTransGen Path.Up path) t (t.makeDirs path).1 := by
  fun_induction makeDirs t path with
  | case1 => exact .refl _ _
  | case2 path nonempty made hm => exact makes_of_makeDir hm
  | case3 => exact .refl _ _
  | case4 path nonempty missing dir hp above e ha ih =>
    rw [ha] at ih
    exact ih.mono fun _ => .head hp
  | case5 path nonempty missing dir hp above ha made hm ih =>
    rw [ha] at ih
    exact (ih.mono fun _ => .head hp).trans (makes_of_makeDir hm)
  | case6 path nonempty missing dir hp above ha e hm ih =>
    rw [ha] at ih
    exact ih.mono fun _ => .head hp
  | case7 => exact .refl _ _

end FileTree

end Literate
