import Literate.Fault
import Literate.Path

namespace Literate

/-- The names on the way down from the root. -/
abbrev Spot := List Text

inductive Content where
  | text (t : Text)
  | binary (bytes : List UInt8)
deriving DecidableEq

inductive Item where
  | file (content : Content)
  | directory
deriving DecidableEq

namespace FileTree

/-- The root is always there. -/
def itemAt? (items : List (Spot × Item)) (spot : Spot) : Option Item :=
  if spot.isEmpty then some .directory else (items.find? fun e => e.1 = spot).map (·.2)

def isLong (name : Text) : Bool := 255 < name.byteSize

/-- Whether a directory can have something under the last of these names. -/
def endsProper (spot : Spot) : Bool :=
  spot.getLast?.all fun name => !isLong name && !name.contains '\x00'

/-- Whatever is there is in a directory, under a name that a path can have. -/
def Nested (items : List (Spot × Item)) : Prop :=
  ∀ e ∈ items, itemAt? items e.1.dropLast = some .directory ∧ endsProper e.1 = true

instance (items : List (Spot × Item)) : Decidable (Nested items) :=
  inferInstanceAs (Decidable (∀ e ∈ items, _))

theorem nested_nil : Nested [] := nofun

variable {items : List (Spot × Item)}

theorem itemAt?_filter (p : Spot → Bool) {spot : Spot} (h : p spot = true) :
    itemAt? (items.filter fun e => p e.1) spot = itemAt? items spot := by
  unfold itemAt?
  rw [List.find?_filter]
  congr 3
  funext e
  by_cases same : e.1 = spot
  · simp [same, h]
  · simp [same]

theorem itemAt?_set {spot : Spot} (h : spot ≠ []) (item : Item) (other : Spot) :
    itemAt? ((spot, item) :: items.filter fun e => e.1 ≠ spot) other =
      if other = spot then some item else itemAt? items other := by
  by_cases same : other = spot
  · simp [itemAt?, same, h]
  · have kept : itemAt? (items.filter fun e => e.1 ≠ spot) other = itemAt? items other :=
      itemAt?_filter (fun s => s ≠ spot) (by simpa using same)
    rw [if_neg same, ← kept]
    simp [itemAt?, Ne.symm same]

theorem Nested.filter (h : Nested items) (p : Spot → Bool)
    (kept : ∀ e ∈ items, p e.1 = true → p e.1.dropLast = true) :
    Nested (items.filter fun e => p e.1) := by
  intro e he
  obtain ⟨mem, good⟩ := List.mem_filter.1 he
  rw [itemAt?_filter p (kept e mem good)]
  exact h e mem

theorem Nested.set {spot : Spot} {item : Item} (h : Nested items) (nonempty : spot ≠ [])
    (above : itemAt? items spot.dropLast = some .directory) (proper : endsProper spot = true)
    (same : itemAt? items spot = some .directory → item = .directory) :
    Nested ((spot, item) :: items.filter fun e => e.1 ≠ spot) := by
  have directory {other : Spot} (hd : itemAt? items other = some .directory) :
      itemAt? ((spot, item) :: items.filter fun e => e.1 ≠ spot) other = some .directory := by
    rw [itemAt?_set nonempty]
    split
    · rename_i here
      rw [same (here ▸ hd)]
    · exact hd
  intro e he
  rcases List.mem_cons.1 he with rfl | old
  · exact ⟨directory above, proper⟩
  · obtain ⟨dir, name⟩ := h e (List.mem_filter.1 old).1
    exact ⟨directory dir, name⟩

end FileTree

open FileTree in
structure FileTree where
  /-- Everything but the root. -/
  items : List (Spot × Item) := []
  /-- The current directory, in which relative paths start. -/
  cwd : Spot := []
  nested : Nested items := by first | exact Literate.FileTree.nested_nil | decide

namespace FileTree

def get? (t : FileTree) (spot : Spot) : Option Item := itemAt? t.items spot

/-- Whether an item can be put at a spot. A directory is not replaced by a file. -/
def Admits (t : FileTree) (spot : Spot) (item : Item) : Prop :=
  spot ≠ [] ∧ t.get? spot.dropLast = some .directory ∧ endsProper spot = true ∧
    (t.get? spot = some .directory → item = .directory)

instance (t : FileTree) (spot : Spot) (item : Item) : Decidable (t.Admits spot item) :=
  inferInstanceAs (Decidable (_ ∧ _ ∧ _ ∧ _))

def set (t : FileTree) (spot : Spot) (item : Item) : FileTree where
  items :=
    if t.Admits spot item then (spot, item) :: t.items.filter fun e => e.1 ≠ spot else t.items
  cwd := t.cwd
  nested := by
    split
    · rename_i h
      exact t.nested.set h.1 h.2.1 h.2.2.1 h.2.2.2
    · exact t.nested

/-- Takes out a file. -/
def erase (t : FileTree) (spot : Spot) : FileTree where
  items := if t.get? spot = some .directory then t.items else t.items.filter fun e => e.1 ≠ spot
  cwd := t.cwd
  nested := by
    split
    · exact t.nested
    · rename_i noDirectory
      refine t.nested.filter (fun s => s ≠ spot) ?_
      intro e he _
      rw [decide_eq_true_iff]
      exact fun same => noDirectory (same ▸ (t.nested e he).1)

def eraseAll (t : FileTree) (spot : Spot) : FileTree where
  items := t.items.filter fun e => !spot.isPrefixOf e.1
  cwd := t.cwd
  nested := by
    refine t.nested.filter (fun s => !spot.isPrefixOf s) ?_
    intro e _ outside
    rw [Bool.not_eq_true', ← Bool.not_eq_true, List.isPrefixOf_iff_prefix] at outside ⊢
    exact fun inside => outside (inside.trans (List.dropLast_prefix _))

def place (t : FileTree) (spot : Spot) (item : Item) : FileTree :=
  let above := (List.range spot.length).map fun n => spot.take n
  let missing := above.filter fun dir => (t.get? dir).isNone
  (missing.foldl (fun t dir => t.set dir .directory) t).set spot item

def below (t : FileTree) (dir : Spot) : List (Spot × Item) :=
  t.items.filterMap fun e =>
    if dir.isPrefixOf e.1 && e.1 != dir then some (e.1.drop dir.length, e.2) else none

def currentDir (t : FileTree) : Text := '/' :: Path.unsplit t.cwd

/-- Refuses what is no path at all, whatever is in the tree. -/
def check (path : Text) : Except FileFault Unit :=
  if path.contains '\x00' then .error .zeroCharacter
  else if path.isEmpty then .error .missing
  else if 4096 ≤ path.byteSize then .error .tooLong
  else .ok ()

/-- Follows the pieces of a path. Each step has to start from a directory. -/
def walk (t : FileTree) (spot : Spot) : List Text → Except FileFault Spot
  | [] => .ok spot
  | piece :: rest =>
    match t.get? spot with
    | none => .error .missing
    | some (.file _) => .error .notDirectory
    | some .directory =>
      if Path.isSilent piece then t.walk spot rest
      else if piece = ['.', '.'] then t.walk spot.dropLast rest
      else if isLong piece then .error .tooLong
      else t.walk (spot ++ [piece]) rest

def start (t : FileTree) (path : Text) : Spot := if Path.isAbsolute path then [] else t.cwd

def find (t : FileTree) (path : Text) : Except FileFault (Spot × Item) := do
  check path
  let spot ← t.walk (t.start path) (Text.splitOn '/' path)
  match t.get? spot with
  | none => .error .missing
  | some item => .ok (spot, item)

def pathExists (t : FileTree) (path : Text) : Bool := (t.find path).toOption.isSome

def isDirectory (t : FileTree) (path : Text) : Bool :=
  match t.find path with
  | .ok (_, .directory) => true
  | _ => false

def readText (t : FileTree) (path : Text) : Except FileFault Text := do
  match (← t.find path).2 with
  | .directory => .error .isDirectory
  | .file (.binary _) => .error .notText
  | .file (.text text) => .ok text

/-- Where something new can go: a directory that is there, and a name in it. -/
structure Slot where
  dir : Spot
  name : Text
  /-- Whether the path ends in a slash. -/
  slash : Bool

namespace Slot

def spot (s : Slot) : Spot := s.dir ++ [s.name]

/-- Whether the path ends in a name, and not in a dot, two dots or the root. -/
def isNamed (s : Slot) : Bool := !Path.isSilent s.name && s.name != ['.', '.']

end Slot

def slot (t : FileTree) (path : Text) : Except FileFault Slot := do
  check path
  let pieces := Text.splitOn '/' path
  let named := (pieces.reverse.dropWhile List.isEmpty).reverse
  match named.getLast? with
  | none => return ⟨[], [], true⟩
  | some name =>
    let dir ← t.walk (t.start path) (named.dropLast ++ [[]])
    return ⟨dir, name, named.length < pieces.length⟩

def makeDir (t : FileTree) (path : Text) : Except FileFault FileTree := do
  let s ← t.slot path
  if !s.isNamed then .error .exists
  else if isLong s.name then .error .tooLong
  else if (t.get? s.spot).isSome then .error .exists
  else return t.set s.spot .directory

/-- Makes a directory and those above it that are missing. Some may have been made when it is
refused. -/
def makeDirs (t : FileTree) (path : Text) : FileTree × Except FileFault Unit :=
  if path.isEmpty then (t, .ok ())
  else
    match t.makeDir path with
    | .ok made => (made, .ok ())
    | .error .missing =>
      match _h : Path.parent? path with
      | none => (t, .error .missing)
      | some parent =>
        match t.makeDirs parent with
        | (above, .error e) => (above, .error e)
        | (above, .ok ()) =>
          match above.makeDir path with
          | .ok made => (made, .ok ())
          | .error e => (above, if above.isDirectory path then .ok () else .error e)
    | .error e => (t, if t.isDirectory path then .ok () else .error e)
termination_by path.length
decreasing_by exact Path.length_lt_of_parent? _h

def createFile (t : FileTree) (path content : Text) : Except FileFault FileTree := do
  let s ← t.slot path
  if !s.isNamed || s.slash then .error .isDirectory
  else if isLong s.name then .error .tooLong
  else if t.get? s.spot = some .directory then .error .isDirectory
  else return t.set s.spot (.file (.text content))

def moveFile (t : FileTree) (source target : Text) : Except FileFault FileTree := do
  let s ← t.slot source
  let d ← t.slot target
  if !d.isNamed then .error .busy
  else
    match t.get? s.spot with
    | none => .error .missing
    | some .directory => .error .isDirectory
    | some (.file content) =>
      if isLong d.name then .error .tooLong
      else if d.slash then .error .notDirectory
      else if t.get? d.spot = some .directory then .error .isDirectory
      else return (t.erase s.spot).set d.spot (.file content)

def removeFile (t : FileTree) (path : Text) : Except FileFault FileTree := do
  match ← t.find path with
  | (_, .directory) => .error .isDirectory
  | (spot, .file _) => return t.erase spot

end FileTree

end Literate
