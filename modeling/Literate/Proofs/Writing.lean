import Literate.Proofs.Files
import Literate.Proofs.Paths
import Literate.Proofs.Running

namespace Literate

open Read (bind_ok_iff)
open Relation (ReflTransGen TransGen)

namespace World

/-- The names that are given to temporary files, by any process. -/
def IsTemporary (name : Text) : Prop :=
  ∃ process temporaries, name = temporaryName { process, temporaries }

theorem isTemporary_temporaryName (w : World) : IsTemporary w.temporaryName :=
  ⟨w.process, w.temporaries, rfl⟩

theorem slash_not_mem_digits (n : Nat) : '/' ∉ (toString n).toList := by
  intro h
  have digits : (toString n).toList = Nat.toDigits 10 n := by simp [toString, Nat.repr]
  rw [digits] at h
  exact absurd (Nat.isDigit_of_mem_toDigits (by decide) (by decide) h) (by decide)

theorem slash_not_mem_temporaryName (w : World) : '/' ∉ w.temporaryName := by
  have process := slash_not_mem_digits w.process
  have temporaries := slash_not_mem_digits w.temporaries
  simp only [temporaryName, String.toList_append, List.mem_append, not_or]
  exact ⟨⟨⟨by decide, process⟩, by decide⟩, temporaries⟩

/-- A temporary name begins with a dot. -/
theorem head?_of_isTemporary {name : Text} (h : IsTemporary name) : name.head? = some '.' := by
  obtain ⟨process, temporaries, rfl⟩ := h
  simp only [temporaryName, String.toList_append]
  rfl

end World

open World

namespace FileTree

variable {t t' : FileTree}

/-- No file bears a temporary name. -/
def Tidy (t : FileTree) : Prop := ∀ dir name, IsTemporary name → t.fileAt? (dir ++ [name]) = none

theorem Tidy.congr (h : t.Tidy) (same : ∀ spot, t'.fileAt? spot = t.fileAt? spot) : t'.Tidy :=
  fun dir name temporary => (same _).trans (h dir name temporary)

/-- A tree in which no name begins with a dot is tidy. -/
theorem tidy_of_items
    (h : ∀ e ∈ t.items, ∀ name, e.1.getLast? = some name → name.head? ≠ some '.') : t.Tidy := by
  intro dir name ht
  have missing : t.get? (dir ++ [name]) = none := by
    have nonempty : (dir ++ [name]).isEmpty = false := by simp
    rw [get?, itemAt?, nonempty, if_neg Bool.false_ne_true, Option.map_eq_none_iff,
      List.find?_eq_none]
    intro e he same
    rw [decide_eq_true_eq] at same
    exact h e he name (by rw [same, List.getLast?_concat]) (head?_of_isTemporary ht)
  simp [fileAt?, missing]

/-- The name of the slot is the last piece of its path. -/
theorem name_of_slot {path name : Text} {s : Slot} {above : List Text} (h : t.slot path = .ok s)
    (named : s.isNamed = true) (split : Text.splitOn '/' path = above ++ [name])
    (nonempty : name ≠ []) : s.name = name := by
  obtain ⟨_, above', empties, split', empty, _⟩ := slot_ok h named
  have last : (above' ++ s.name :: empties).getLast? = some name := by
    rw [← split', split, List.getLast?_concat]
  rw [List.getLast?_append_cons, List.getLast?_cons] at last
  cases he : empties.getLast? with
  | none => simpa [he] using last
  | some piece =>
    rw [he] at last
    obtain rfl : piece = name := Option.some.inj last
    exact absurd (empty _ (List.mem_of_getLast? he)) nonempty

end FileTree

namespace Action

/-- Whether the target of the action bears a temporary name. -/
def NamesTemporary : Action → Prop
  | .write _ path _ _ => ∃ name, (Text.splitOn '/' path).getLast? = some name ∧ IsTemporary name
  | .print .. => False

theorem run_bind_of {α β : Type} {x : StateM World α} {w w' : World} {a : α} (h : x.run w = (a, w'))
    (f : α → StateM World β) : (x >>= f).run w = (f a).run w' := by
  rw [StateT.run_bind, h]
  rfl

/-- What a replacement can do: fail to make the temporary file, move it, or remove it again. -/
theorem replaceFile_cases {w w' : World} {path content : Text} {r : Except FileFault Unit}
    (h : (replaceFile path content : StateM World (Except FileFault Unit)).run w = (r, w')) :
    w'.printed = w.printed ∧
      ((∃ e, r = .error e) ∧ w'.files = w.files ∨
        ∃ made, w.files.createFile (Path.join (directory path) w.temporaryName) content = .ok made ∧
          (r = .ok () ∧
              made.moveFile (Path.join (directory path) w.temporaryName) path = .ok w'.files ∨
            (∃ e, r = .error e) ∧
              made.removeFile (Path.join (directory path) w.temporaryName) = .ok w'.files)) := by
  let w₁ : World := { w with temporaries := w.temporaries + 1 }
  have named : (Host.temporaryName : StateM World Text).run w = (w.temporaryName, w₁) := rfl
  rw [replaceFile, run_bind_of named] at h
  simp only at h
  generalize Path.join (directory path) w.temporaryName = temporary at h ⊢
  cases hc : w.files.createFile temporary content with
  | error e =>
    have created : (Host.createFile temporary content : StateM World _).run w₁ = (.error e, w₁) :=
      congrArg w₁.change hc
    rw [run_bind_of created] at h
    obtain ⟨rfl, rfl⟩ := Prod.mk.inj h
    exact ⟨rfl, Or.inl ⟨⟨e, rfl⟩, rfl⟩⟩
  | ok made =>
    let w₂ : World := { w₁ with files := made }
    have created : (Host.createFile temporary content : StateM World _).run w₁ = (.ok (), w₂) :=
      congrArg w₁.change hc
    rw [run_bind_of created] at h
    simp only at h
    cases hm : made.moveFile temporary path with
    | ok files =>
      have moved : (Host.moveFile temporary path : StateM World _).run w₂ =
        (.ok (), { w₂ with files }) := congrArg w₂.change hm
      rw [run_bind_of moved] at h
      obtain ⟨rfl, rfl⟩ := Prod.mk.inj h
      exact ⟨rfl, Or.inr ⟨made, rfl, Or.inl ⟨rfl, hm⟩⟩⟩
    | error e =>
      have moved : (Host.moveFile temporary path : StateM World _).run w₂ = (.error e, w₂) :=
        congrArg w₂.change hm
      obtain ⟨s, _, _, _, _, found⟩ := FileTree.createFile_ok hc
      have hr := FileTree.removeFile_ok found
      have removed : (Host.removeFile temporary : StateM World _).run w₂ =
        (.ok (), { w₂ with files := made.erase s.spot }) := congrArg w₂.change hr
      rw [run_bind_of moved] at h
      simp only at h
      rw [run_bind_of removed] at h
      obtain ⟨rfl, rfl⟩ := Prod.mk.inj h
      exact ⟨rfl, Or.inr ⟨made, rfl, Or.inr ⟨⟨e, rfl⟩, hr⟩⟩⟩

/-- A temporary file is a new one. -/
theorem createFile_temporary {t made : FileTree} {w : World} {path content : Text} (tidy : t.Tidy)
    (h : t.createFile (Path.join (directory path) w.temporaryName) content = .ok made) :
    ∃ s, IsTemporary s.name ∧ t.slot (Path.join (directory path) w.temporaryName) = .ok s ∧
      t.Admits s.spot (.file (.text content)) ∧ t.get? s.spot = none ∧
      made = t.set s.spot (.file (.text content)) ∧
      made.find (Path.join (directory path) w.temporaryName) =
        .ok (s.spot, .file (.text content)) := by
  obtain ⟨s, slot, named, admits, rfl, found⟩ := FileTree.createFile_ok h
  obtain ⟨above, split⟩ := Path.splitOn_join (directory path) w.slash_not_mem_temporaryName
  have nonempty : w.temporaryName ≠ [] := by
    intro empty
    have dot := head?_of_isTemporary w.isTemporary_temporaryName
    simp [empty] at dot
  have name := FileTree.name_of_slot slot named split nonempty
  have temporary : IsTemporary s.name := name ▸ w.isTemporary_temporaryName
  have noFile : t.fileAt? s.spot = none := tidy s.dir s.name temporary
  refine ⟨s, temporary, slot, admits, ?_, rfl, found⟩
  unfold FileTree.fileAt? at noFile
  match item : t.get? s.spot with
  | none => rfl
  | some .directory => exact absurd item admits.noDirectory
  | some (.file c) => simp [item] at noFile

/-- A replacement that is refused leaves everything as it was. -/
theorem replaceFile_error {w w' : World} {path content : Text} {e : FileFault} (tidy : w.files.Tidy)
    (h : (replaceFile path content : StateM World (Except FileFault Unit)).run w = (.error e, w')) :
    w'.printed = w.printed ∧ w.files.Makes (fun _ => False) w'.files := by
  obtain ⟨printed, ⟨_, same⟩ | ⟨made, created, ⟨ok, _⟩ | ⟨_, removed⟩⟩⟩ := replaceFile_cases h
  · exact ⟨printed, same ▸ .refl _ _⟩
  · simp at ok
  · obtain ⟨s, _, _, admits, free, rfl, found⟩ := createFile_temporary tidy created
    rw [FileTree.removeFile_ok found] at removed
    have same := Except.ok.inj removed
    refine ⟨printed, ?_, fun spot => Or.inl ?_⟩
    · rw [← same]
      rfl
    · rw [← same, FileTree.get?_erase_set admits free]

end Action

/-- A file with this content is where the path leads, and all else is as it was. -/
structure FileTree.Puts (path content : Text) (spot : Spot) (t t' : FileTree) : Prop where
  cwd : t'.cwd = t.cwd
  found : t'.find path = .ok (spot, .file (.text content))
  noDirectory : t.get? spot ≠ some .directory
  others {other : Spot} : other ≠ spot → t'.get? other = t.get? other

theorem FileTree.Puts.grows {path content : Text} {spot : Spot} {t t' : FileTree}
    (h : Puts path content spot t t') : Grows t t' where
  cwd := h.cwd
  directory {other} hd := by
    rw [h.others (by rintro rfl; exact h.noDirectory hd), hd]
  isSome {other} present := by
    by_cases same : other = spot
    · rw [same, (find_ok_iff.1 h.found).2.2]
      rfl
    · rwa [h.others same]

namespace Action

/-- A replacement that succeeds puts the content in place, and leaves no temporary file. -/
theorem replaceFile_ok {w w' : World} {chunk path content : Text} {createDirs : Bool}
    (tidy : w.files.Tidy) (proper : ¬NamesTemporary (.write chunk path content createDirs))
    (h : (replaceFile path content : StateM World (Except FileFault Unit)).run w = (.ok (), w')) :
    w'.printed = w.printed ∧ w'.files.Tidy ∧ ∃ spot, w.files.Puts path content spot w'.files := by
  obtain ⟨printed, ⟨⟨_, failed⟩, _⟩ | ⟨made, created, ⟨_, moved⟩ | ⟨⟨_, failed⟩, _⟩⟩⟩ :=
    replaceFile_cases h
  · simp at failed
  · obtain ⟨s, temporary, slot, admits, free, rfl, found⟩ := createFile_temporary tidy created
    obtain ⟨s', d, content', slot', target, named, noSlash, source, noDirectory, admits', files,
      reached⟩ := FileTree.moveFile_ok moved
    have keeps := FileTree.keeps_set admits
    obtain rfl : s = s' := Except.ok.inj ((keeps.slot slot).symm.trans slot')
    rw [FileTree.get?_set admits, if_pos rfl] at source
    obtain rfl : Content.text content = content' := Item.file.inj (Option.some.inj source)
    have proper' : ¬IsTemporary d.name := by
      obtain ⟨_, above, empties, split, _, noEmpties, _⟩ := FileTree.slot_ok target named
      rw [noEmpties noSlash] at split
      exact fun ht => proper ⟨d.name, by rw [split, List.getLast?_concat], ht⟩
    have apart (dir : Spot) (name : Text) (ht : IsTemporary name) : dir ++ [name] ≠ d.spot := by
      intro same
      obtain rfl : name = d.name := List.singleton_inj.1 (List.append_inj' same rfl).2
      exact proper' ht
    have others {other : Spot} (ho : other ≠ d.spot) :
        w'.files.get? other = w.files.get? other := by
      rw [files, FileTree.get?_set admits', if_neg ho, FileTree.get?_erase_set admits free]
    have apart' : d.spot ≠ s.spot := (apart s.dir s.name temporary).symm
    rw [FileTree.get?_set admits, if_neg apart'] at noDirectory
    refine ⟨printed, ?_, d.spot, by rw [files]; rfl, reached, noDirectory, others⟩
    intro dir name ht
    rw [FileTree.fileAt?_congr (others (apart dir name ht))]
    exact tidy dir name ht
  · simp at failed

/-- The directories that a write may make: those above its target, if it is asked to. -/
def MayMake (createDirs : Bool) (path dir : Text) : Prop :=
  createDirs = true ∧ TransGen Path.Up path dir

theorem prepare_cases {w w' : World} {path : Text} {createDirs : Bool} {r : Except Fault Unit}
    (h : w.after (if createDirs then
        match Path.parent? path with
        | some parent => Host.attempt .file (Host.makeDirs parent)
        | none => pure ()
       else pure ()) = (r, w')) :
    w'.printed = w.printed ∧ w.files.Makes (MayMake createDirs path) w'.files := by
  split at h
  · rename_i asked
    split at h
    · rename_i parent hp
      have makes := (w.files.makes_makeDirs parent).mono fun dir up =>
        (⟨asked, .head' hp up⟩ : MayMake createDirs path dir)
      have run : (Host.makeDirs parent : StateM World (Except FileFault Unit)).run w =
        ((w.files.makeDirs parent).2, { w with files := (w.files.makeDirs parent).1 }) := rfl
      cases hr : (w.files.makeDirs parent).2 with
      | ok =>
        rw [hr] at run
        rw [after_attempt_ok run] at h
        obtain ⟨rfl, rfl⟩ := Prod.mk.inj h
        exact ⟨rfl, makes⟩
      | error e =>
        rw [hr] at run
        rw [after_attempt_error run] at h
        obtain ⟨rfl, rfl⟩ := Prod.mk.inj h
        exact ⟨rfl, makes⟩
    · obtain ⟨rfl, rfl⟩ := Prod.mk.inj h
      exact ⟨rfl, .refl _ _⟩
  · obtain ⟨rfl, rfl⟩ := Prod.mk.inj h
    exact ⟨rfl, .refl _ _⟩

variable {w w' : World} {chunk path content : Text} {createDirs : Bool}

theorem perform_write_error {e : Fault} (tidy : w.files.Tidy)
    (h : w.after (perform (.write chunk path content createDirs)) = (.error e, w')) :
    w'.printed = w.printed ∧ w.files.Makes (MayMake createDirs path) w'.files := by
  rw [perform_write] at h
  rcases after_bind_eq_error h with failed | ⟨_, w₁, prepared, h⟩
  · exact prepare_cases failed
  · obtain ⟨printed, makes⟩ := prepare_cases prepared
    rcases after_bind_eq_error h with failed | ⟨_, w₂, _, recorded⟩
    · match hx : (replaceFile path content : StateM World (Except FileFault Unit)).run w₁ with
      | (.ok (), w₂) =>
        rw [after_attempt_ok hx] at failed
        simp at failed
      | (.error cause, w₂) =>
        rw [after_attempt_error hx] at failed
        obtain rfl : w₂ = w' := (Prod.mk.inj failed).2
        obtain ⟨printed', same⟩ := replaceFile_error (tidy.congr makes.fileAt?) hx
        exact ⟨printed'.trans printed, makes.trans (same.mono fun _ => False.elim)⟩
    · simp at recorded

theorem perform_write_ok (tidy : w.files.Tidy)
    (proper : ¬NamesTemporary (.write chunk path content createDirs))
    (h : w.after (perform (.write chunk path content createDirs)) = (.ok (), w')) :
    w'.printed = w.printed ∧ w'.files.Tidy ∧ ∃ made spot,
      w.files.Makes (MayMake createDirs path) made ∧ made.Puts path content spot w'.files := by
  rw [perform_write] at h
  obtain ⟨_, w₁, prepared, h⟩ := after_bind_eq_ok h
  obtain ⟨_, w₂, replaced, h⟩ := after_bind_eq_ok h
  obtain ⟨printed, makes⟩ := prepare_cases prepared
  rw [after_lift] at h
  obtain rfl := (Prod.mk.inj h).2
  match hx : (replaceFile path content : StateM World (Except FileFault Unit)).run w₁ with
  | (.error cause, w₃) =>
    rw [after_attempt_error hx] at replaced
    simp at replaced
  | (.ok (), w₃) =>
    rw [after_attempt_ok hx] at replaced
    obtain rfl : w₃ = w₂ := (Prod.mk.inj replaced).2
    obtain ⟨printed', tidy', spot, puts⟩ := replaceFile_ok (tidy.congr makes.fileAt?) proper hx
    exact ⟨printed'.trans printed, tidy', w₁.files, spot, makes, puts⟩

/-- What an action prints. -/
def printed : Action → Text
  | .write .. => []
  | .print _ content => content

/-- Whether the action writes the file at a spot, by where its path leads in a tree. -/
def WritesTo (t : FileTree) (spot : Spot) : Action → Prop
  | .write _ path _ _ => ∃ item, t.find path = .ok (spot, item)
  | .print .. => False

/-- What an action that succeeds leaves. -/
structure Took (a : Action) (w w' : World) : Prop where
  grows : w.files.Grows w'.files
  tidy : w'.files.Tidy
  printed : w'.printed = w.printed ++ a.printed
  written {chunk path content : Text} {createDirs : Bool} :
    a = .write chunk path content createDirs →
      ∃ spot, w'.files.find path = .ok (spot, .file (.text content))
  others {spot : Spot} : ¬a.WritesTo w'.files spot → w'.files.fileAt? spot = w.files.fileAt? spot

theorem took_of_perform {a : Action} (tidy : w.files.Tidy) (proper : ¬a.NamesTemporary)
    (h : w.after a.perform = (.ok (), w')) : a.Took w w' := by
  cases a with
  | print chunk content =>
    obtain rfl := (Prod.mk.inj h).2
    exact ⟨.refl _, tidy, rfl, nofun, fun _ => rfl⟩
  | write chunk path content createDirs =>
    obtain ⟨printed, tidy', made, spot, makes, puts⟩ := perform_write_ok tidy proper h
    refine ⟨makes.grows.trans puts.grows, tidy', by rw [printed]; exact (List.append_nil _).symm,
      ?_, ?_⟩
    · rintro _ _ _ _ ⟨rfl, rfl, rfl, rfl⟩
      exact ⟨spot, puts.found⟩
    · intro other ho
      have apart : other ≠ spot := by
        rintro rfl
        exact ho ⟨_, puts.found⟩
      rw [FileTree.fileAt?_congr (puts.others apart), makes.fileAt?]

/-- Actions that took full effect, in order: each path holds what was last written to it, everything
was printed, and no other file changed. Which file a path stands for is read off the tree at the
end. -/
structure Performed (actions : List Action) (w w' : World) : Prop where
  written {before later : List Action} {chunk path content : Text} {createDirs : Bool} :
    actions = before ++ .write chunk path content createDirs :: later →
    (∀ spot item, w'.files.find path = .ok (spot, item) → ∀ a ∈ later, ¬a.WritesTo w'.files spot) →
      w'.files.readText path = .ok content
  printed : w'.printed = w.printed ++ actions.flatMap Action.printed
  others (spot : Spot) : (∀ a ∈ actions, ¬a.WritesTo w'.files spot) →
    w'.files.fileAt? spot = w.files.fileAt? spot

theorem WritesTo.grows {a : Action} {t t' : FileTree} {spot : Spot} (h : a.WritesTo t spot)
    (grows : t.Grows t') : a.WritesTo t' spot := by
  cases a with
  | print => exact h
  | write =>
    obtain ⟨item, found⟩ := h
    exact grows.exists_find found

theorem performed_cons {a : Action} {later : List Action} {w w₁ w' : World} (took : a.Took w w₁)
    (performed : Performed later w₁ w') (grows : w₁.files.Grows w'.files) :
    Performed (a :: later) w w' where
  written {before rest chunk path content createDirs} split apart := by
    cases before with
    | cons b before =>
      exact performed.written (List.cons.inj split).2 apart
    | nil =>
      -- The file is in place behind the first action, and no later one writes it.
      obtain ⟨rfl, rfl⟩ := List.cons.inj split
      obtain ⟨spot, found⟩ := took.written rfl
      obtain ⟨item, found'⟩ := grows.exists_find found
      have same := performed.others spot (apart spot item found')
      rw [FileTree.fileAt?_eq_some.2 (FileTree.find_ok_iff.1 found).2.2] at same
      have reached := grows.toKeeps.find found (FileTree.fileAt?_eq_some.1 same)
      exact FileTree.readText_of_find reached
  printed := by
    rw [performed.printed, took.printed, List.flatMap_cons, List.append_assoc]
  others spot apart := by
    have first : ¬a.WritesTo w₁.files spot := fun writes =>
      apart a List.mem_cons_self (writes.grows grows)
    rw [performed.others spot fun b hb => apart b (List.mem_cons_of_mem _ hb), took.others first]

theorem performed_of_performs {actions : List Action} {r : Except Fault Unit} {w final : World}
    (h : Performs w actions r final) (hr : r = .ok ()) (tidy : w.files.Tidy)
    (proper : ∀ a ∈ actions, ¬a.NamesTemporary) :
    Performed actions w final ∧ w.files.Grows final.files ∧ final.files.Tidy := by
  induction h with
  | nil =>
    refine ⟨⟨fun split => ?_, (List.append_nil _).symm, fun _ _ => rfl⟩, .refl _, tidy⟩
    simp at split
  | @step w w₁ w' a later r first _ ih =>
    have took := took_of_perform tidy (proper a List.mem_cons_self) first
    obtain ⟨performed, grows, tidy'⟩ :=
      ih hr took.tidy fun b hb => proper b (List.mem_cons_of_mem _ hb)
    exact ⟨performed_cons took performed grows, took.grows.trans grows, tidy'⟩
  | stop => simp at hr

theorem after_performAll_of_performs {actions : List Action} {r : Except Fault Unit}
    {w final : World} (h : Performs w actions r final) :
    w.after (performAll actions) = (r, final) := by
  induction h with
  | nil => rfl
  | step first _ ih => rw [after_performAll_cons, after_bind_ok first, ih]
  | stop first => rw [after_performAll_cons, after_bind_error first]

/-- The actions in front of the one that fails succeed. -/
theorem exists_failed_of_performs {actions : List Action} {r : Except Fault Unit} {w final : World}
    {e : Fault} (h : Performs w actions r final) (hr : r = .error e) :
    ∃ before a later middle, actions = before ++ a :: later ∧ Performs w before (.ok ()) middle ∧
      middle.after a.perform = (.error e, final) := by
  induction h with
  | nil => simp at hr
  | step first _ ih =>
    obtain ⟨before, a, later, middle, rfl, performs, failed⟩ := ih hr
    exact ⟨_ :: before, a, later, middle, rfl, .step first performs, failed⟩
  | stop failed =>
    obtain rfl := Except.error.inj hr
    exact ⟨[], _, _, _, rfl, .nil, failed⟩

/-- Performing actions has the effect of those in front of the first that fails. That one is a
write, changes no file and makes at most directories above its target; those behind it do nothing. A
temporary file is never left over. -/
theorem performAll_effect (w : World) (actions : List Action) (tidy : w.files.Tidy)
    (proper : ∀ a ∈ actions, ¬a.NamesTemporary) :
    (w.after (performAll actions)).2.files.Tidy ∧
    match w.after (performAll actions) with
    | (.ok (), final) => Performed actions w final
    | (.error e, final) => ∃ before chunk path content createDirs later middle,
        actions = before ++ .write chunk path content createDirs :: later ∧
        w.after (performAll before) = (.ok (), middle) ∧ Performed before w middle ∧
        middle.after (perform (.write chunk path content createDirs)) = (.error e, final) ∧
        final.printed = middle.printed ∧
        (∀ spot, final.files.fileAt? spot = middle.files.fileAt? spot) ∧
        middle.files.Makes
          (fun dir => createDirs = true ∧ TransGen Path.Up path dir) final.files := by
  have performs := performs_performAll w actions
  match run : w.after (performAll actions) with
  | (.ok (), final) =>
    rw [run] at performs
    obtain ⟨performed, _, tidy'⟩ := performed_of_performs performs rfl tidy proper
    exact ⟨tidy', performed⟩
  | (.error e, final) =>
    rw [run] at performs
    obtain ⟨before, a, later, middle, rfl, performs', failed⟩ :=
      exists_failed_of_performs performs rfl
    obtain ⟨performed, _, tidy'⟩ := performed_of_performs performs' rfl tidy fun b hb =>
      proper b (List.mem_append_left _ hb)
    cases a with
    | print chunk content => simp [perform] at failed
    | write chunk path content createDirs =>
      obtain ⟨printed, makes⟩ := perform_write_error tidy' failed
      exact ⟨tidy'.congr makes.fileAt?, before, chunk, path, content, createDirs, later, middle,
        rfl, after_performAll_of_performs performs', performed, failed, printed, makes.fileAt?,
        makes⟩

/-- The third of four actions fails when it has made a directory and a temporary file in it. -/
theorem performAll_effect_slash :
    let w : World := { files := ({} : FileTree).place [['a']] (.file (.text "old".toList)) }
    let actions : List Action := [.write ['x'] ['a'] "new".toList true, .print ['x'] ['p'],
      .write ['y'] "d/e/".toList ['z'] true, .print ['x'] ['q']]
    w.files.Tidy ∧ (∀ a ∈ actions, ¬a.NamesTemporary) ∧
    ∃ final, w.after (performAll actions) = (.error (.file .notDirectory), final) ∧
      final.files.Tidy ∧ final.printed = ['p'] ∧ final.files.readText ['a'] = .ok "new".toList ∧
      final.files.find ['d'] = .ok ([['d']], .directory) ∧
      ∃ before a later middle, actions = before ++ a :: later ∧ Performed before w middle ∧
        ∀ spot, final.files.fileAt? spot = middle.files.fileAt? spot := by
  intro w actions
  have tidy : w.files.Tidy := FileTree.tidy_of_items (by decide)
  have proper : ∀ a ∈ actions, ¬a.NamesTemporary := by
    have dotless (path : Text)
        (hp : (Text.splitOn '/' path).getLast?.all (·.head? ≠ some '.') = true) :
        ¬∃ name, (Text.splitOn '/' path).getLast? = some name ∧ IsTemporary name := by
      rintro ⟨name, last, temporary⟩
      simp [last, head?_of_isTemporary temporary] at hp
    simp only [actions, List.forall_mem_cons, List.not_mem_nil, false_implies, implies_true,
      and_true]
    exact ⟨dotless _ (by decide), nofun, dotless _ (by decide), nofun⟩
  have failed : (w.after (performAll actions)).1 = .error (.file .notDirectory) := by
    decide +kernel
  have printed : (w.after (performAll actions)).2.printed = ['p'] := by
    decide +kernel
  have written : (w.after (performAll actions)).2.files.readText ['a'] = .ok "new".toList := by
    decide +kernel
  have made : (w.after (performAll actions)).2.files.find ['d'] = .ok ([['d']], .directory) := by
    decide +kernel
  have effect := performAll_effect w actions tidy proper
  obtain ⟨⟨r, final⟩, run⟩ : ∃ result, w.after (performAll actions) = result := ⟨_, rfl⟩
  rw [run] at failed printed written made effect
  obtain rfl : r = .error (.file .notDirectory) := failed
  obtain ⟨tidy', before, chunk, path, content, createDirs, later, middle, split, _, performed, _,
    _, same, _⟩ := effect
  exact ⟨tidy, proper, final, run, tidy', printed, written, made, before, _, later, middle, split,
    performed, same⟩

end Action

end Literate
