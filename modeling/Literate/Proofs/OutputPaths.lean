import Literate.Proofs.Paths
import Literate.Tangle

namespace Literate

namespace Path

/-- The path with a slash at its end, as the start of a longer one. The empty path needs none. -/
def asDirectory (p : Text) : Text :=
  if p.isEmpty || p.getLast? == some '/' then p else p ++ ['/']

theorem asDirectory_nil : asDirectory [] = [] := rfl

theorem asDirectory_of_slash (p : Text) : asDirectory (p ++ ['/']) = p ++ ['/'] := by
  simp [asDirectory]

theorem asDirectory_asDirectory (p : Text) : asDirectory (asDirectory p) = asDirectory p := by
  by_cases done : (p.isEmpty || p.getLast? == some '/') = true
  · have same : asDirectory p = p := if_pos done
    rw [same, same]
  · have longer : asDirectory p = p ++ ['/'] := if_neg done
    rw [longer, asDirectory_of_slash]

/-- Only the end of a path decides whether it lacks a slash. -/
theorem asDirectory_append (p : Text) {q : Text} (nonempty : q ≠ []) :
    asDirectory (p ++ q) = p ++ asDirectory q := by
  have last : (p ++ q).getLast? = q.getLast? := List.getLast?_append_of_ne_nil p nonempty
  have whole : (p ++ q).isEmpty = false := by simp [nonempty]
  have part : q.isEmpty = false := by simpa using nonempty
  unfold asDirectory
  rw [last, whole, part]
  split
  · rfl
  · exact List.append_assoc p q ['/']

theorem join_of_absolute (a : Text) {b : Text} (absolute : isAbsolute b = true) : join a b = b := by
  simp [join, absolute]

theorem join_of_relative (a : Text) {b : Text} (relative : isAbsolute b = false) :
    join a b = asDirectory a ++ b := by
  unfold join asDirectory
  rw [relative, Bool.false_or]
  cases a with
  | nil => rfl
  | cons c a =>
    by_cases slash : (c :: a).getLast? = some '/'
    · simp [slash]
    · simp [slash]

theorem isAbsolute_join_of_absolute {a b : Text} (absolute : isAbsolute a = true) :
    isAbsolute (join a b) = true := by
  cases hb : isAbsolute b with
  | true => rw [join_of_absolute a hb, hb]
  | false => rw [isAbsolute_join hb, absolute]

/-- An empty path in the middle still leaves a slash behind the first one. -/
theorem asDirectory_join (a : Text) {b : Text} (relative : isAbsolute b = false) :
    asDirectory (join a b) = asDirectory a ++ asDirectory b := by
  rw [join_of_relative a relative]
  by_cases empty : b = []
  · rw [empty, List.append_nil, asDirectory_asDirectory, asDirectory_nil, List.append_nil]
  · exact asDirectory_append _ empty

theorem join_assoc (a b c : Text) : join a (join b c) = join (join a b) c := by
  cases hc : isAbsolute c with
  | true => rw [join_of_absolute b hc, join_of_absolute a hc, join_of_absolute _ hc]
  | false =>
    cases hb : isAbsolute b with
    | true =>
      have whole : isAbsolute (join b c) = true := isAbsolute_join_of_absolute hb
      rw [join_of_absolute a hb, join_of_absolute a whole]
    | false =>
      have whole : isAbsolute (join b c) = false := by rw [isAbsolute_join hc, hb]
      calc join a (join b c)
          = asDirectory a ++ (asDirectory b ++ c) := by
            rw [join_of_relative a whole, join_of_relative b hc]
        _ = asDirectory (join a b) ++ c := by rw [asDirectory_join a hb, List.append_assoc]
        _ = join (join a b) c := (join_of_relative _ hc).symm

end Path

namespace Context

variable (x : Context)

/-- Joining leaves an absolute path alone, so it is not a case of its own. -/
theorem resolve_eq_join (path : Text) : x.resolve path = Path.join x.base path := by
  unfold resolve
  split
  · rename_i absolute
    exact (Path.join_of_absolute x.base absolute).symm
  · rfl

theorem resolve_join (dir path : Text) :
    x.resolve (Path.join dir path) = Path.join (x.resolve dir) path := by
  rw [resolve_eq_join, resolve_eq_join, Path.join_assoc]

theorem resolveOutput_of_dir {dir : Text} (h : x.settings.outputDir = some dir) (path : Text) :
    x.resolveOutput path = Path.join (x.resolve dir) path := by
  unfold resolveOutput
  rw [h]
  by_cases absolute : Path.isAbsolute path = true
  · simp [absolute, resolve, Path.join_of_absolute]
  · simp [absolute, resolve_join]

theorem resolveOutput_of_none (h : x.settings.outputDir = none) (path : Text) :
    x.resolveOutput path = Path.join x.base path := by
  unfold resolveOutput
  rw [h]
  exact x.resolve_eq_join path

theorem resolveOutput_of_absolute {path : Text} (h : Path.isAbsolute path = true) :
    x.resolveOutput path = path := by
  cases dir : x.settings.outputDir with
  | none => rw [x.resolveOutput_of_none dir, Path.join_of_absolute _ h]
  | some dir' => rw [x.resolveOutput_of_dir dir, Path.join_of_absolute _ h]

/-- The context of a run that starts in this directory and has no output directory of its own. -/
def startingIn (dir : Text) : Context :=
  { settings := { x.settings with outputDir := none }, base := dir }

/-- Of the directories a plan shows only where the outputs go. -/
theorem plan_startingIn {dir : Text}
    (h : ∀ path, (x.startingIn dir).resolveOutput path = x.resolveOutput path) (d : Document)
    (requested : List Text) : (x.startingIn dir).plan d requested = x.plan d requested := by
  have action : (x.startingIn dir).action = x.action := by
    funext o
    unfold Context.action
    cases o.target with
    | print => rfl
    | file path =>
      simp only [h]
      rfl
  unfold plan
  rw [action]
  rfl

end Context

/-- Paths may be joined in either grouping, whatever they are. Hence an output goes to its own path if
this is absolute, and otherwise below the output directory, which is itself below the base unless it
is absolute, or below the base alone. It makes no difference whether the output directory is joined
to the path or to the base first, and the plan is that of a run that starts in the directory the
outputs go to. -/
theorem Context.resolveOutput_joins :
    (∀ a b c, Path.join a (Path.join b c) = Path.join (Path.join a b) c) ∧
    ∀ (x : Context) (path : Text),
      (Path.isAbsolute path = true → x.resolveOutput path = path) ∧
      (∀ dir, x.settings.outputDir = some dir →
        x.resolveOutput path = Path.join (Path.join x.base dir) path ∧
        (Path.isAbsolute dir = true → x.resolveOutput path = Path.join dir path) ∧
        x.resolveOutput path = x.resolve (Path.join dir path) ∧
        x.resolveOutput path = Path.join (x.resolve dir) path ∧
        ∀ d requested, (x.startingIn (x.resolve dir)).plan d requested = x.plan d requested) ∧
      (x.settings.outputDir = none → x.resolveOutput path = Path.join x.base path) := by
  refine ⟨Path.join_assoc, ?_⟩
  intro x path
  refine ⟨x.resolveOutput_of_absolute, ?_, fun none => x.resolveOutput_of_none none path⟩
  intro dir given
  have joined (path : Text) : x.resolveOutput path = Path.join (x.resolve dir) path :=
    x.resolveOutput_of_dir given path
  refine ⟨?_, ?_, ?_, joined path, ?_⟩
  · rw [joined, x.resolve_eq_join]
  · intro absolute
    rw [joined, x.resolve_eq_join, Path.join_of_absolute _ absolute]
  · rw [joined, x.resolve_join]
  · intro d requested
    apply x.plan_startingIn
    intro path
    rw [joined, resolveOutput_of_none _ rfl]
    rfl

/-- An empty output directory leaves a slash behind the base, an absolute one discards the base, and
an absolute path both. -/
theorem Context.resolveOutput_joins_empty_dir :
    let x : Context := { settings := { outputDir := some [] }, base := ['w'] }
    let y : Context := { settings := { outputDir := some ['/', 'o', '/'] }, base := ['w'] }
    let z : Context := { base := ['w', '/'] }
    x.settings.outputDir = some [] ∧ Path.join x.base [] = ['w', '/'] ∧
    x.resolveOutput ['p'] = ['w', '/', 'p'] ∧
    Path.isAbsolute ['/', 'o', '/'] = true ∧ y.resolveOutput ['p'] = ['/', 'o', '/', 'p'] ∧
    z.settings.outputDir = none ∧ z.resolveOutput ['p'] = ['w', '/', 'p'] ∧
    Path.isAbsolute ['/', 'p'] = true ∧ y.resolveOutput ['/', 'p'] = ['/', 'p'] ∧
    Path.join ['w'] (Path.join [] []) = Path.join (Path.join ['w'] []) [] := by
  intro x y z
  obtain ⟨assoc, each⟩ := resolveOutput_joins
  have below : x.resolveOutput ['p'] = Path.join (Path.join x.base []) ['p'] :=
    ((each x ['p']).2.1 [] rfl).1
  have outside : y.resolveOutput ['p'] = Path.join ['/', 'o', '/'] ['p'] :=
    ((each y ['p']).2.1 _ rfl).2.1 (by decide)
  have alone : z.resolveOutput ['p'] = Path.join z.base ['p'] := (each z ['p']).2.2 rfl
  have own : y.resolveOutput ['/', 'p'] = ['/', 'p'] := (each y ['/', 'p']).1 (by decide)
  rw [below, outside, alone]
  exact ⟨rfl, by decide, by decide, by decide, by decide, rfl, by decide, by decide, own,
    assoc ['w'] [] []⟩

end Literate
