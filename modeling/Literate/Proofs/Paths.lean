import Mathlib.Data.List.DropRight
import Mathlib.Data.List.Infix
import Literate.Path

namespace Literate

namespace Text

theorem splitOn_append (sep : Char) (t u : Text) :
    splitOn sep (t ++ sep :: u) = splitOn sep t ++ splitOn sep u := by
  induction t with
  | nil =>
    show splitOn sep (sep :: u) = [] :: splitOn sep u
    rw [splitOn]
    cases h : splitOn sep u with
    | nil => exact absurd h (Path.splitOn_ne_nil sep u)
    | cons piece pieces => exact if_pos rfl
  | cons c t ih =>
    rw [List.cons_append, splitOn, splitOn, ih]
    cases h : splitOn sep t with
    | nil => exact absurd h (Path.splitOn_ne_nil sep t)
    | cons piece pieces =>
      simp only [List.cons_append]
      split <;> rfl

theorem splitOn_sep (sep : Char) (t : Text) : splitOn sep (sep :: t) = [] :: splitOn sep t :=
  splitOn_append sep [] t

theorem splitOn_of_not_mem {sep : Char} {t : Text} (h : sep ∉ t) : splitOn sep t = [t] := by
  induction t with
  | nil => rfl
  | cons c t ih =>
    have other : c ≠ sep := by
      rintro rfl
      exact h List.mem_cons_self
    rw [splitOn, ih fun later => h (List.mem_cons_of_mem _ later)]
    exact if_neg other

/-- The pieces have the characters between the separators. -/
theorem mem_of_mem_splitOn {sep c : Char} {t piece : Text} (h : piece ∈ splitOn sep t)
    (hc : c ∈ piece) : c ∈ t ∧ c ≠ sep := by
  induction t generalizing piece with
  | nil =>
    rw [List.mem_singleton.1 h] at hc
    exact absurd hc List.not_mem_nil
  | cons d t ih =>
    rw [splitOn] at h
    cases hs : splitOn sep t with
    | nil => exact absurd hs (Path.splitOn_ne_nil sep t)
    | cons first later =>
      rw [hs] at h ih
      have old {piece : Text} (hp : piece ∈ first :: later) (hc : c ∈ piece) :
          c ∈ d :: t ∧ c ≠ sep := (ih hp hc).imp_left (List.mem_cons_of_mem _)
      by_cases same : d = sep
      · simp only [if_pos same, List.mem_cons] at h
        rcases h with rfl | h
        · exact absurd hc List.not_mem_nil
        · exact old (List.mem_cons.2 h) hc
      · simp only [if_neg same, List.mem_cons] at h
        rcases h with rfl | h
        · rcases List.mem_cons.1 hc with rfl | hc
          · exact ⟨List.mem_cons_self, same⟩
          · exact old List.mem_cons_self hc
        · exact old (List.mem_cons_of_mem _ h) hc

theorem not_mem_of_mem_splitOn {sep : Char} {t piece : Text} (h : piece ∈ splitOn sep t) :
    sep ∉ piece :=
  fun inside => (mem_of_mem_splitOn h inside).2 rfl

end Text

namespace Path

/-- The pieces of a path that lead somewhere: names and double dots. -/
def steps (p : Text) : List Text := (Text.splitOn '/' p).filter fun piece => !isSilent piece

theorem isSilent_iff {piece : Text} : isSilent piece = true ↔ piece = [] ∨ piece = ['.'] := by
  simp [isSilent]

theorem steps_nil : steps [] = [] := rfl

theorem not_silent_of_mem_steps {p piece : Text} (h : piece ∈ steps p) :
    isSilent piece = false := by
  have kept := (List.mem_filter.1 h).2
  simpa using kept

theorem steps_append (a b : Text) : steps (a ++ '/' :: b) = steps a ++ steps b := by
  rw [steps, Text.splitOn_append, List.filter_append]
  rfl

theorem steps_slash (body : Text) : steps ('/' :: body) = steps body := steps_append [] body

theorem steps_slashes (n : Nat) : steps (List.replicate n '/') = [] := by
  induction n with
  | zero => rfl
  | succ n ih => rw [List.replicate_succ, steps_slash, ih]

theorem steps_unsplit {pieces : List Text} (h : ∀ piece ∈ pieces, '/' ∉ piece) :
    steps (unsplit pieces) = pieces.filter fun piece => !isSilent piece := by
  induction pieces with
  | nil => rfl
  | cons piece pieces ih =>
    have alone : steps piece = [piece].filter fun piece => !isSilent piece := by
      rw [steps, Text.splitOn_of_not_mem (h piece List.mem_cons_self)]
    cases pieces with
    | nil => exact alone
    | cons next pieces =>
      have later := ih fun other mem => h other (List.mem_cons_of_mem _ mem)
      show steps (piece ++ '/' :: unsplit (next :: pieces)) = _
      rw [steps_append, alone, later, ← List.filter_append, List.singleton_append]

theorem filter_dropSilentEnd (pieces : List Text) :
    (dropSilentEnd pieces).filter (fun piece => !isSilent piece) =
      pieces.filter fun piece => !isSilent piece := by
  have parts : dropSilentEnd pieces ++ pieces.rtakeWhile isSilent = pieces :=
    List.rdropWhile_append_rtakeWhile
  have silent : (pieces.rtakeWhile isSilent).filter (fun piece => !isSilent piece) = [] := by
    rw [List.filter_eq_nil_iff]
    intro piece mem
    simp [List.mem_rtakeWhile_imp mem]
  have whole := congrArg (List.filter fun piece => !isSilent piece) parts
  rwa [List.filter_append, silent, List.append_nil] at whole

/-- In front of the silent end stands a piece that takes the last step. -/
theorem filter_dropLast (pieces : List Text) :
    (dropSilentEnd pieces).dropLast.filter (fun piece => !isSilent piece) =
      (pieces.filter fun piece => !isSilent piece).dropLast := by
  rw [← filter_dropSilentEnd pieces]
  by_cases empty : dropSilentEnd pieces = []
  · rw [empty]
    rfl
  · have last : ¬isSilent ((dropSilentEnd pieces).getLast empty) = true :=
      List.rdropWhile_last_not isSilent pieces empty
    have split := List.dropLast_concat_getLast empty
    nth_rewrite 2 [← split]
    rw [List.filter_append, List.filter_cons_of_pos (by simpa using last), List.filter_nil,
      List.dropLast_concat]

theorem not_mem_dropSilentEnd {pieces : List Text} (h : ∀ piece ∈ pieces, '/' ∉ piece) :
    ∀ piece ∈ dropSilentEnd (dropSilentEnd pieces).dropLast, '/' ∉ piece := by
  intro piece mem
  have outer := dropSilentEnd_prefix (dropSilentEnd pieces).dropLast
  have inner := dropSilentEnd_prefix pieces
  exact h piece (inner.subset (List.dropLast_subset _ (outer.subset mem)))

theorem dropSilentEnd_eq_nil_iff {pieces : List Text} :
    dropSilentEnd pieces = [] ↔ (pieces.filter fun piece => !isSilent piece) = [] := by
  show pieces.rdropWhile isSilent = [] ↔ _
  rw [List.rdropWhile_eq_nil_iff, List.filter_eq_nil_iff]
  simp

/-- What a path has a parent for: pieces that take a step below the root, or a first piece that is
not below the root. -/
theorem parent?_cases {p q : Text} (h : parent? p = some q) :
    (∃ body, p = '/' :: body ∧ dropSilentEnd (Text.splitOn '/' body) ≠ [] ∧
      q = '/' :: unsplit (dropSilentEnd (dropSilentEnd (Text.splitOn '/' body)).dropLast)) ∨
    ∃ c first body, c ≠ '/' ∧ Text.splitOn '/' p = (c :: first) :: body ∧ isAbsolute p = false ∧
      (dropSilentEnd body = [] ∧ q = [] ∨ dropSilentEnd body ≠ [] ∧
        q = unsplit ((c :: first) :: dropSilentEnd (dropSilentEnd body).dropLast)) := by
  unfold parent? at h
  split at h
  · rename_i body
    left
    refine ⟨body, rfl, ?_⟩
    split at h
    · simp at h
    · rename_i steps
      exact ⟨steps, (Option.some.inj h).symm⟩
  · rename_i relative
    right
    have whole := unsplit_splitOn p
    split at h
    · simp at h
    · rename_i first body split
      rw [split] at whole
      have absolute : isAbsolute p = false := by
        cases p with
        | nil => rfl
        | cons c p =>
          have other : c ≠ '/' := fun same => relative p (by rw [same])
          simp [isAbsolute, other]
      cases first with
      | nil =>
        cases body with
        | nil => simp [dropSilentEnd] at h
        | cons piece body => exact absurd whole.symm (relative _)
      | cons c first =>
        have start : ∃ later, p = c :: later := by
          rw [← whole]
          cases body with
          | nil => exact ⟨first, rfl⟩
          | cons piece body => exact ⟨first ++ '/' :: unsplit (piece :: body), rfl⟩
        obtain ⟨later, same⟩ := start
        have other : c ≠ '/' := by
          rintro rfl
          exact relative later same
        refine ⟨c, first, body, other, split, absolute, ?_⟩
        split at h
        · rename_i silent
          exact Or.inl ⟨silent, by simpa using h.symm⟩
        · rename_i steps
          exact Or.inr ⟨steps, (Option.some.inj h).symm⟩

theorem isAbsolute_unsplit {c : Char} {first : Text} (hc : c ≠ '/') (pieces : List Text) :
    isAbsolute (unsplit ((c :: first) :: pieces)) = false := by
  cases pieces <;> simp [unsplit, isAbsolute, hc]

theorem head?_splitOn_unsplit {first : Text} (slash : '/' ∉ first) (pieces : List Text) :
    (Text.splitOn '/' (unsplit (first :: pieces))).head? = some first := by
  cases pieces with
  | nil =>
    show (Text.splitOn '/' first).head? = some first
    rw [Text.splitOn_of_not_mem slash]
    rfl
  | cons next pieces =>
    show (Text.splitOn '/' (first ++ '/' :: unsplit (next :: pieces))).head? = some first
    rw [Text.splitOn_append, Text.splitOn_of_not_mem slash]
    rfl

/-- Going up takes the last step back, and stays on the same side of the root. -/
theorem steps_of_parent? {p q : Text} (h : parent? p = some q) :
    steps q = (steps p).dropLast ∧ isAbsolute q = isAbsolute p := by
  rcases parent?_cases h with ⟨body, rfl, _, rfl⟩ | ⟨c, first, body, hc, split, relative, cases⟩
  · have slashes := not_mem_dropSilentEnd fun _ => Text.not_mem_of_mem_splitOn (t := body)
    refine ⟨?_, rfl⟩
    rw [steps_slash, steps_slash, steps_unsplit slashes, filter_dropSilentEnd, filter_dropLast]
    rfl
  · have slash : ∀ piece ∈ (c :: first) :: body, '/' ∉ piece := by
      intro piece mem
      exact Text.not_mem_of_mem_splitOn (split ▸ mem)
    have parts : steps p = [c :: first].filter (fun piece => !isSilent piece) ++
        body.filter fun piece => !isSilent piece := by
      rw [steps, split, ← List.filter_append, List.singleton_append]
    rcases cases with ⟨silent, rfl⟩ | ⟨more, rfl⟩
    · refine ⟨?_, relative.symm⟩
      rw [parts, dropSilentEnd_eq_nil_iff.1 silent, List.append_nil, steps_nil]
      cases hs : isSilent (c :: first) <;> simp [hs]
    · have behind := not_mem_dropSilentEnd fun piece mem => slash piece (List.mem_cons_of_mem _ mem)
      have slashes : ∀ piece ∈ (c :: first) :: dropSilentEnd (dropSilentEnd body).dropLast,
          '/' ∉ piece := by
        intro piece mem
        rcases List.mem_cons.1 mem with rfl | mem
        · exact slash _ List.mem_cons_self
        · exact behind piece mem
      have nonempty : body.filter (fun piece => !isSilent piece) ≠ [] := by
        intro none
        exact more (dropSilentEnd_eq_nil_iff.2 none)
      refine ⟨?_, ?_⟩
      · rw [steps_unsplit slashes, parts, List.dropLast_append_of_ne_nil nonempty,
          ← filter_dropLast, ← filter_dropSilentEnd (dropSilentEnd body).dropLast,
          ← List.filter_append, List.singleton_append]
      · rw [relative, isAbsolute_unsplit hc]

/-- A path that has no parent takes no step. -/
theorem steps_of_parent?_none {p : Text} (h : parent? p = none) :
    steps p = [] ∧ (Text.splitOn '/' p).head? = some [] := by
  unfold parent? at h
  split at h
  · rename_i body
    split at h
    · rename_i silent
      rw [steps_slash]
      exact ⟨dropSilentEnd_eq_nil_iff.1 silent, by rw [Text.splitOn_sep]; rfl⟩
    · simp at h
  · split at h
    · rename_i none
      exact absurd none (splitOn_ne_nil '/' p)
    · rename_i first body split
      split at h
      · rename_i silent
        have empty : first = [] := by
          by_contra more
          simp [more] at h
        rw [steps, split, empty]
        refine ⟨?_, rfl⟩
        rw [List.filter_cons_of_neg (by simp [isSilent])]
        exact dropSilentEnd_eq_nil_iff.1 silent
      · simp at h

/-- Whether a path begins with a dot, as a piece of its own. -/
def isDotted (p : Text) : Bool := (Text.splitOn '/' p).head? == some ['.']

/-- A path without steps has a parent only if it begins with a dot. -/
theorem dotted_of_parent? {p q : Text} (h : parent? p = some q) (still : steps p = []) :
    isDotted p = true ∧ q = [] := by
  rcases parent?_cases h with ⟨body, rfl, more, _⟩ | ⟨c, first, body, hc, split, _, cases⟩
  · rw [steps_slash] at still
    exact absurd (dropSilentEnd_eq_nil_iff.2 still) more
  · rw [steps, split, List.filter_eq_nil_iff] at still
    have dot : isSilent (c :: first) = true := by simpa using still _ List.mem_cons_self
    have same : c :: first = ['.'] := by simpa using isSilent_iff.1 dot
    have silent : dropSilentEnd body = [] := by
      rw [dropSilentEnd_eq_nil_iff, List.filter_eq_nil_iff]
      intro piece mem
      exact still piece (List.mem_cons_of_mem _ mem)
    refine ⟨?_, ?_⟩
    · rw [isDotted, split, same]
      rfl
    · rcases cases with ⟨_, empty⟩ | ⟨more, _⟩
      · exact empty
      · exact absurd silent more

theorem isDotted_of_parent? {p q : Text} (h : parent? p = some q) (more : steps p ≠ []) :
    isDotted q = isDotted p := by
  rcases parent?_cases h with ⟨body, rfl, _, rfl⟩ | ⟨c, first, body, hc, split, _, cases⟩
  · have slash (t : Text) : isDotted ('/' :: t) = false := by
      rw [isDotted, Text.splitOn_sep]
      rfl
    rw [slash, slash]
  · rcases cases with ⟨silent, rfl⟩ | ⟨_, rfl⟩
    · have name : isSilent (c :: first) = false := by
        by_contra dot
        apply more
        rw [steps, split, List.filter_cons_of_neg (by simpa using dot)]
        exact dropSilentEnd_eq_nil_iff.1 silent
      have other : c :: first ≠ ['.'] := by
        intro dot
        rw [dot] at name
        exact absurd name (by decide)
      rw [isDotted, isDotted, split]
      simpa [Text.splitOn] using other
    · have slash : '/' ∉ c :: first := by
        apply Text.not_mem_of_mem_splitOn (t := p)
        rw [split]
        exact List.mem_cons_self
      rw [isDotted, isDotted, head?_splitOn_unsplit slash, split]
      rfl

/-- The path, its parent, the parent of that, and so on. -/
def ascent (p : Text) : List Text :=
  match _h : parent? p with
  | none => [p]
  | some q => p :: ascent q
termination_by p.length
decreasing_by exact length_lt_of_parent? _h

/-- On the way up the steps are taken back one by one, until none is left. A dot at the start is
left for one path more. -/
theorem map_steps_ascent (p : Text) :
    (ascent p).map steps = (steps p).inits.reverse ++ if isDotted p then [[]] else [] := by
  fun_induction ascent p with
  | case1 p top =>
    obtain ⟨still, first⟩ := steps_of_parent?_none top
    have noDot : isDotted p = false := by
      rw [isDotted, first]
      rfl
    rw [List.map_cons, still, noDot]
    rfl
  | case2 p q up ih =>
    have back := (steps_of_parent? up).1
    rw [List.map_cons, ih]
    by_cases still : steps p = []
    · obtain ⟨dot, rfl⟩ := dotted_of_parent? up still
      rw [still, dot]
      rfl
    · have split : (steps p).dropLast ++ [(steps p).getLast still] = steps p :=
        List.dropLast_concat_getLast still
      rw [isDotted_of_parent? up still, back]
      nth_rewrite 3 [← split]
      rw [List.inits_append]
      simp [split]

theorem mem_ascent_self (p : Text) : p ∈ ascent p := by
  rw [ascent]
  split <;> exact List.mem_cons_self

theorem steps_isPrefix_of_mem_ascent {p q : Text} (h : q ∈ ascent p) : steps q <+: steps p := by
  have mem : steps q ∈ (ascent p).map steps := List.mem_map_of_mem h
  rw [map_steps_ascent, List.mem_append, List.mem_reverse, List.mem_inits] at mem
  rcases mem with start | none
  · exact start
  · have still : steps q = [] := by
      split at none
      · exact List.mem_singleton.1 none
      · simp at none
    rw [still]
    exact List.nil_prefix

/-- Every other path on the way up has lost a step. -/
theorem mem_ascent_cases {p q : Text} (h : q ∈ ascent p) :
    q = p ∨ steps q <+: (steps p).dropLast := by
  rw [ascent] at h
  split at h
  · exact Or.inl (List.mem_singleton.1 h)
  · rename_i parent up
    rcases List.mem_cons.1 h with same | above
    · exact Or.inl same
    · rw [← (steps_of_parent? up).1]
      exact Or.inr (steps_isPrefix_of_mem_ascent above)

theorem isAbsolute_of_mem_ascent {p q : Text} (h : q ∈ ascent p) : isAbsolute q = isAbsolute p := by
  fun_induction ascent p with
  | case1 p top => rw [List.mem_singleton.1 h]
  | case2 p r up ih =>
    rcases List.mem_cons.1 h with rfl | above
    · rfl
    · rw [ih above, (steps_of_parent? up).2]

theorem join_cases {a b : Text} (relative : isAbsolute b = false) :
    a = [] ∧ join a b = b ∨ (∃ front, a = front ++ ['/'] ∧ join a b = front ++ '/' :: b) ∨
      a ≠ [] ∧ join a b = a ++ '/' :: b := by
  unfold join
  by_cases empty : a = []
  · left
    simp [empty, relative]
  · right
    have nonempty : a.isEmpty = false := by simpa using empty
    rw [relative, nonempty, Bool.or_false, if_neg Bool.false_ne_true]
    by_cases slash : a.getLast? = some '/'
    · obtain ⟨front, rfl⟩ := List.getLast?_eq_some_iff.1 slash
      left
      refine ⟨front, rfl, ?_⟩
      rw [if_pos (by simp), List.append_assoc, List.singleton_append]
    · right
      exact ⟨empty, if_neg (by simpa using slash)⟩

theorem steps_join {a b : Text} (relative : isAbsolute b = false) :
    steps (join a b) = steps a ++ steps b := by
  rcases join_cases (a := a) relative with ⟨rfl, same⟩ | ⟨front, rfl, same⟩ | ⟨_, same⟩
  · rw [same]
    rfl
  · rw [same, steps_append, steps_append, steps_nil, List.append_nil]
  · rw [same, steps_append]

theorem length_le_length_join (a : Text) {b : Text} (relative : isAbsolute b = false) :
    a.length ≤ (join a b).length := by
  rcases join_cases (a := a) relative with ⟨rfl, same⟩ | ⟨front, rfl, same⟩ | ⟨_, same⟩
  · exact Nat.zero_le _
  · simp only [same, List.length_append, List.length_cons, List.length_nil]
    omega
  · rw [same, List.length_append]
    omega

theorem isAbsolute_join {a b : Text} (relative : isAbsolute b = false) :
    isAbsolute (join a b) = isAbsolute a := by
  rcases join_cases (a := a) relative with ⟨rfl, same⟩ | ⟨front, rfl, same⟩ | ⟨nonempty, same⟩
  · rw [same, relative]
    rfl
  · rw [same]
    cases front <;> rfl
  · rw [same]
    cases a with
    | nil => exact absurd rfl nonempty
    | cons c a => rfl

theorem isAbsolute_of_not_mem {name : Text} (noSlash : '/' ∉ name) : isAbsolute name = false := by
  cases name with
  | nil => rfl
  | cons c name =>
    have other : c ≠ '/' := by
      rintro rfl
      exact noSlash List.mem_cons_self
    simp [isAbsolute, other]

/-- The last piece of a joined path is the name that was joined to it. -/
theorem splitOn_join (dir : Text) {name : Text} (noSlash : '/' ∉ name) :
    ∃ above, Text.splitOn '/' (join dir name) = above ++ [name] := by
  have alone := Text.splitOn_of_not_mem noSlash
  have relative := isAbsolute_of_not_mem noSlash
  rcases join_cases (a := dir) relative with ⟨_, same⟩ | ⟨front, _, same⟩ | ⟨_, same⟩
  · exact ⟨[], by rw [same, alone]; rfl⟩
  · exact ⟨_, by rw [same, Text.splitOn_append, alone]⟩
  · exact ⟨_, by rw [same, Text.splitOn_append, alone]⟩

end Path

end Literate
