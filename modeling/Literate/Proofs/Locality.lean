import Literate.Proofs.Definitions
import Literate.Proofs.Indents
import Literate.Proofs.Printing

namespace Literate

namespace Segment

theorem push_cons_cons (x y : Segment) (ys : List Segment) (g : Segment) :
    push (x :: y :: ys) g = x :: push (y :: ys) g := by
  cases x <;> cases g <;> rfl

theorem map_bare_push (gs : List Segment) (g : Segment) :
    (push gs g).map bare = push (gs.map bare) g.bare := by
  fun_induction push gs g with
  | case1 => rfl
  | case2 => rfl
  | case3 x xs g other ih =>
    rw [List.map_cons, List.map_cons, ih]
    cases xs with
    | cons y ys => exact (push_cons_cons _ _ _ _).symm
    | nil =>
      cases x with
      | reference => rfl
      | text s =>
        cases g with
        | reference => rfl
        | text t => exact absurd rfl (other s t rfl rfl)

theorem map_bare_foldl_push (later gs : List Segment) :
    (later.foldl push gs).map bare = (later.map bare).foldl push (gs.map bare) := by
  induction later generalizing gs with
  | nil => rfl
  | cons g later ih =>
    rw [List.foldl_cons, ih, map_bare_push]
    rfl

end Segment

namespace Chunk

theorem bare_merge (c later : Chunk) : (c.merge later).bare = c.bare.merge later.bare := by
  have content : (mergeContent c.content later.content).map Segment.bare =
      mergeContent (c.content.map Segment.bare) (later.content.map Segment.bare) := by
    unfold mergeContent
    rw [Segment.map_bare_foldl_push, List.isEmpty_map, List.isEmpty_map]
    split
    · rfl
    · rw [Segment.map_bare_push]
      rfl
  exact congrArg (fun gs => { c.bare.merge later.bare with content := gs }) content

theorem bare_foldl_merge (c : Chunk) (later : List Chunk) :
    (later.foldl merge c).bare = (later.map bare).foldl merge c.bare := by
  induction later generalizing c with
  | nil => rfl
  | cons l later ih =>
    rw [List.foldl_cons, ih, bare_merge]
    rfl

theorem map_bare_mergeAll? (cs : List Chunk) :
    (mergeAll? cs).map bare = mergeAll? (cs.map bare) := by
  cases cs with
  | nil => rfl
  | cons c later => exact congrArg some (bare_foldl_merge c later)

end Chunk

/-- The chunk that the chunks of one name stand for. -/
def Policy.choose? : Policy → List Chunk → Option Chunk
  | .merged, cs => (Chunk.mergeAll? (cs.filter Chunk.isCode)).or cs.head?
  | .firstDefinition, cs => cs.head?

theorem Policy.map_bare_choose? (policy : Policy) (cs : List Chunk) :
    (policy.choose? cs).map Chunk.bare = policy.choose? (cs.map Chunk.bare) := by
  have code : (cs.filter Chunk.isCode).map Chunk.bare = (cs.map Chunk.bare).filter Chunk.isCode := by
    rw [List.filter_map]
    rfl
  cases policy with
  | merged =>
    simp only [choose?]
    rw [Option.map_or, Chunk.map_bare_mergeAll?, code, List.head?_map]
  | firstDefinition => exact (List.head?_map).symm

namespace Document

/-- The chunks of a name in order, of either kind. -/
def named (d : Document) (name : Text) : List Chunk := d.chunks.filter (·.name = name)

theorem resolve?_empty (d : Document) (policy : Policy) : (d.scope policy).resolve? [] = none := by
  have noCode : d.table.get? [] = none := d.get?_table []
  cases policy with
  | merged =>
    show (d.table.get? []).or (d.first? []) = none
    rw [noCode]
    rfl
  | firstDefinition => rfl

theorem first?_eq_head? (d : Document) {name : Text} (h : name ≠ []) :
    d.first? name = (d.named name).head? := by
  have nonempty : name.isEmpty = false := by simpa using h
  rw [first?, nonempty, named, List.head?_filter]
  rfl

theorem definitions_eq_filter_named (d : Document) {name : Text} (h : name ≠ []) :
    d.definitions name = (d.named name).filter Chunk.isCode := by
  rw [definitions, if_neg h, named, List.filter_filter]
  rfl

/-- Nothing but the chunks of a name decides what it stands for. -/
theorem resolve?_eq_choose? (d : Document) (policy : Policy) {name : Text} (h : name ≠ []) :
    (d.scope policy).resolve? name = policy.choose? (d.named name) := by
  cases policy with
  | merged =>
    show (d.table.get? name).or (d.first? name) = _
    rw [get?_table, definitions_eq_filter_named d h, first?_eq_head? d h]
    rfl
  | firstDefinition => exact first?_eq_head? d h

/-- Two documents with the same chunks of a name, wherever they stand. -/
def AgreeOn (d₁ d₂ : Document) (name : Text) : Prop :=
  (d₁.named name).map Chunk.bare = (d₂.named name).map Chunk.bare

theorem AgreeOn.resolve? {d₁ d₂ : Document} {name : Text} (h : name ≠ [] → d₁.AgreeOn d₂ name)
    (policy : Policy) : ((d₁.scope policy).resolve? name).map Chunk.bare =
      ((d₂.scope policy).resolve? name).map Chunk.bare := by
  by_cases empty : name = []
  · rw [empty, resolve?_empty, resolve?_empty]
  · have same : (d₁.named name).map Chunk.bare = (d₂.named name).map Chunk.bare := h empty
    rw [resolve?_eq_choose? d₁ policy empty, resolve?_eq_choose? d₂ policy empty,
      Policy.map_bare_choose?, Policy.map_bare_choose?, same]

end Document

namespace Scope

/-- The names an expansion comes to from a name: the name itself, and every name referred to in what
a name that is reached stands for. -/
inductive Reaches (s : Scope) (name : Text) : Text → Prop where
  | self : Reaches s name name
  | step {m n indent : Text} {loc : Location} {c : Chunk} : Reaches s name m →
      s.resolve? m = some c → .reference n indent loc ∈ c.content → Reaches s name n

variable {s₁ s₂ : Scope}

theorem eq_text_of_bare {g : Segment} {t : Text} (h : g.bare = .text t) : g = .text t := by
  cases g with
  | text u => exact h
  | reference => simp [Segment.bare] at h

theorem exists_reference_of_bare {g : Segment} {name indent : Text}
    (h : g.bare = .reference name indent {}) : ∃ loc, g = .reference name indent loc := by
  cases g with
  | text => simp [Segment.bare] at h
  | reference name' indent' loc =>
    obtain ⟨rfl, rfl⟩ : name' = name ∧ indent' = indent := by simpa [Segment.bare] using h
    exact ⟨loc, rfl⟩

theorem expandAll_congr {start : Text} (same : ∀ m, s₁.Reaches start m →
      (s₁.resolve? m).map Chunk.bare = (s₂.resolve? m).map Chunk.bare)
    {trail : Trail} {indent : Text} {gs hs : List Segment}
    (inside : ∀ name own loc, .reference name own loc ∈ gs → s₁.Reaches start name)
    (h : gs.map Segment.bare = hs.map Segment.bare) :
    (s₁.expandAll trail indent gs).outcome = (s₂.expandAll trail indent hs).outcome := by
  induction trail, indent, gs using expandAll.induct s₁ generalizing hs with
  | case1 trail indent =>
    obtain rfl := List.map_eq_nil_iff.1 h.symm
    rw [expandAll_nil_outcome, expandAll_nil_outcome]
  | case2 trail indent t rest ih =>
    obtain ⟨g, hs, rfl, first, later⟩ := List.map_eq_cons_iff.1 h.symm
    obtain rfl := eq_text_of_bare first
    have rest := ih (fun name own loc mem => inside name own loc (List.mem_cons_of_mem _ mem))
      later.symm
    rw [expandAll_text_outcome, expandAll_text_outcome, rest]
  | case3 trail indent name own loc rest hr =>
    obtain ⟨g, hs, rfl, first, later⟩ := List.map_eq_cons_iff.1 h.symm
    obtain ⟨loc', rfl⟩ := exists_reference_of_bare first
    have found := same name (inside name own loc List.mem_cons_self)
    have hr' : s₂.resolve? name = none := by
      rw [hr] at found
      exact Option.map_eq_none_iff.1 found.symm
    rw [expandAll_reference_unresolved hr, expandAll_reference_unresolved hr']
  | case4 trail indent name own loc rest c hr names he =>
    obtain ⟨g, hs, rfl, first, later⟩ := List.map_eq_cons_iff.1 h.symm
    obtain ⟨loc', rfl⟩ := exists_reference_of_bare first
    have found := same name (inside name own loc List.mem_cons_self)
    rw [hr] at found
    obtain ⟨c', hr', _⟩ := Option.map_eq_some_iff.1 found.symm
    rw [expandAll_reference_cyclic hr he, expandAll_reference_cyclic hr' he]
  | case5 trail indent name own loc rest c hr inner he ihInner ihRest =>
    obtain ⟨g, hs, rfl, first, later⟩ := List.map_eq_cons_iff.1 h.symm
    obtain ⟨loc', rfl⟩ := exists_reference_of_bare first
    have reached := inside name own loc List.mem_cons_self
    have found := same name reached
    rw [hr] at found
    obtain ⟨c', hr', bare⟩ := Option.map_eq_some_iff.1 found.symm
    have content : c.content.map Segment.bare = c'.content.map Segment.bare :=
      (congrArg Chunk.content bare).symm
    have expansion := ihInner (fun _ _ _ mem => .step reached hr mem) content
    have rest := ihRest (fun name own loc mem => inside name own loc (List.mem_cons_of_mem _ mem))
      later.symm
    rw [expandAll_reference_outcome hr he, expandAll_reference_outcome hr' he, expansion, rest]

theorem expandName_congr {name : Text} (same : ∀ m, s₁.Reaches name m →
      (s₁.resolve? m).map Chunk.bare = (s₂.resolve? m).map Chunk.bare) :
    (s₁.expandName name).outcome = (s₂.expandName name).outcome := by
  have found := same name .self
  cases hr : s₁.resolve? name with
  | none =>
    rw [hr] at found
    have hr' : s₂.resolve? name = none := Option.map_eq_none_iff.1 found.symm
    rw [expandName, expandName, hr, hr']
  | some c =>
    rw [hr] at found
    obtain ⟨c', hr', bare⟩ := Option.map_eq_some_iff.1 found.symm
    obtain ⟨trail, he, run⟩ := s₁.expand_eq c
    obtain ⟨trail', he', run'⟩ := s₂.expand_eq c'
    have names : c'.bare.name = c.bare.name := congrArg Chunk.name bare
    change c'.name = c.name at names
    obtain rfl : trail = trail' := by
      rw [names] at he'
      exact Except.ok.inj (he.symm.trans he')
    rw [expandName, expandName, hr, hr']
    show (s₁.expand c).outcome = (s₂.expand c').outcome
    rw [run, run']
    have content : c.content.map Segment.bare = c'.content.map Segment.bare :=
      (congrArg Chunk.content bare).symm
    exact expandAll_congr same (fun _ _ _ mem => .step .self hr mem) content

/-- Names that refer to none but themselves are all that is reached from one of them. -/
theorem Reaches.mem {s : Scope} {name m : Text} {names : List Text} (h : s.Reaches name m)
    (start : name ∈ names)
    (closed : ∀ m ∈ names, ∀ n ∈ (s.resolve? m).elim [] Chunk.references, n ∈ names) : m ∈ names := by
  induction h with
  | self => exact start
  | @step m n indent loc c _ hr mem ih =>
    have referred : n ∈ c.references := List.mem_filterMap.2 ⟨_, mem, rfl⟩
    exact closed m ih n (by rw [hr]; exact referred)

end Scope

namespace Document

theorem agreeOn_insert {before extra after : List Chunk} {m : Text} (h : ∀ c ∈ extra, c.name ≠ m)
    (p q : Option Text) : AgreeOn ⟨before ++ after, p⟩ ⟨before ++ extra ++ after, q⟩ m := by
  have none : extra.filter (·.name = m) = [] := by simpa [List.filter_eq_nil_iff] using h
  show ((before ++ after).filter _).map _ = ((before ++ extra ++ after).filter _).map _
  rw [List.filter_append, List.filter_append, List.filter_append, none, List.append_nil]

theorem agreeOn_swap {before xs ys after : List Chunk} {m : Text}
    (h : (∀ c ∈ xs, c.name ≠ m) ∨ ∀ c ∈ ys, c.name ≠ m) (p q : Option Text) :
    AgreeOn ⟨before ++ xs ++ ys ++ after, p⟩ ⟨before ++ ys ++ xs ++ after, q⟩ m := by
  have swapped : xs.filter (·.name = m) ++ ys.filter (·.name = m) =
      ys.filter (·.name = m) ++ xs.filter (·.name = m) := by
    rcases h with h | h
    · have none : xs.filter (·.name = m) = [] := by simpa [List.filter_eq_nil_iff] using h
      rw [none, List.nil_append, List.append_nil]
    · have none : ys.filter (·.name = m) = [] := by simpa [List.filter_eq_nil_iff] using h
      rw [none, List.nil_append, List.append_nil]
  show ((before ++ xs ++ ys ++ after).filter _).map _ = ((before ++ ys ++ xs ++ after).filter _).map _
  simp only [List.filter_append, List.append_assoc]
  rw [← List.append_assoc (xs.filter _), swapped, List.append_assoc]

/-- Two documents that agree on every name reached from a name expand it to the same text or end with
the same fault. So loose text and chunks of names that are not reached can be put in, taken out and
moved, and chunks of different names can change places. -/
theorem expandName_eq_of_agreeOn (policy : Policy) (name : Text) :
    (∀ d₁ d₂ : Document,
      (∀ m, m ≠ [] → (d₁.scope policy).Reaches name m → d₁.AgreeOn d₂ m) →
      ((d₁.scope policy).expandName name).outcome = ((d₂.scope policy).expandName name).outcome) ∧
    (∀ (before extra after : List Chunk) (p q : Option Text),
      (∀ c ∈ extra, c.name ≠ [] →
        ¬(scope ⟨before ++ after, p⟩ policy).Reaches name c.name) ∨
      (∀ c ∈ extra, c.name ≠ [] →
        ¬(scope ⟨before ++ extra ++ after, q⟩ policy).Reaches name c.name) →
      ((scope ⟨before ++ after, p⟩ policy).expandName name).outcome =
        ((scope ⟨before ++ extra ++ after, q⟩ policy).expandName name).outcome) ∧
    (∀ (before xs ys after : List Chunk) (p q : Option Text),
      (∀ a ∈ xs, ∀ b ∈ ys, a.name = b.name → a.name ≠ [] →
        ¬(scope ⟨before ++ xs ++ ys ++ after, p⟩ policy).Reaches name a.name) →
      ((scope ⟨before ++ xs ++ ys ++ after, p⟩ policy).expandName name).outcome =
        ((scope ⟨before ++ ys ++ xs ++ after, q⟩ policy).expandName name).outcome) := by
  have agree (d₁ d₂ : Document)
      (h : ∀ m, m ≠ [] → (d₁.scope policy).Reaches name m → d₁.AgreeOn d₂ m) :
      ((d₁.scope policy).expandName name).outcome = ((d₂.scope policy).expandName name).outcome := by
    apply Scope.expandName_congr
    intro m reached
    exact AgreeOn.resolve? (fun nonempty => h m nonempty reached) policy
  refine ⟨agree, ?_, ?_⟩
  · rintro before extra after p q (unreached | unreached)
    · apply agree
      intro m nonempty reached
      apply agreeOn_insert
      rintro c mem rfl
      exact unreached c mem nonempty reached
    · symm
      apply agree
      intro m nonempty reached
      apply Eq.symm
      apply agreeOn_insert
      rintro c mem rfl
      exact unreached c mem nonempty reached
  · intro before xs ys after p q apart
    apply agree
    intro m nonempty reached
    apply agreeOn_swap
    by_cases first : ∀ c ∈ xs, c.name ≠ m
    · exact Or.inl first
    · obtain ⟨a, ha, rfl⟩ : ∃ a ∈ xs, a.name = m := by simpa using first
      right
      intro b hb same
      exact apart a ha b hb same.symm nonempty reached

/-- A chunk that refers to one with two definitions and to one that is missing. Its fault is the same
with loose text, an unrelated chunk that refers back to it, and all chunks at other places. -/
theorem expandName_eq_of_agreeOn_moved :
    let a : Chunk := { kind := .code, name := ['a']
                       content := [.reference ['b'] [' '] {}, .reference ['c'] [] {}] }
    let b : Chunk := { kind := .code, name := ['b'], content := [.text ['1']] }
    let b' : Chunk := { kind := .code, name := ['b'], content := [.text ['2']], loc := { line := 9 } }
    let x : Chunk := { kind := .doc, name := ['x'], content := [.reference ['a'] [] {}] }
    let w : Chunk := .wrapper (.text ['\n']) {}
    let d₁ : Document := ⟨[a, b, b'], none⟩
    let d₂ : Document := ⟨[w, { b with loc := { line := 4 } }, x, b', a], some ['f']⟩
    (∀ m, m ≠ [] → (d₁.scope .merged).Reaches ['a'] m → d₁.AgreeOn d₂ m) ∧
    ((d₁.scope .merged).expandName ['a']).outcome = .error (.unresolved ['c']) ∧
    ((d₂.scope .merged).expandName ['a']).outcome = .error (.unresolved ['c']) ∧
    ((scope ⟨[a] ++ [w, x] ++ [b, b'], none⟩ .merged).expandName ['a']).outcome =
      .error (.unresolved ['c']) ∧
    ((scope ⟨[] ++ [b] ++ [a] ++ [b'], none⟩ .merged).expandName ['a']).outcome =
      .error (.unresolved ['c']) := by
  intro a b b' x w d₁ d₂
  have reached (m : Text) (h : (d₁.scope .merged).Reaches ['a'] m) : m ∈ [['a'], ['b'], ['c']] :=
    h.mem (by decide) (by decide)
  have agree : ∀ m, m ≠ [] → (d₁.scope .merged).Reaches ['a'] m → d₁.AgreeOn d₂ m := by
    intro m _ h
    have each : ∀ m ∈ [['a'], ['b'], ['c']], d₁.AgreeOn d₂ m := by
      unfold AgreeOn
      decide
    exact each m (reached m h)
  have unrelated : ∀ c ∈ [w, x], c.name ≠ [] → ¬(d₁.scope .merged).Reaches ['a'] c.name := by
    intro c mem nonempty h
    have other : ∀ c ∈ [w, x], c.name ≠ [] → c.name ∉ [['a'], ['b'], ['c']] := by decide
    exact other c mem nonempty (reached _ h)
  have apart : ∀ k ∈ [a], ∀ l ∈ [b], k.name = l.name → k.name ≠ [] →
      ¬(scope ⟨[] ++ [a] ++ [b] ++ [b'], none⟩ .merged).Reaches ['a'] k.name := by
    intro k hk l hl same
    obtain rfl := List.mem_singleton.1 hk
    obtain rfl := List.mem_singleton.1 hl
    exact absurd same (by decide)
  have fault : ((d₁.scope .merged).expandName ['a']).outcome = .error (.unresolved ['c']) := by cbv
  obtain ⟨general, inserted, swapped⟩ := expandName_eq_of_agreeOn .merged ['a']
  exact ⟨agree, fault, (general d₁ d₂ agree).symm.trans fault,
    (inserted [a] [w, x] [b, b'] none none (Or.inl unrelated)).symm.trans fault,
    (swapped [] [a] [b] [b'] none none apart).symm.trans fault⟩

end Document

end Literate
