import Literate.Proofs.Expansion

namespace Literate

namespace Scope

/-- The names along a chain of references: the first is referred to in the segments, and each
later one in what the name before it stands for. -/
inductive Chain (s : Scope) : List Segment → List Text → Prop where
  | last {gs : List Segment} {name indent : Text} {loc : Location} :
      .reference name indent loc ∈ gs → Chain s gs [name]
  | step {gs : List Segment} {name indent : Text} {loc : Location} {c : Chunk} {names : List Text} :
      .reference name indent loc ∈ gs → s.resolve? name = some c → Chain s c.content names →
        Chain s gs (name :: names)

/-- Every chain from the segments resolves, comes to no name twice and to none that is active. -/
def Clear (s : Scope) (trail : Trail) (gs : List Segment) : Prop :=
  ∀ names, s.Chain gs names →
    (∀ n ∈ names, (∃ c, s.resolve? n = some c) ∧ trail.active n = false) ∧ names.Nodup

variable {s : Scope} {trail : Trail}

namespace Chain

/-- More segments have more chains. -/
theorem mono {gs hs : List Segment} {names : List Text} (sub : ∀ g ∈ gs, g ∈ hs)
    (h : s.Chain gs names) : s.Chain hs names := by
  cases h with
  | last mem => exact .last (sub _ mem)
  | step mem hr rest => exact .step (sub _ mem) hr rest

/-- A chain starts from one of the segments. -/
theorem exists_single {gs : List Segment} {names : List Text} (h : s.Chain gs names) :
    ∃ g ∈ gs, s.Chain [g] names := by
  cases h with
  | last mem => exact ⟨_, mem, .last (List.mem_singleton_self _)⟩
  | step mem hr rest => exact ⟨_, mem, .step (List.mem_singleton_self _) hr rest⟩

theorem of_text_cons {t : Text} {gs : List Segment} {names : List Text}
    (h : s.Chain (.text t :: gs) names) : s.Chain gs names := by
  cases h with
  | last mem => exact .last (by simpa using mem)
  | step mem hr rest => exact .step (by simpa using mem) hr rest

/-- A chain starts with the first reference or comes from the segments after it. -/
theorem of_reference_cons {name own : Text} {loc : Location} {gs : List Segment} {names : List Text}
    (h : s.Chain (.reference name own loc :: gs) names) :
    s.Chain gs names ∨ names = [name] ∨
      ∃ c later, s.resolve? name = some c ∧ s.Chain c.content later ∧ names = name :: later := by
  cases h with
  | last mem =>
    rcases List.mem_cons.1 mem with same | mem
    · cases same
      exact Or.inr (Or.inl rfl)
    · exact Or.inl (.last mem)
  | step mem hr rest =>
    rcases List.mem_cons.1 mem with same | mem
    · cases same
      exact Or.inr (Or.inr ⟨_, _, hr, rest, rfl⟩)
    · exact Or.inl (.step mem hr rest)

end Chain

namespace Clear

theorem nil : s.Clear trail [] := by
  intro names h
  cases h with
  | last mem => simp at mem
  | step mem _ _ => simp at mem

theorem mono {gs hs : List Segment} (sub : ∀ g ∈ gs, g ∈ hs) (h : s.Clear trail hs) :
    s.Clear trail gs :=
  fun names chain => h names (chain.mono sub)

/-- Segments are clear if each of them is. -/
theorem iff_each {gs : List Segment} : s.Clear trail gs ↔ ∀ g ∈ gs, s.Clear trail [g] := by
  constructor
  · intro h g mem
    exact h.mono fun g' mem' => by simpa [List.mem_singleton.1 mem'] using mem
  · intro h names chain
    obtain ⟨g, mem, chain⟩ := chain.exists_single
    exact h g mem names chain

theorem text_cons {t : Text} {gs : List Segment} :
    s.Clear trail (.text t :: gs) ↔ s.Clear trail gs := by
  constructor
  · exact mono fun g mem => List.mem_cons_of_mem _ mem
  · exact fun h names chain => h names chain.of_text_cons

theorem of_reference {name own : Text} {loc : Location} {gs : List Segment}
    (h : s.Clear trail (.reference name own loc :: gs)) :
    (∃ c, s.resolve? name = some c) ∧ trail.active name = false := by
  have only := h [name] (.last List.mem_cons_self)
  exact only.1 name (by simp)

/-- To be clear behind a reference is to be clear of its name as well. -/
theorem reference_cons {name own : Text} {loc : Location} {gs : List Segment} {c : Chunk}
    {inner : Trail} (hr : s.resolve? name = some c) (he : trail.enter name = .ok inner) :
    s.Clear trail (.reference name own loc :: gs) ↔
      s.Clear inner c.content ∧ s.Clear trail gs := by
  constructor
  · intro h
    refine ⟨?_, h.mono fun g mem => List.mem_cons_of_mem _ mem⟩
    intro names chain
    obtain ⟨resolved, distinct⟩ := h _ (.step List.mem_cons_self hr chain)
    obtain ⟨fresh, distinct⟩ := List.nodup_cons.1 distinct
    refine ⟨?_, distinct⟩
    intro n mem
    have found := resolved n (List.mem_cons_of_mem _ mem)
    have other : n ≠ name := fun same => fresh (same ▸ mem)
    exact ⟨found.1, by simp [Trail.active_of_enter he, other, found.2]⟩
  · rintro ⟨behind, after⟩ names chain
    have inactive := Trail.not_active_of_enter he
    rcases chain.of_reference_cons with chain | rfl | ⟨c', later, hr', chain, rfl⟩
    · exact after names chain
    · simp [hr, inactive]
    · obtain rfl : c = c' := Option.some.inj (hr.symm.trans hr')
      obtain ⟨resolved, distinct⟩ := behind later chain
      have apart (n : Text) (mem : n ∈ later) : n ≠ name ∧ trail.active n = false := by
        simpa [Trail.active_of_enter he] using (resolved n mem).2
      refine ⟨?_, List.nodup_cons.2 ⟨fun mem => (apart name mem).1 rfl, distinct⟩⟩
      intro n mem
      rcases List.mem_cons.1 mem with rfl | mem
      · exact ⟨⟨c, hr⟩, inactive⟩
      · exact ⟨(resolved n mem).1, (apart n mem).2⟩

end Clear

/-- Expansion under a trail succeeds exactly on segments that are clear of it. -/
theorem expandAll_ok_iff_clear (s : Scope) (trail : Trail) (indent : Text) (gs : List Segment) :
    (∃ out, (s.expandAll trail indent gs).outcome = .ok out) ↔ s.Clear trail gs := by
  induction trail, indent, gs using expandAll.induct s with
  | case1 trail indent => simp [Clear.nil]
  | case2 trail indent t rest ih =>
    rw [Clear.text_cons, ← ih]
    simp only [expandAll_text_outcome_ok]
    constructor
    · rintro ⟨_, later, h, _⟩
      exact ⟨later, h⟩
    · rintro ⟨later, h⟩
      exact ⟨_, later, h, rfl⟩
  | case3 trail indent name own loc rest hr =>
    simp only [expandAll_reference_outcome_ok]
    constructor
    · rintro ⟨_, c, _, _, _, found, _⟩
      simp [hr] at found
    · intro clear
      obtain ⟨⟨c, found⟩, _⟩ := clear.of_reference
      simp [hr] at found
  | case4 trail indent name own loc rest c hr names he =>
    have active := (Trail.of_enter_error he).1
    simp only [expandAll_reference_outcome_ok]
    constructor
    · rintro ⟨_, _, inner, _, _, _, entered, _⟩
      simp [he] at entered
    · intro clear
      have inactive := clear.of_reference.2
      simp [active] at inactive
  | case5 trail indent name own loc rest c hr inner he ihInner ihRest =>
    rw [Clear.reference_cons hr he, ← ihInner, ← ihRest]
    simp only [expandAll_reference_outcome_ok]
    constructor
    · rintro ⟨_, c', inner', expansion, later, hr', he', hx, hl, _⟩
      obtain rfl : c = c' := Option.some.inj (hr.symm.trans hr')
      obtain rfl : inner = inner' := Except.ok.inj (he.symm.trans he')
      exact ⟨⟨expansion, hx⟩, later, hl⟩
    · rintro ⟨⟨expansion, hx⟩, later, hl⟩
      exact ⟨_, c, inner, expansion, later, hr, he, hx, hl, rfl⟩

theorem expand_ok_iff_clear (s : Scope) (c : Chunk) {trail : Trail}
    (he : ({} : Trail).enter c.name = .ok trail) :
    (∃ text, (s.expand c).outcome = .ok text) ↔ s.Clear trail c.content := by
  obtain ⟨trail', he', expand⟩ := s.expand_eq c
  obtain rfl : trail = trail' := Except.ok.inj (he.symm.trans he')
  rw [expand, expandAll_ok_iff_clear]

/-- Clear of a trail that holds one name: no chain comes back to it. -/
theorem clear_alone_iff {name : Text} {gs : List Segment}
    (he : ({} : Trail).enter name = .ok trail) :
    s.Clear trail gs ↔ ∀ names, s.Chain gs names →
      (∀ n ∈ names, ∃ c, s.resolve? n = some c) ∧ (name :: names).Nodup := by
  have alone (n : Text) : trail.active n = false ↔ n ≠ name := by
    simp [Trail.active_of_enter he]
  constructor
  · intro clear names chain
    obtain ⟨resolved, distinct⟩ := clear names chain
    refine ⟨fun n mem => (resolved n mem).1, List.nodup_cons.2 ⟨?_, distinct⟩⟩
    intro mem
    exact (alone name).1 (resolved name mem).2 rfl
  · intro h names chain
    obtain ⟨resolved, distinct⟩ := h names chain
    obtain ⟨fresh, distinct⟩ := List.nodup_cons.1 distinct
    refine ⟨?_, distinct⟩
    intro n mem
    exact ⟨resolved n mem, (alone n).2 fun same => fresh (same ▸ mem)⟩

/-- A chunk has an expansion exactly if along every chain of references from it every name resolves
and none comes twice, its own name counted. So branches do not get in each other's way: it is enough
that each segment has an expansion in its place, whatever names they share. -/
theorem expand_ok_iff_chains (d : Document) (policy : Policy) (c : Chunk) :
    ((∃ text, ((d.scope policy).expand c).outcome = .ok text) ↔
      ∀ names, (d.scope policy).Chain c.content names →
        (∀ n ∈ names, ∃ t, (d.scope policy).resolve? n = some t) ∧ (c.name :: names).Nodup) ∧
    ((∃ text, ((d.scope policy).expand c).outcome = .ok text) ↔
      ∀ g ∈ c.content, ∃ text,
        ((d.scope policy).expand { c with content := [g] }).outcome = .ok text) := by
  obtain ⟨trail, he, _⟩ := (d.scope policy).expand_eq c
  constructor
  · rw [expand_ok_iff_clear _ c he, clear_alone_iff he]
  · rw [expand_ok_iff_clear _ c he, Clear.iff_each]
    constructor
    · intro h g mem
      exact (expand_ok_iff_clear _ { c with content := [g] } he).2 (h g mem)
    · intro h g mem
      exact (expand_ok_iff_clear _ { c with content := [g] } he).1 (h g mem)

end Scope

end Literate
