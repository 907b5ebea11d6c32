import Mathlib.Data.List.Perm.Subperm
import Mathlib.Logic.Relation
import Literate.Proofs.Summaries
import Literate.Proofs.Trails

namespace Literate

namespace Traced

variable {α β : Type} {x : Traced α}

theorem bind_of_ok {a : α} (h : x.outcome = .ok a) (f : α → Traced β) :
    x >>= f = ⟨x.events ++ (f a).events, (f a).outcome⟩ := by
  show Traced.bind x f = _
  rw [Traced.bind, h]

theorem bind_of_error {e : Fault} (h : x.outcome = .error e) (f : α → Traced β) :
    x >>= f = ⟨x.events, .error e⟩ := by
  show Traced.bind x f = _
  rw [Traced.bind, h]

end Traced

/-- A moment of an expansion. Each frame is what is left of a content and the indent of its lines,
innermost first. -/
structure Moment where
  trail : Trail
  frames : List (Text × List Segment)
  text : Text := []
  events : List Event := []

/-- Where an expansion begins, once its own name is entered. -/
def Moment.start (trail : Trail) (c : Chunk) : Moment := { trail, frames := [([], c.content)] }

namespace Scope

variable {s : Scope}

/-- The next moment, or how the expansion ends. -/
def next (s : Scope) (m : Moment) : Moment ⊕ Traced Text :=
  match m.frames with
  | [] => .inr ⟨m.events, .ok m.text⟩
  | (_, []) :: frames => .inl { m with trail := m.trail.exit, frames }
  | (indent, .text t :: rest) :: frames =>
    .inl { m with frames := (indent, rest) :: frames, text := m.text ++ Text.indentLines indent t }
  | (indent, .reference name own loc :: rest) :: frames =>
    match s.resolve? name with
    | none => .inr ⟨m.events, .error (.unresolved name)⟩
    | some c =>
      match m.trail.enter name with
      | .error names => .inr ⟨m.events, .error (.cyclic names)⟩
      | .ok inner =>
        .inl ⟨inner, (indent ++ own, c.content) :: (indent, rest) :: frames, m.text ++ own,
          m.events ++ [.expanding name loc inner.depth]⟩

def Goes (s : Scope) (m m' : Moment) : Prop := s.next m = .inl m'

/-- The moments that come after a moment, itself included. -/
def Run (s : Scope) : Moment → Moment → Prop := Relation.ReflTransGen s.Goes

/-- The moments from this one on come to an end. -/
def Ends (s : Scope) (m : Moment) (x : Traced Text) : Prop :=
  ∃ last, s.Run m last ∧ s.next last = .inr x

theorem Ends.of_run {m m' : Moment} {x : Traced Text} (h : s.Run m m') (he : s.Ends m' x) :
    s.Ends m x := by
  obtain ⟨last, run, ends⟩ := he
  exact ⟨last, h.trans run, ends⟩

/-- What a step does to the trail and to the reports. -/
theorem Goes.trail {m m' : Moment} (h : s.Goes m m') :
    (m'.trail = m.trail.exit ∨ m'.trail = m.trail) ∧ m'.events = m.events ∨
    ∃ name c loc, s.resolve? name = some c ∧ m.trail.enter name = .ok m'.trail ∧
      m'.events = m.events ++ [.expanding name loc m'.trail.depth] := by
  unfold Goes next at h
  split at h
  · simp at h
  · obtain rfl := Sum.inl.inj h
    exact Or.inl ⟨Or.inl rfl, rfl⟩
  · obtain rfl := Sum.inl.inj h
    exact Or.inl ⟨Or.inr rfl, rfl⟩
  · rename_i name own loc rest frames _
    split at h
    · simp at h
    · rename_i c hr
      split at h
      · simp at h
      · rename_i inner he
        obtain rfl := Sum.inl.inj h
        exact Or.inr ⟨name, c, loc, hr, he, rfl⟩

/-- An expansion ends with a text, or with one of two faults. -/
theorem outcome_of_next {m : Moment} {x : Traced Text} (h : s.next m = .inr x) :
    x.events = m.events ∧ ((∃ text, x.outcome = .ok text) ∨
      (∃ name, x.outcome = .error (.unresolved name)) ∨
      ∃ names, x.outcome = .error (.cyclic names)) := by
  unfold next at h
  split at h
  · obtain rfl := Sum.inr.inj h
    exact ⟨rfl, Or.inl ⟨_, rfl⟩⟩
  · simp at h
  · simp at h
  · split at h
    · obtain rfl := Sum.inr.inj h
      exact ⟨rfl, Or.inr (Or.inl ⟨_, rfl⟩)⟩
    · split at h
      · obtain rfl := Sum.inr.inj h
        exact ⟨rfl, Or.inr (Or.inr ⟨_, rfl⟩)⟩
      · simp at h

section Steps

variable {trail inner : Trail} {name : Text} {c : Chunk}

theorem goes_exit (indent : Text) (frames : List (Text × List Segment)) (text : Text)
    (events : List Event) :
    s.Goes ⟨trail, (indent, []) :: frames, text, events⟩ ⟨trail.exit, frames, text, events⟩ := rfl

theorem goes_text (indent t : Text) (rest : List Segment) (frames : List (Text × List Segment))
    (text : Text) (events : List Event) :
    s.Goes ⟨trail, (indent, .text t :: rest) :: frames, text, events⟩
      ⟨trail, (indent, rest) :: frames, text ++ Text.indentLines indent t, events⟩ := rfl

theorem goes_reference (hr : s.resolve? name = some c) (he : trail.enter name = .ok inner)
    (indent own : Text) (loc : Location) (rest : List Segment) (frames : List (Text × List Segment))
    (text : Text) (events : List Event) :
    s.Goes ⟨trail, (indent, .reference name own loc :: rest) :: frames, text, events⟩
      ⟨inner, (indent ++ own, c.content) :: (indent, rest) :: frames, text ++ own,
        events ++ [.expanding name loc inner.depth]⟩ := by
  simp only [Goes, next, hr, he]

theorem expandAll_text_events (indent t : Text) (rest : List Segment) :
    (s.expandAll trail indent (.text t :: rest)).events = (s.expandAll trail indent rest).events := by
  rw [expandAll]
  cases h : (s.expandAll trail indent rest).outcome with
  | error e => rw [Traced.bind_of_error h]
  | ok later =>
    rw [Traced.bind_of_ok h]
    exact List.append_nil _

theorem expandAll_events_of_inner_error {indent own : Text} {e : Fault}
    (hr : s.resolve? name = some c) (he : trail.enter name = .ok inner)
    (hx : (s.expandAll inner (indent ++ own) c.content).outcome = .error e) (loc : Location)
    (rest : List Segment) :
    (s.expandAll trail indent (.reference name own loc :: rest)).events =
      .expanding name loc inner.depth :: (s.expandAll inner (indent ++ own) c.content).events := by
  rw [expandAll_reference hr he, Traced.bind_of_ok (Traced.outcome_report _), Traced.bind_of_error hx]
  rfl

theorem expandAll_events_of_inner_ok {indent own x : Text} (hr : s.resolve? name = some c)
    (he : trail.enter name = .ok inner)
    (hx : (s.expandAll inner (indent ++ own) c.content).outcome = .ok x) (loc : Location)
    (rest : List Segment) :
    (s.expandAll trail indent (.reference name own loc :: rest)).events =
      .expanding name loc inner.depth :: ((s.expandAll inner (indent ++ own) c.content).events ++
        (s.expandAll trail indent rest).events) := by
  rw [expandAll_reference hr he, Traced.bind_of_ok (Traced.outcome_report _), Traced.bind_of_ok hx]
  cases h : (s.expandAll trail indent rest).outcome with
  | error e =>
    rw [Traced.bind_of_error h]
    rfl
  | ok later =>
    rw [Traced.bind_of_ok h]
    show _ :: (_ ++ (_ ++ [])) = _
    rw [List.append_nil]

end Steps

/-- The frame in front is used up, and its expansion is added to the text. -/
theorem run_expandAll {trail : Trail} {indent out : Text} {gs : List Segment}
    (h : (s.expandAll trail indent gs).outcome = .ok out) (frames : List (Text × List Segment))
    (text : Text) (events : List Event) :
    s.Run ⟨trail, (indent, gs) :: frames, text, events⟩
      ⟨trail, (indent, []) :: frames, text ++ out,
        events ++ (s.expandAll trail indent gs).events⟩ := by
  induction trail, indent, gs using expandAll.induct s generalizing out frames text events with
  | case1 trail indent =>
    rw [expandAll_nil_outcome] at h
    obtain rfl := Except.ok.inj h
    have silent : (s.expandAll trail indent []).events = [] := by
      rw [expandAll]
      rfl
    rw [silent, List.append_nil, List.append_nil]
    exact .refl
  | case2 trail indent t rest ih =>
    obtain ⟨later, hl, rfl⟩ := expandAll_text_outcome_ok.1 h
    rw [expandAll_text_events, ← List.append_assoc]
    exact .head (goes_text ..) (ih hl _ _ _)
  | case3 trail indent name own loc rest hr =>
    rw [expandAll_reference_unresolved hr] at h
    simp at h
  | case4 trail indent name own loc rest c hr names he =>
    rw [expandAll_reference_cyclic hr he] at h
    simp at h
  | case5 trail indent name own loc rest c hr inner he ihInner ihRest =>
    obtain ⟨c', inner', x, later, hr', he', hx, hl, rfl⟩ := expandAll_reference_outcome_ok.1 h
    obtain rfl : c = c' := Option.some.inj (hr.symm.trans hr')
    obtain rfl : inner = inner' := Except.ok.inj (he.symm.trans he')
    have entered := goes_reference hr he indent own loc rest frames text events
    have inside := (ihInner hx ((indent, rest) :: frames) (text ++ own)
      (events ++ [.expanding name loc inner.depth])).tail (goes_exit ..)
    rw [Trail.exit_of_enter he] at inside
    have all := (inside.head entered).trans (ihRest hl _ _ _)
    rw [expandAll_events_of_inner_ok hr he hx]
    simpa [Run] using all

/-- The moments end with the fault of the frame in front, if its expansion has one. -/
theorem ends_expandAll {trail : Trail} {indent : Text} {gs : List Segment} {e : Fault}
    (h : (s.expandAll trail indent gs).outcome = .error e) (frames : List (Text × List Segment))
    (text : Text) (events : List Event) :
    s.Ends ⟨trail, (indent, gs) :: frames, text, events⟩
      ⟨events ++ (s.expandAll trail indent gs).events, .error e⟩ := by
  induction trail, indent, gs using expandAll.induct s generalizing frames text events with
  | case1 trail indent => simp at h
  | case2 trail indent t rest ih =>
    rw [expandAll_text_events]
    exact (ih (expandAll_text_outcome_error.1 h) _ _ _).of_run (.single (goes_text ..))
  | case3 trail indent name own loc rest hr =>
    rw [expandAll_reference_unresolved hr] at h
    obtain rfl := Except.error.inj h
    refine ⟨_, .refl, ?_⟩
    simp only [next, hr, expandAll_unresolved hr, Traced.fail, List.append_nil]
  | case4 trail indent name own loc rest c hr names he =>
    rw [expandAll_reference_cyclic hr he] at h
    obtain rfl := Except.error.inj h
    refine ⟨_, .refl, ?_⟩
    simp only [next, hr, he, expandAll_cyclic hr he, Traced.fail, List.append_nil]
  | case5 trail indent name own loc rest c hr inner he ihInner ihRest =>
    have entered := goes_reference hr he indent own loc rest frames text events
    rcases (expandAll_reference_outcome_error hr he).1 h with hx | ⟨x, hx, hl⟩
    · have all := (ihInner hx ((indent, rest) :: frames) (text ++ own)
        (events ++ [.expanding name loc inner.depth])).of_run (.single entered)
      rw [expandAll_events_of_inner_error hr he hx]
      simpa using all
    · have inside := (run_expandAll hx ((indent, rest) :: frames) (text ++ own)
        (events ++ [.expanding name loc inner.depth])).tail (goes_exit ..)
      rw [Trail.exit_of_enter he] at inside
      have all := (ihRest hl frames _ _).of_run (.head entered inside)
      rw [expandAll_events_of_inner_ok hr he hx]
      simpa using all

theorem ends_expand {c : Chunk} {trail : Trail} (he : ({} : Trail).enter c.name = .ok trail) :
    s.Ends (.start trail c) (s.expand c) := by
  obtain ⟨trail', he', whole⟩ := s.expand_eq c
  obtain rfl : trail = trail' := Except.ok.inj (he.symm.trans he')
  rw [whole]
  cases h : (s.expandAll trail [] c.content).outcome with
  | error e =>
    have ends := ends_expandAll h [] [] []
    rw [← h] at ends
    exact ends
  | ok out =>
    refine ⟨_, (run_expandAll h [] [] []).tail (goes_exit ..), ?_⟩
    show Sum.inr (Traced.mk (s.expandAll trail [] c.content).events (.ok out)) = _
    rw [← h]

/-- There is one way to go on, so that every moment on the way comes to the same end. -/
theorem Ends.of_ends {m m' : Moment} {x : Traced Text} (h : s.Ends m x) (run : s.Run m m') :
    s.Ends m' x := by
  obtain ⟨last, toLast, ends⟩ := h
  have unique : Relator.RightUnique s.Goes := fun _ _ _ one other =>
    Sum.inl.inj (Eq.trans (Eq.symm one) other)
  rcases Relation.ReflTransGen.total_of_right_unique unique run toLast with before | after
  · exact ⟨last, before, ends⟩
  · rcases after.cases_head with rfl | ⟨_, goes, _⟩
    · exact ⟨last, .refl, ends⟩
    · exact absurd (Eq.trans (Eq.symm ends) goes) (by simp)

/-- Below the first place on the trail is nothing that does not resolve. -/
def Resolved (s : Scope) (m : Moment) : Prop :=
  ∀ n ∈ m.trail.stack.tail, ∃ c, s.resolve? n = some c

theorem Resolved.goes {m m' : Moment} (h : s.Resolved m) (goes : s.Goes m m') : s.Resolved m' := by
  intro n hn
  rcases goes.trail with ⟨left | kept, _⟩ | ⟨name, c, _, hr, he, _⟩
  · rw [left, Trail.exit, List.tail_dropLast] at hn
    exact h n (List.dropLast_subset _ hn)
  · exact h n (kept ▸ hn)
  · rw [Trail.stack_of_enter he] at hn
    cases hs : m.trail.stack with
    | nil => simp [hs] at hn
    | cons first rest =>
      rw [hs, List.cons_append, List.tail_cons, List.mem_append, List.mem_singleton] at hn
      rcases hn with old | rfl
      · exact h n (by rwa [hs])
      · exact ⟨c, hr⟩

theorem Resolved.run {m m' : Moment} (h : s.Resolved m) (run : s.Run m m') : s.Resolved m' := by
  induction run with
  | refl => exact h
  | tail _ goes ih => exact ih.goes goes

theorem resolved_start {c : Chunk} {trail : Trail} (he : ({} : Trail).enter c.name = .ok trail) :
    s.Resolved (.start trail c) := by
  intro n hn
  have alone : trail.stack = [c.name] := Trail.stack_of_enter he
  simp [Moment.start, alone] at hn

/-- A depth that is reported is that of a moment on the way. -/
theorem exists_run_of_report {m m' : Moment} (run : s.Run m m') {name : Text} {loc : Location}
    {depth : Nat} (h : .expanding name loc depth ∈ m'.events) :
    .expanding name loc depth ∈ m.events ∨ ∃ k, s.Run m k ∧ k.trail.depth = depth := by
  induction run with
  | refl => exact Or.inl h
  | @tail k m' run goes ih =>
    rcases goes.trail with ⟨_, same⟩ | ⟨_, _, _, _, _, more⟩
    · exact ih (same ▸ h)
    · rw [more, List.mem_append, List.mem_singleton] at h
      rcases h with old | new
      · exact ih old
      · exact Or.inr ⟨m', run.tail goes, (Event.expanding.inj new).2.2.symm⟩

end Scope

namespace Document

variable (d : Document) (policy : Policy)

/-- The names of the chunks, each once. Loose text has none. -/
def names : List Text := distinct ((d.chunks.map (·.name)).filter (· ≠ []))

theorem mem_names_of_resolve? {name : Text} {c : Chunk}
    (h : (d.scope policy).resolve? name = some c) : name ∈ d.names := by
  have found : ((d.scope policy).resolve? name).isSome = true := by rw [h, Option.isSome_some]
  obtain ⟨nonempty, k, inside, rfl⟩ := (resolve?_isSome_iff policy).1 found
  rw [names, mem_distinct]
  exact List.mem_filter.2 ⟨List.mem_map_of_mem inside, by simpa using nonempty⟩

/-- All but the first name on a trail are names of the document, each once. -/
theorem depth_le {m : Moment} (h : (d.scope policy).Resolved m) :
    m.trail.depth ≤ d.names.length + 1 := by
  have inside : m.trail.stack.tail ⊆ d.names := by
    intro n hn
    obtain ⟨c, hr⟩ := h n hn
    exact d.mem_names_of_resolve? policy hr
  have fewer : m.trail.stack.tail.length ≤ d.names.length :=
    (List.subperm_of_subset m.trail.nodup.tail inside).length_le
  rw [List.length_tail] at fewer
  unfold Trail.depth
  omega

/-- Whatever refers to what, an expansion ends: from each moment that it comes to it goes on to its
outcome, a text or one of two faults. At each of these moments, and so wherever it reports a depth,
at most one name more is being expanded than the document has. -/
theorem expand_ends (c : Chunk) :
    ∃ trail, ({} : Trail).enter c.name = .ok trail ∧
    (∀ m, (d.scope policy).Run (.start trail c) m →
      (d.scope policy).Ends m ((d.scope policy).expand c) ∧
      m.trail.depth ≤ d.names.length + 1) ∧
    ((∃ text, ((d.scope policy).expand c).outcome = .ok text) ∨
      (∃ name, ((d.scope policy).expand c).outcome = .error (.unresolved name)) ∨
      ∃ names, ((d.scope policy).expand c).outcome = .error (.cyclic names)) ∧
    ∀ name loc depth, .expanding name loc depth ∈ ((d.scope policy).expand c).events →
      depth ≤ d.names.length + 1 := by
  obtain ⟨trail, he, _⟩ := (d.scope policy).expand_eq c
  have ends := (d.scope policy).ends_expand he
  have bound (m : Moment) (run : (d.scope policy).Run (.start trail c) m) :
      m.trail.depth ≤ d.names.length + 1 := d.depth_le policy ((Scope.resolved_start he).run run)
  refine ⟨trail, he, fun m run => ⟨ends.of_ends run, bound m run⟩, ?_⟩
  obtain ⟨last, run, final⟩ := ends
  obtain ⟨events, outcome⟩ := Scope.outcome_of_next final
  refine ⟨outcome, ?_⟩
  intro name loc depth reported
  rw [events] at reported
  rcases Scope.exists_run_of_report run reported with old | ⟨m, run, rfl⟩
  · simp [Moment.start] at old
  · exact bound m run

-- The bound is reached from loose text, which has no name of its own.
example :
    let a : Chunk := { kind := .code, name := ['a'], content := [.reference ['b'] [] {}] }
    let b : Chunk := { kind := .doc, name := ['b'], content := [.reference ['a'] [] {}] }
    let loose : Chunk := .wrapper (.reference ['a'] [] {}) {}
    let d : Document := ⟨[loose, a, b], none⟩
    d.names.length = 2 ∧ ((d.scope .merged).expand loose).events =
      [.expanding ['a'] {} 2, .expanding ['b'] {} 3] := by
  intro a b loose d
  exact ⟨by decide, by cbv⟩

end Document

end Literate
