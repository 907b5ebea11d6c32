import Literate.Expansion

namespace Literate

namespace Document

/-- A chunk is found under its own name, which is not empty. -/
theorem name_of_first? {d : Document} {name : Text} {c : Chunk} (h : d.first? name = some c) :
    c ∈ d.chunks ∧ c.name = name ∧ name ≠ [] := by
  unfold first? at h
  split at h
  · simp at h
  · rename_i nonempty
    have found := List.find?_some h
    exact ⟨List.mem_of_find?_eq_some h, by simpa using found, by simpa using nonempty⟩

end Document

namespace Table

theorem name_of_get? {t : Table} {name : Text} {c : Chunk} (h : t.get? name = some c) :
    c ∈ t.chunks ∧ c.name = name := by
  obtain ⟨e, he, rfl⟩ := Option.map_eq_some_iff.1 h
  have found := List.find?_some he
  exact ⟨List.mem_map.2 ⟨e, List.mem_of_find?_eq_some he, rfl⟩, by simpa using found⟩

end Table

namespace Trail

/-- A name that cannot be entered is active, and closes the cycle that is returned. -/
theorem of_enter_error {t : Trail} {name : Text} {names : List Text}
    (h : t.enter name = .error names) :
    t.active name = true ∧
      names = t.stack.drop ((t.stack.findIdx? (· == name)).getD 0) ++ [name] := by
  unfold enter at h
  split at h
  · rename_i active
    exact ⟨active, (Except.error.inj h).symm⟩
  · simp at h

theorem exists_enter {t : Trail} {name : Text} (h : t.active name = false) :
    ∃ inner, t.enter name = .ok inner := by
  have inactive : ¬t.active name = true := by simp [h]
  unfold enter
  rw [dif_neg inactive]
  exact ⟨_, rfl⟩

end Trail

namespace Scope

variable {s : Scope}

/-- A name stands for a chunk of the document or of the table that has this name. -/
theorem mem_of_resolve? {name : Text} {c : Chunk} (h : s.resolve? name = some c) :
    (c ∈ s.document.chunks ∨ c ∈ s.table.chunks) ∧ c.name = name := by
  unfold resolve? at h
  split at h
  · rcases Option.or_eq_some_iff.1 h with h | ⟨_, h⟩
    · have found := Table.name_of_get? h
      exact ⟨Or.inr found.1, found.2⟩
    · have found := Document.name_of_first? h
      exact ⟨Or.inl found.1, found.2.1⟩
  · have found := Document.name_of_first? h
    exact ⟨Or.inl found.1, found.2.1⟩

/-- An expansion starts on a trail that holds the name of its own chunk and nothing else. -/
theorem expand_eq (s : Scope) (c : Chunk) :
    ∃ trail, ({} : Trail).enter c.name = .ok trail ∧ s.expand c = s.expandAll trail [] c.content :=
  ⟨_, rfl, rfl⟩

@[simp] theorem expandAll_nil_outcome (trail : Trail) (indent : Text) :
    (s.expandAll trail indent []).outcome = .ok [] := by
  rw [expandAll]
  rfl

theorem expandAll_text_outcome (trail : Trail) (indent t : Text) (rest : List Segment) :
    (s.expandAll trail indent (.text t :: rest)).outcome =
      (s.expandAll trail indent rest).outcome >>= fun later =>
        .ok (Text.indentLines indent t ++ later) := by
  rw [expandAll, Traced.outcome_bind]
  rfl

/-- A name is looked up before it is entered. -/
theorem expandAll_unresolved {name : Text} (hr : s.resolve? name = none) (trail : Trail)
    (indent own : Text) (loc : Location) (rest : List Segment) :
    s.expandAll trail indent (.reference name own loc :: rest) = .fail (.unresolved name) := by
  rw [expandAll]
  split
  · rfl
  · simp_all

theorem expandAll_cyclic {trail : Trail} {name : Text} {c : Chunk} {names : List Text}
    (hr : s.resolve? name = some c) (he : trail.enter name = .error names) (indent own : Text)
    (loc : Location) (rest : List Segment) :
    s.expandAll trail indent (.reference name own loc :: rest) = .fail (.cyclic names) := by
  rw [expandAll]
  split
  · simp_all
  · split
    · simp_all
    · simp_all

theorem expandAll_reference {trail inner : Trail} {name : Text} {c : Chunk}
    (hr : s.resolve? name = some c) (he : trail.enter name = .ok inner) (indent own : Text)
    (loc : Location) (rest : List Segment) :
    s.expandAll trail indent (.reference name own loc :: rest) = (do
      .report (.expanding name loc inner.depth)
      let expansion ← s.expandAll inner (indent ++ own) c.content
      let later ← s.expandAll trail indent rest
      return own ++ expansion ++ later) := by
  rw [expandAll]
  split
  · simp_all
  · rename_i c' hr'
    obtain rfl : c = c' := Option.some.inj (hr.symm.trans hr')
    split
    · simp_all
    · rename_i inner' he'
      obtain rfl : inner = inner' := Except.ok.inj (he.symm.trans he')
      rfl

theorem expandAll_reference_unresolved {name : Text} (hr : s.resolve? name = none) (trail : Trail)
    (indent own : Text) (loc : Location) (rest : List Segment) :
    (s.expandAll trail indent (.reference name own loc :: rest)).outcome =
      .error (.unresolved name) := by
  rw [expandAll_unresolved hr, Traced.outcome_fail]

theorem expandAll_reference_cyclic {trail : Trail} {name : Text} {c : Chunk} {names : List Text}
    (hr : s.resolve? name = some c) (he : trail.enter name = .error names) (indent own : Text)
    (loc : Location) (rest : List Segment) :
    (s.expandAll trail indent (.reference name own loc :: rest)).outcome =
      .error (.cyclic names) := by
  rw [expandAll_cyclic hr he, Traced.outcome_fail]

theorem expandAll_reference_outcome {trail inner : Trail} {name : Text} {c : Chunk}
    (hr : s.resolve? name = some c) (he : trail.enter name = .ok inner) (indent own : Text)
    (loc : Location) (rest : List Segment) :
    (s.expandAll trail indent (.reference name own loc :: rest)).outcome =
      (s.expandAll inner (indent ++ own) c.content).outcome >>= fun expansion =>
        (s.expandAll trail indent rest).outcome >>= fun later =>
          .ok (own ++ expansion ++ later) := by
  rw [expandAll_reference hr he]
  simp only [Traced.outcome_bind, Traced.outcome_report, Traced.outcome_pure]
  rfl

theorem expandAll_text_outcome_ok {trail : Trail} {indent t out : Text} {rest : List Segment} :
    (s.expandAll trail indent (.text t :: rest)).outcome = .ok out ↔
      ∃ later, (s.expandAll trail indent rest).outcome = .ok later ∧
        out = Text.indentLines indent t ++ later := by
  rw [expandAll_text_outcome]
  cases h : (s.expandAll trail indent rest).outcome with
  | error e => simp [bind, Except.bind]
  | ok later => simp [bind, Except.bind, eq_comm]

theorem expandAll_text_outcome_error {trail : Trail} {indent t : Text} {rest : List Segment}
    {e : Fault} :
    (s.expandAll trail indent (.text t :: rest)).outcome = .error e ↔
      (s.expandAll trail indent rest).outcome = .error e := by
  rw [expandAll_text_outcome]
  cases (s.expandAll trail indent rest).outcome with
  | error e => simp [bind, Except.bind]
  | ok later => simp [bind, Except.bind]

/-- A reference that can be resolved and entered fails with the fault of what it stands for, or
else with that of what follows it. -/
theorem expandAll_reference_outcome_error {trail inner : Trail} {indent name own : Text}
    {loc : Location} {rest : List Segment} {c : Chunk} {e : Fault}
    (hr : s.resolve? name = some c) (he : trail.enter name = .ok inner) :
    (s.expandAll trail indent (.reference name own loc :: rest)).outcome = .error e ↔
      (s.expandAll inner (indent ++ own) c.content).outcome = .error e ∨
      ∃ expansion, (s.expandAll inner (indent ++ own) c.content).outcome = .ok expansion ∧
        (s.expandAll trail indent rest).outcome = .error e := by
  rw [expandAll_reference_outcome hr he]
  cases (s.expandAll inner (indent ++ own) c.content).outcome with
  | error e => simp [bind, Except.bind]
  | ok expansion =>
    cases (s.expandAll trail indent rest).outcome with
    | error e => simp [bind, Except.bind]
    | ok later => simp [bind, Except.bind]

/-- A reference succeeds if it can be resolved and entered, and both what it stands for and what
follows it succeed. -/
theorem expandAll_reference_outcome_ok {trail : Trail} {indent name own out : Text}
    {loc : Location} {rest : List Segment} :
    (s.expandAll trail indent (.reference name own loc :: rest)).outcome = .ok out ↔
      ∃ c inner expansion later, s.resolve? name = some c ∧ trail.enter name = .ok inner ∧
        (s.expandAll inner (indent ++ own) c.content).outcome = .ok expansion ∧
        (s.expandAll trail indent rest).outcome = .ok later ∧
        out = own ++ expansion ++ later := by
  cases hr : s.resolve? name with
  | none => simp [expandAll_reference_unresolved hr]
  | some c =>
    cases he : trail.enter name with
    | error names => simp [expandAll_reference_cyclic hr he]
    | ok inner =>
      rw [expandAll_reference_outcome hr he]
      cases hx : (s.expandAll inner (indent ++ own) c.content).outcome with
      | error e => simp_all [bind, Except.bind]
      | ok expansion =>
        cases hl : (s.expandAll trail indent rest).outcome with
        | error e => simp_all [bind, Except.bind]
        | ok later =>
          simp_all [bind, Except.bind]
          exact eq_comm

end Scope

end Literate
