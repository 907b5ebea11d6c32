import Mathlib.Data.List.Permutation
import Literate.Proofs.Locality
import Literate.Selection

namespace Literate

namespace Scope

variable {s₁ s₂ : Scope}

/-- What a name stands for has the same content in both scopes, or there is nothing in either. -/
def SameContents (s₁ s₂ : Scope) : Prop :=
  ∀ name, (s₁.resolve? name).map Chunk.content = (s₂.resolve? name).map Chunk.content

theorem SameContents.none (h : SameContents s₁ s₂) {name : Text} (hr : s₁.resolve? name = none) :
    s₂.resolve? name = none := by
  have same := h name
  rw [hr] at same
  exact Option.map_eq_none_iff.1 same.symm

theorem SameContents.some (h : SameContents s₁ s₂) {name : Text} {c : Chunk}
    (hr : s₁.resolve? name = some c) :
    ∃ c', s₂.resolve? name = some c' ∧ c'.content = c.content := by
  have same := h name
  rw [hr] at same
  exact Option.map_eq_some_iff.1 same.symm

/-- Of the chunks that references stand for an expansion uses nothing but the contents. -/
theorem SameContents.expandAll_eq (h : SameContents s₁ s₂) (trail : Trail) (indent : Text)
    (gs : List Segment) : s₁.expandAll trail indent gs = s₂.expandAll trail indent gs := by
  induction trail, indent, gs using expandAll.induct s₁ with
  | case1 trail indent => rw [expandAll, expandAll]
  | case2 trail indent t rest ih => rw [expandAll, expandAll, ih]
  | case3 trail indent name own loc rest hr =>
    rw [expandAll_unresolved hr, expandAll_unresolved (h.none hr)]
  | case4 trail indent name own loc rest c hr names he =>
    obtain ⟨c', hr', _⟩ := h.some hr
    rw [expandAll_cyclic hr he, expandAll_cyclic hr' he]
  | case5 trail indent name own loc rest c hr inner he ihInner ihRest =>
    obtain ⟨c', hr', content⟩ := h.some hr
    rw [expandAll_reference hr he, expandAll_reference hr' he, content, ihInner, ihRest]

theorem SameContents.expand_eq (h : SameContents s₁ s₂) {c c' : Chunk} (name : c.name = c'.name)
    (content : c.content = c'.content) : s₁.expand c = s₂.expand c' := by
  obtain ⟨trail, he, run⟩ := Scope.expand_eq s₁ c
  obtain ⟨trail', he', run'⟩ := Scope.expand_eq s₂ c'
  obtain rfl : trail = trail' := by
    rw [name] at he
    exact Except.ok.inj (he.symm.trans he')
  rw [run, run', content]
  exact h.expandAll_eq trail [] c'.content

theorem SameContents.expandName_eq (h : SameContents s₁ s₂) (name : Text) :
    s₁.expandName name = s₂.expandName name := by
  cases hr : s₁.resolve? name with
  | none => rw [expandName, expandName, hr, h.none hr]
  | some c =>
    obtain ⟨c', hr', content⟩ := h.some hr
    have named : c.name = c'.name := (mem_of_resolve? hr).2.trans (mem_of_resolve? hr').2.symm
    rw [expandName, expandName, hr, hr']
    exact h.expand_eq named content.symm

/-- The table selects, so with one table the same chunks are put out to the same places. -/
theorem SameContents.outputs_eq (h : SameContents s₁ s₂) (table : s₁.table = s₂.table)
    (requested : List Text) (root : Text) :
    s₁.outputs requested root = s₂.outputs requested root := by
  have output : s₁.output = s₂.output := by
    funext c
    rw [Scope.output, Scope.output, h.expand_eq rfl rfl]
  rw [outputs, outputs, table, output]

end Scope

theorem Chunk.content_merge_of_empty (c : Chunk) {later : Chunk} (h : later.content = []) :
    (c.merge later).content = c.content := by
  show mergeContent c.content later.content = c.content
  rw [h, mergeContent, List.isEmpty_nil, Bool.or_true, if_pos rfl, List.foldl_nil]

theorem Chunk.content_foldl_merge_of_empty {later : List Chunk} (h : ∀ c ∈ later, c.content = [])
    (c : Chunk) : (later.foldl merge c).content = c.content := by
  induction later generalizing c with
  | nil => rfl
  | cons l later ih =>
    obtain ⟨first, rest⟩ := List.forall_mem_cons.1 h
    rw [List.foldl_cons, ih rest, content_merge_of_empty c first]

namespace Document

/-- Every name with a definition has one as its first chunk of either kind, and no later definition
of the name has any content. -/
def SaidOnce (d : Document) : Prop :=
  ∀ name ∈ d.definedNames, (d.first? name).any Chunk.isCode = true ∧
    ∀ c ∈ (d.definitions name).tail, c.content = []

instance (d : Document) : Decidable d.SaidOnce :=
  inferInstanceAs (Decidable (∀ name ∈ d.definedNames, (d.first? name).any Chunk.isCode = true ∧
    ∀ c ∈ (d.definitions name).tail, c.content = []))

/-- A name with a definition stands for its first chunk under one policy, and for the first chunk
with empty ones merged into it under the other. -/
theorem sameContents_of_saidOnce {d : Document} (h : d.SaidOnce) :
    (d.scope .merged).SameContents (d.scope .firstDefinition) := by
  intro name
  by_cases empty : name = []
  · rw [empty, resolve?_empty, resolve?_empty]
  rw [resolve?_eq_choose? d .merged empty, resolve?_eq_choose? d .firstDefinition empty]
  have code := definitions_eq_filter_named d empty
  by_cases defined : d.definitions name = []
  · -- Both policies fall back on the first chunk of the name, which is prose.
    have noCode : (d.named name).filter Chunk.isCode = [] := code.symm.trans defined
    simp only [Policy.choose?, noCode, Chunk.mergeAll?, Option.none_or]
  · obtain ⟨first, later⟩ := h name (mem_definedNames.2 defined)
    rw [first?_eq_head? d empty] at first
    rw [code] at later
    cases hn : d.named name with
    | nil => simp [hn] at first
    | cons c rest =>
      rw [hn] at first later
      have isCode : c.isCode = true := by simpa using first
      rw [List.filter_cons_of_pos isCode, List.tail_cons] at later
      have content := Chunk.content_foldl_merge_of_empty later c
      simp only [Policy.choose?, List.filter_cons_of_pos isCode, Chunk.mergeAll?, Option.some_or,
        List.head?_cons, Option.map_some, content]

/-- If no definition after the first adds text and no prose stands in front of the first, the
policies give the same result for every name and every selection: the same texts at the same targets
in the same order, the same fault, and the same events on the way. -/
theorem policies_agree (d : Document) (h : d.SaidOnce) :
    (∀ name, (d.scope .merged).expandName name = (d.scope .firstDefinition).expandName name) ∧
    ∀ requested root,
      (d.scope .merged).outputs requested root =
        (d.scope .firstDefinition).outputs requested root := by
  have same := sameContents_of_saidOnce h
  exact ⟨same.expandName_eq, same.outputs_eq rfl⟩

/-- A later definition that only says where the chunk goes, prose of a code name behind its
definition, and a name with nothing but prose, twice. -/
theorem policies_agree_later_out :
    let a : Chunk := { kind := .code, name := ['a']
                       content := [.text ['1', '\n'], .reference ['p'] [' '] {}] }
    let p : Chunk := { kind := .doc, name := ['p'], content := [.text ['2', '\n', '3']] }
    let p' : Chunk := { kind := .doc, name := ['p'], content := [.text ['4']] }
    let a' : Chunk := { kind := .code, name := ['a'], options := .ofList [(Options.outKey, ['f'])] }
    let prose : Chunk := { kind := .doc, name := ['a'], content := [.text ['5']] }
    let d : Document := ⟨[p, a, prose, p', a'], none⟩
    d.SaidOnce ∧
    ((d.scope .firstDefinition).expandName ['a']).outcome = .ok "1\n 2\n 3".toList ∧
    ((d.scope .firstDefinition).outputs [] Chunk.rootName).outcome =
      .ok [⟨['a'], .file ['f'], "1\n 2\n 3".toList⟩] := by
  intro a p p' a' prose d
  have once : d.SaidOnce := by decide
  have text : ((d.scope .merged).expandName ['a']).outcome = .ok "1\n 2\n 3".toList := by cbv
  have outputs : ((d.scope .merged).outputs [] Chunk.rootName).outcome =
      .ok [⟨['a'], .file ['f'], "1\n 2\n 3".toList⟩] := by cbv
  obtain ⟨names, selections⟩ := policies_agree d once
  rw [names] at text
  rw [selections] at outputs
  exact ⟨once, text, outputs⟩

end Document

end Literate
