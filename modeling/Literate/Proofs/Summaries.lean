import Literate.Listing
import Literate.Proofs.Merging

namespace Literate

namespace Segment

variable {gs : List Segment}

theorem mem_names_iff {name : Text} :
    name ∈ gs.filterMap name? ↔ ∃ indent loc, Segment.reference name indent loc ∈ gs := by
  rw [List.mem_filterMap]
  constructor
  · rintro ⟨g, mem, named⟩
    cases g with
    | text t => simp [name?] at named
    | reference name' indent loc =>
      obtain rfl : name' = name := Option.some.inj named
      exact ⟨indent, loc, mem⟩
  · rintro ⟨indent, loc, mem⟩
    exact ⟨_, mem, rfl⟩

/-- The name that comes first is referred to where nothing has referred to the other yet. -/
theorem exists_first_of_idxOf_lt {a b : Text} (mem : a ∈ gs.filterMap name?)
    (earlier : (gs.filterMap name?).idxOf a < (gs.filterMap name?).idxOf b) :
    ∃ before indent loc after, gs = before ++ .reference a indent loc :: after ∧
      ∀ indent loc, Segment.reference b indent loc ∉ before := by
  induction gs with
  | nil => simp at mem
  | cons g gs ih =>
    cases g with
    | text t =>
      obtain ⟨before, indent, loc, after, rfl, fresh⟩ := ih mem earlier
      exact ⟨.text t :: before, indent, loc, after, rfl, by simpa using fresh⟩
    | reference name indent loc =>
      by_cases here : name = a
      · exact ⟨[], indent, loc, gs, by rw [here]; rfl, by simp⟩
      · have names : (Segment.reference name indent loc :: gs).filterMap name? =
            name :: gs.filterMap name? := rfl
        rw [names] at mem earlier
        rw [List.idxOf_cons_ne _ here] at earlier
        have other : name ≠ b := by
          rintro rfl
          simp at earlier
        rw [List.idxOf_cons_ne _ other] at earlier
        have later : a ∈ gs.filterMap name? :=
          (List.mem_cons.1 mem).resolve_left fun same => here same.symm
        obtain ⟨before, indent', loc', after, rfl, fresh⟩ := ih later (by omega)
        refine ⟨.reference name indent loc :: before, indent', loc', after, rfl, ?_⟩
        intro indent' loc'
        simp [Ne.symm other, fresh]

end Segment

namespace Chunk

theorem references_push (gs : List Segment) (g : Segment) :
    (Segment.push gs g).filterMap Segment.name? =
      gs.filterMap Segment.name? ++ [g].filterMap Segment.name? := by
  rcases Segment.push_cases gs g with alone | ⟨init, s, t, rfl, rfl, longer⟩
  · rw [alone, List.filterMap_append]
  · rw [longer, List.filterMap_append, List.filterMap_append, List.append_assoc]
    rfl

theorem references_foldl_push (later gs : List Segment) :
    (later.foldl Segment.push gs).filterMap Segment.name? =
      gs.filterMap Segment.name? ++ later.filterMap Segment.name? := by
  induction later generalizing gs with
  | nil => simp
  | cons g later ih =>
    rw [List.foldl_cons, ih, references_push, List.append_assoc, ← List.filterMap_append,
      List.singleton_append]

theorem references_merge (c later : Chunk) :
    (c.merge later).references = c.references ++ later.references := by
  show (mergeContent c.content later.content).filterMap Segment.name? = _
  unfold mergeContent
  rw [references_foldl_push]
  congr 1
  split
  · rfl
  · rw [references_push]
    exact List.append_nil _

theorem references_mergeAll? {ks : List Chunk} {c : Chunk} (h : mergeAll? ks = some c) :
    c.references = ks.flatMap references := by
  cases ks with
  | nil => simp [mergeAll?] at h
  | cons first later =>
    obtain rfl := Option.some.inj h
    induction later generalizing first with
    | nil => simp
    | cons l later ih =>
      have merged := ih (first.merge l) rfl
      rw [List.flatMap_cons, references_merge] at merged
      simpa using merged

end Chunk

namespace Table

theorem select_single (t : Table) (name root : Text) :
    t.select [name] root = (t.find name).map fun c => ⟨.requested, [c]⟩ := by
  show [name].mapM t.find >>= _ = _
  rw [List.mapM_cons]
  cases t.find name with
  | error e => rfl
  | ok c => rfl

theorem find_of_get? {t : Table} {name : Text} {c : Chunk} (h : t.get? name = some c) :
    t.find name = .ok c := by
  rw [find, h]

end Table

/-- One chunk is put out, unless it cannot be expanded. -/
theorem Scope.outputs_single {s : Scope} {name : Text} {c : Chunk} (h : s.table.get? name = some c)
    (root : Text) :
    (s.outputs [name] root).outcome =
      (s.expand c).outcome.map fun text => [⟨name, .ofChunk c, text⟩] := by
  have own : c.name = name := (Table.name_of_get? h).2
  have selected : s.table.select [name] root = .ok ⟨.requested, [c]⟩ := by
    rw [Table.select_single, Table.find_of_get? h]
    rfl
  rw [outputs, Traced.outcome_bind, Traced.outcome_ofExcept, selected]
  show (Traced.outcome ([c].mapM s.output)) = _
  rw [Traced.outcome_mapM, List.mapM_cons, output, Traced.outcome_bind, own]
  cases (s.expand c).outcome with
  | error e => rfl
  | ok text => rfl

namespace Document

variable {d : Document} {name : Text}

theorem mem_docNames :
    name ∈ d.docNames ↔ name ≠ [] ∧ ∃ c ∈ d.chunks, c.isCode = false ∧ c.name = name := by
  rw [docNames, mem_distinct, List.mem_map]
  constructor
  · rintro ⟨c, hc, rfl⟩
    obtain ⟨inside, prose⟩ := List.mem_filter.1 hc
    have both : c.isCode = false ∧ c.name ≠ [] := by simpa [Chunk.isAnonymous] using prose
    exact ⟨both.2, c, inside, both.1, rfl⟩
  · rintro ⟨nonempty, c, inside, prose, rfl⟩
    refine ⟨c, List.mem_filter.2 ⟨inside, ?_⟩, rfl⟩
    simp [Chunk.isAnonymous, prose, nonempty]

theorem exists_named_iff : (name ≠ [] ∧ ∃ c ∈ d.chunks, c.name = name) ↔
    name ∈ d.table.names ∨ name ∈ d.docNames := by
  rw [mem_names_table_iff, mem_docNames]
  constructor
  · rintro ⟨nonempty, c, inside, rfl⟩
    cases code : c.isCode with
    | false => exact Or.inr ⟨nonempty, c, inside, code, rfl⟩
    | true => exact Or.inl ⟨nonempty, c, inside, by simp [Chunk.defines, code]⟩
  · rintro (⟨nonempty, c, inside, defines⟩ | ⟨nonempty, c, inside, _, own⟩)
    · have both : c.isCode = true ∧ c.name = name := by simpa [Chunk.defines] using defines
      exact ⟨nonempty, c, inside, both.2⟩
    · exact ⟨nonempty, c, inside, own⟩

theorem first?_isSome_iff :
    (d.first? name).isSome = true ↔ name ≠ [] ∧ ∃ c ∈ d.chunks, c.name = name := by
  unfold first?
  split
  · rename_i empty
    have none : name = [] := by simpa using empty
    simp [none]
  · rename_i nonempty
    have some : name ≠ [] := by simpa using nonempty
    simp [some]

/-- Under either policy a name stands for something exactly if a chunk has it. -/
theorem resolve?_isSome_iff (policy : Policy) :
    ((d.scope policy).resolve? name).isSome = true ↔
      name ≠ [] ∧ ∃ c ∈ d.chunks, c.name = name := by
  cases policy with
  | firstDefinition => exact first?_isSome_iff
  | merged =>
    show ((d.table.get? name).or (d.first? name)).isSome = true ↔ _
    cases found : d.table.get? name with
    | none => exact first?_isSome_iff
    | some c =>
      have defined : name ∈ d.table.names :=
        d.mem_names_table.2 (definitions_ne_nil_of_get? found)
      simp only [Option.some_or, Option.isSome_some, true_iff]
      exact exists_named_iff.2 (Or.inl defined)

end Document

/-- The listing is that of the document: what it says is what selecting, putting out and referring
do. -/
structure Listing.Describes (l : Listing) (d : Document) : Prop where
  /-- A name is listed as code if it can be asked for. -/
  listed : ∀ name root, name ∈ l.code.map (·.name) ↔ ∃ s, d.table.select [name] root = .ok s
  once : (l.code.map (·.name)).Nodup
  /-- The names stand in the order of their first definitions. -/
  order : (l.code.map (·.name)).Pairwise fun a b =>
    d.chunks.findIdx (·.defines a) < d.chunks.findIdx (·.defines b)
  /-- The output of a name goes to the file that is listed, or is printed if there is none. -/
  target : ∀ s ∈ l.code, ∃ c target, d.table.get? s.name = some c ∧
    (∀ policy root, ((d.scope policy).outputs [s.name] root).outcome =
      ((d.scope policy).expand c).outcome.map fun text => [⟨s.name, target, text⟩]) ∧
    (∀ path, s.out = some path ↔ target = .file path) ∧ (s.out = none ↔ target = .print)
  /-- Without a root, what is put out is what is listed with a file. -/
  terminals : ∀ root, d.table.get? root = none →
    (l.code.filter (·.out.isSome) = [] ∧ d.table.select [] root = .error .noTarget) ∨
    ∃ cs, cs ≠ [] ∧ d.table.select [] root = .ok ⟨.terminals, cs⟩ ∧
      List.Forall₂ (fun s c => d.table.get? s.name = some c) (l.code.filter (·.out.isSome)) cs
  definitions : ∀ s ∈ l.code, s.definitions = d.chunks.countP (·.defines s.name)
  /-- The names that the definitions refer to are listed once each, in the order in which they first
  come. -/
  references : ∀ s ∈ l.code,
    let contents := (d.chunks.filter (·.defines s.name)).flatMap (·.content)
    (∀ name, name ∈ s.references ↔ ∃ indent loc, Segment.reference name indent loc ∈ contents) ∧
      s.references.Nodup ∧
      s.references.Pairwise fun a b => ∃ before indent loc after,
        contents = before ++ .reference a indent loc :: after ∧
          ∀ indent loc, Segment.reference b indent loc ∉ before
  /-- A reference can be resolved if its name is listed, as code or as prose. -/
  resolved : ∀ policy name, ((d.scope policy).resolve? name).isSome = true ↔
    name ∈ l.code.map (·.name) ∨ name ∈ l.doc

namespace Listing

variable (d : Document)

theorem names_ofTable : (ofTable d d.table).code.map (·.name) = d.table.names := by
  rw [Table.names_eq]
  exact List.map_map

/-- A summary is made from the entry that the table has under its name. -/
theorem exists_of_mem_code {s : Summary} (h : s ∈ (ofTable d d.table).code) :
    ∃ c, d.table.get? s.name = some c ∧ s.definitions = d.table.definitions s.name ∧
      s.out = c.out? ∧ s.references = distinct c.references := by
  obtain ⟨e, he, rfl⟩ := List.mem_map.1 h
  have entry := Table.entry?_of_mem d.nodup_names_table he
  obtain ⟨get, count⟩ := Table.entry?_eq_some_iff.1 entry
  exact ⟨e.chunk, get, count.symm, rfl, rfl⟩

theorem mem_names_iff_select (name root : Text) :
    name ∈ (ofTable d d.table).code.map (·.name) ↔ ∃ s, d.table.select [name] root = .ok s := by
  rw [names_ofTable, d.mem_names_table, Table.select_single, Table.find, d.get?_table]
  cases d.definitions name with
  | nil => simp [Chunk.mergeAll?, Except.map]
  | cons first later => simp [Chunk.mergeAll?, Except.map]

theorem ofChunk_eq_iff (c : Chunk) :
    (∀ path, c.out? = some path ↔ Target.ofChunk c = .file path) ∧
      (c.out? = none ↔ Target.ofChunk c = .print) := by
  unfold Target.ofChunk
  cases c.out? with
  | none => simp
  | some path => simp

/-- The summaries with a file belong to the chunks that are put out without a root. -/
theorem forall₂_terminals :
    List.Forall₂ (fun s c => d.table.get? s.name = some c)
      ((ofTable d d.table).code.filter (·.out.isSome)) d.table.terminals := by
  have files : (ofTable d d.table).code.filter (·.out.isSome) =
      (d.table.entries.filter (·.chunk.isTerminal)).map summary := List.filter_map
  have chunks : d.table.terminals =
      (d.table.entries.filter (·.chunk.isTerminal)).map (·.chunk) := List.filter_map
  rw [files, chunks, List.forall₂_map_left_iff, List.forall₂_map_right_iff, List.forall₂_same]
  intro e he
  have entry := Table.entry?_of_mem d.nodup_names_table (List.mem_filter.1 he).1
  exact (Table.entry?_eq_some_iff.1 entry).1

variable {d} {name : Text} {c : Chunk}

theorem definitions_of_get? (h : d.table.get? name = some c) :
    d.definitions name = d.chunks.filter (·.defines name) := by
  apply d.definitions_eq_filter
  rintro rfl
  exact Document.definitions_ne_nil_of_get? h d.definitions_empty

theorem count_of_get? (h : d.table.get? name = some c) :
    d.table.definitions name = d.chunks.countP (·.defines name) := by
  rw [d.definitions_table, definitions_of_get? h, List.countP_eq_length_filter]

theorem references_of_get? (h : d.table.get? name = some c) :
    c.references =
      ((d.chunks.filter (·.defines name)).flatMap (·.content)).filterMap Segment.name? := by
  rw [← definitions_of_get? h, List.filterMap_flatMap]
  rw [d.get?_table] at h
  exact Chunk.references_mergeAll? h

end Listing

/-- Every document has a listing, and it says what the document does. -/
theorem Document.listing_describes (d : Document) :
    ∃ l, d.listing.outcome = .ok l ∧ l.Describes d := by
  refine ⟨.ofTable d d.table, rfl, ?_⟩
  refine
    { listed := Listing.mem_names_iff_select d
      once := ?_
      order := ?_
      target := ?_
      terminals := ?_
      definitions := ?_
      references := ?_
      resolved := ?_ }
  · rw [Listing.names_ofTable]
    exact d.nodup_names_table
  · rw [Listing.names_ofTable]
    exact d.pairwise_names_table
  · intro s hs
    obtain ⟨c, found, _, out, _⟩ := Listing.exists_of_mem_code d hs
    refine ⟨c, .ofChunk c, found, ?_, ?_⟩
    · intro policy root
      exact Scope.outputs_single found root
    · rw [out]
      exact Listing.ofChunk_eq_iff c
  · intro root none
    have files := Listing.forall₂_terminals d
    by_cases empty : d.table.terminals = []
    · rw [empty] at files
      refine Or.inl ⟨List.forall₂_nil_right_iff.1 files, ?_⟩
      simp [Table.select, none, empty]
    · refine Or.inr ⟨d.table.terminals, empty, ?_, files⟩
      simp [Table.select, none, empty]
  · intro s hs
    obtain ⟨c, found, count, _, _⟩ := Listing.exists_of_mem_code d hs
    exact count.trans (Listing.count_of_get? found)
  · intro s hs
    obtain ⟨c, found, _, _, references⟩ := Listing.exists_of_mem_code d hs
    intro contents
    have order := pairwise_distinct (contents.filterMap Segment.name?)
    rw [references, Listing.references_of_get? found]
    refine ⟨fun name => ?_, nodup_of_idxOf_lt order, ?_⟩
    · rw [mem_distinct, Segment.mem_names_iff]
    · refine order.imp_of_mem ?_
      intro a b ha _ earlier
      exact Segment.exists_first_of_idxOf_lt (mem_distinct.1 ha) earlier
  · intro policy name
    rw [Listing.names_ofTable, resolve?_isSome_iff]
    exact exists_named_iff

/-- A name with two definitions and a piece of prose of the same name. Its file is set by the second
definition, and two of the names that it refers to come in both. -/
theorem Document.listing_describes_redefined :
    let d : Document := { chunks := [
      { kind := .code, name := ['a'],
        content := [.reference ['b'] [] {}, .text ['x'], .reference ['c'] [' '] {}] },
      { kind := .doc, name := ['a'], content := [.reference ['e'] [] {}] },
      { kind := .code, name := ['b'], options := .ofList [(['o', 'u', 't'], ['f'])] },
      { kind := .code, name := ['a'], options := .ofList [(['o', 'u', 't'], ['g'])],
        content := [.reference ['c'] [] {}, .reference ['d'] [] {}, .reference ['b'] [] {}] },
      { kind := .doc, name := ['c'] }] }
    let l : Listing := {
      code := [⟨['a'], 2, some ['g'], [['b'], ['c'], ['d']]⟩, ⟨['b'], 1, some ['f'], []⟩]
      doc := [['a'], ['c']] }
    d.listing.outcome = .ok l ∧ l.Describes d := by
  intro d l
  have listed : d.listing.outcome = .ok l := rfl
  obtain ⟨l', listed', describes⟩ := listing_describes d
  obtain rfl : l' = l := Except.ok.inj (listed'.symm.trans listed)
  exact ⟨listed', describes⟩

end Literate
