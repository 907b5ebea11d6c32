import Mathlib.Algebra.Ring.Nat
import Mathlib.Data.List.Nodup
import Literate.Proofs.Definitions

namespace Literate

namespace Table

theorem definitions_cons (e : Entry) (es : List Entry) (name : Text) :
    definitions ⟨e :: es⟩ name =
      if e.chunk.name = name then e.definitions else definitions ⟨es⟩ name := by
  by_cases h : e.chunk.name = name
  · simp [definitions, entry?, h]
  · simp [definitions, entry?, h]

theorem definitions_add (t : Table) (c : Chunk) (name : Text) :
    (t.add c).definitions name = t.definitions name + if c.name = name then 1 else 0 := by
  obtain ⟨es⟩ := t
  show definitions ⟨addEntry c es⟩ name = _
  fun_induction addEntry c es with
  | case1 =>
    rw [definitions_cons]
    exact (Nat.zero_add _).symm
  | case2 e rest same =>
    have kept : (e.chunk.merge c).name = c.name := same
    rw [definitions_cons, definitions_cons, kept, same]
    by_cases h : c.name = name
    · rw [if_pos h, if_pos h, if_pos h]
    · rw [if_neg h, if_neg h, if_neg h, Nat.add_zero]
  | case3 e rest other ih =>
    rw [definitions_cons, definitions_cons, ih]
    by_cases h : e.chunk.name = name
    · have apart : c.name ≠ name := fun same => other (h.trans same.symm)
      rw [if_pos h, if_pos h, if_neg apart, Nat.add_zero]
    · rw [if_neg h, if_neg h]

theorem definitions_foldl_add (t : Table) (cs : List Chunk) (name : Text) :
    (cs.foldl add t).definitions name = t.definitions name + cs.countP (·.name = name) := by
  induction cs generalizing t with
  | nil => rfl
  | cons c cs ih =>
    rw [List.foldl_cons, ih, definitions_add, List.countP_cons]
    simp only [decide_eq_true_eq]
    omega

/-- The number of chunks that went into the entries of a table. -/
def size (t : Table) : Nat := (t.entries.map (·.definitions)).sum

theorem size_add (t : Table) (c : Chunk) : (t.add c).size = t.size + 1 := by
  obtain ⟨es⟩ := t
  show size ⟨addEntry c es⟩ = size ⟨es⟩ + 1
  have first (e : Entry) (es : List Entry) : size ⟨e :: es⟩ = e.definitions + size ⟨es⟩ := by
    simp [size]
  fun_induction addEntry c es with
  | case1 => rfl
  | case2 e rest same =>
    rw [first, first]
    show e.definitions + 1 + _ = _
    omega
  | case3 e rest other ih =>
    rw [first, first, ih]
    omega

theorem size_foldl_add (t : Table) (cs : List Chunk) :
    (cs.foldl add t).size = t.size + cs.length := by
  induction cs generalizing t with
  | nil => rfl
  | cons c cs ih =>
    rw [List.foldl_cons, ih, size_add, List.length_cons]
    omega

variable {t : Table} {e : Entry}

theorem entry?_eq_some_iff {name : Text} :
    t.entry? name = some e ↔ t.get? name = some e.chunk ∧ t.definitions name = e.definitions := by
  cases h : t.entry? name with
  | none => simp [get?, h]
  | some found =>
    obtain ⟨chunk, definitions⟩ := found
    obtain ⟨chunk', definitions'⟩ := e
    simp [get?, Table.definitions, h]

theorem names_eq (t : Table) : t.names = t.entries.map fun e => e.chunk.name := List.map_map

theorem entry?_of_mem (nodup : t.names.Nodup) (he : e ∈ t.entries) :
    t.entry? e.chunk.name = some e := by
  obtain ⟨es⟩ := t
  obtain ⟨before, after, rfl⟩ := List.append_of_mem he
  rw [names_eq, List.map_append, List.map_cons] at nodup
  have new : ∀ b ∈ before, b.chunk.name ≠ e.chunk.name := by
    intro b hb
    have apart := (List.nodup_append.1 nodup).2.2
    exact apart _ (List.mem_map_of_mem hb) _ List.mem_cons_self
  refine List.find?_eq_some_iff_append.2 ⟨by simp, before, after, rfl, ?_⟩
  intro b hb
  simpa using new b hb

theorem mem_entries_iff (nodup : t.names.Nodup) :
    e ∈ t.entries ↔ t.entry? e.chunk.name = some e :=
  ⟨entry?_of_mem nodup, List.mem_of_find?_eq_some⟩

/-- Tables with the same lookups have the same entries, in whatever order. -/
theorem entries_perm {t' : Table} (nodup : t.names.Nodup) (nodup' : t'.names.Nodup)
    (get : ∀ name, t.get? name = t'.get? name)
    (count : ∀ name, t.definitions name = t'.definitions name) : t.entries.Perm t'.entries := by
  have distinct {t : Table} (h : t.names.Nodup) : t.entries.Nodup := by
    rw [names_eq] at h
    exact h.of_map
  refine (List.perm_ext_iff_of_nodup (distinct nodup) (distinct nodup')).2 ?_
  intro e
  rw [mem_entries_iff nodup, mem_entries_iff nodup', entry?_eq_some_iff, entry?_eq_some_iff, get,
    count]

theorem sum_definitions (nodup : t.names.Nodup) :
    (t.names.map t.definitions).sum = t.size := by
  have each : t.entries.map (fun e => t.definitions e.chunk.name) =
      t.entries.map (·.definitions) := by
    apply List.map_congr_left
    intro e he
    exact (entry?_eq_some_iff.1 (entry?_of_mem nodup he)).2
  rw [size, ← each, names_eq, List.map_map]
  rfl

theorem defines_of_accepts {c : Chunk} (h : accepts c = true) (name : Text) :
    c.defines name = (c.name == name) := by
  have code : c.isCode = true := (Bool.and_eq_true_iff.1 h).1
  rw [Chunk.defines, code, Bool.true_and, beq_eq_decide]

theorem defines_of_not_accepts {c : Chunk} (h : accepts c = false) {name : Text} (hn : name ≠ []) :
    c.defines name = false := by
  by_cases same : c.name = name
  · have named : c.isAnonymous = false := by simpa [Chunk.isAnonymous, same] using hn
    rw [accepts, named, Bool.not_false, Bool.and_true] at h
    rw [Chunk.defines, h, Bool.false_and]
  · simp [Chunk.defines, same]

/-- What comes first among the names that are defined has its first definition first. -/
theorem findIdx_lt_of_idxOf {cs : List Chunk} {a b : Text} (ha : a ≠ []) (hb : b ≠ [])
    (h : ((cs.filter accepts).map (·.name)).idxOf a < ((cs.filter accepts).map (·.name)).idxOf b) :
    cs.findIdx (·.defines a) < cs.findIdx (·.defines b) := by
  induction cs with
  | nil => simp at h
  | cons c cs ih =>
    rw [List.findIdx_cons, List.findIdx_cons]
    cases accepted : accepts c with
    | false =>
      rw [List.filter_cons_of_neg (by simp [accepted])] at h
      rw [defines_of_not_accepts accepted ha, defines_of_not_accepts accepted hb]
      exact Nat.succ_lt_succ (ih h)
    | true =>
      rw [List.filter_cons_of_pos accepted, List.map_cons, List.idxOf_cons, List.idxOf_cons] at h
      rw [defines_of_accepts accepted, defines_of_accepts accepted]
      cases isB : c.name == b with
      | true =>
        rw [isB] at h
        exact absurd h (Nat.not_lt_zero _)
      | false =>
        cases isA : c.name == a with
        | true => exact Nat.succ_pos _
        | false =>
          rw [isA, isB] at h
          exact Nat.succ_lt_succ (ih (Nat.lt_of_succ_lt_succ h))

end Table

namespace Document

variable (d : Document)

theorem definitions_eq_filter {name : Text} (h : name ≠ []) :
    d.definitions name = d.chunks.filter (·.defines name) := if_neg h

theorem definitions_empty : d.definitions [] = [] := if_pos rfl

theorem definitions_eq_nil_iff {name : Text} :
    d.definitions name = [] ↔ name = [] ∨ ∀ c ∈ d.chunks, c.defines name = false := by
  by_cases h : name = []
  · simp [h, definitions_empty]
  · simp [h, definitions_eq_filter, List.filter_eq_nil_iff]

theorem nodup_names_table : d.table.names.Nodup := by
  rw [names_table]
  exact nodup_of_idxOf_lt (pairwise_distinct _)

theorem mem_names_table {name : Text} : name ∈ d.table.names ↔ d.definitions name ≠ [] := by
  rw [names_table, mem_distinct, mem_definedNames]

theorem mem_names_table_iff {name : Text} :
    name ∈ d.table.names ↔ name ≠ [] ∧ ∃ c ∈ d.chunks, c.defines name = true := by
  refine d.mem_names_table.trans ((not_congr d.definitions_eq_nil_iff).trans ?_)
  simp

/-- The names stand in the order of their first definitions. -/
theorem pairwise_names_table : d.table.names.Pairwise
    fun a b => d.chunks.findIdx (·.defines a) < d.chunks.findIdx (·.defines b) := by
  have nonempty {name : Text} (h : name ∈ d.table.names) : name ≠ [] := by
    rintro rfl
    exact d.mem_names_table.1 h d.definitions_empty
  have order := pairwise_distinct d.definedNames
  rw [← names_table] at order
  refine order.imp_of_mem ?_
  intro a b ha hb less
  exact Table.findIdx_lt_of_idxOf (nonempty ha) (nonempty hb) less

theorem definitions_table (name : Text) :
    d.table.definitions name = (d.definitions name).length := by
  rw [definitions_eq, ← List.countP_eq_length_filter]
  refine (Table.definitions_foldl_add {} _ name).trans ?_
  exact Nat.zero_add _

theorem size_table : d.table.size = d.chunks.countP Table.accepts := by
  rw [List.countP_eq_length_filter]
  refine (Table.size_foldl_add {} _).trans ?_
  exact Nat.zero_add _

variable {d} {d' : Document}

theorem definitions_congr
    (h : ∀ name, name ≠ [] → d'.chunks.filter (·.defines name) = d.chunks.filter (·.defines name))
    (name : Text) : d'.definitions name = d.definitions name := by
  by_cases empty : name = []
  · rw [empty, definitions_empty, definitions_empty]
  · rw [definitions_eq_filter d' empty, definitions_eq_filter d empty, h name empty]

/-- The table hangs on the definitions of each name, and on the rest of the document only in the
order of its entries. -/
theorem table_congr (h : ∀ name, d'.definitions name = d.definitions name) :
    (∀ name, d'.table.get? name = d.table.get? name ∧
      d'.table.definitions name = d.table.definitions name) ∧
    d'.table.entries.Perm d.table.entries := by
  have get (name : Text) : d'.table.get? name = d.table.get? name := by
    rw [get?_table, get?_table, h]
  have count (name : Text) : d'.table.definitions name = d.table.definitions name := by
    rw [definitions_table, definitions_table, h]
  refine ⟨fun name => ⟨get name, count name⟩, ?_⟩
  exact Table.entries_perm d'.nodup_names_table d.nodup_names_table get count

end Document

namespace Chunk

/-- Merging keeps what says where the first definition is. -/
theorem foldl_merge_first (first : Chunk) (later : List Chunk) :
    (later.foldl merge first).name = first.name ∧ (later.foldl merge first).kind = first.kind ∧
      (later.foldl merge first).loc = first.loc := by
  induction later generalizing first with
  | nil => exact ⟨rfl, rfl, rfl⟩
  | cons l later ih => exact ih (first.merge l)

end Chunk

/-- The table of a list of chunks is one fold for each name. A name is absent if it is empty or no
code has it, and otherwise its entry is the first of its definitions with the later ones merged into
it and their number. The names come once each, in the order of their first definitions, and how the
definitions of different names stand among each other has no other effect. -/
theorem Table.ofChunks_perName (cs : List Chunk) :
    (∀ name, (ofChunks cs).get? name = none ↔ name = [] ∨ ∀ c ∈ cs, c.defines name = false) ∧
    (∀ name first later, name ≠ [] → cs.filter (·.defines name) = first :: later →
      ∃ c, (ofChunks cs).get? name = some c ∧ c = later.foldl Chunk.merge first ∧
        c.name = first.name ∧ c.kind = first.kind ∧ c.loc = first.loc) ∧
    (∀ c ∈ (ofChunks cs).chunks, (ofChunks cs).get? c.name = some c) ∧
    (∀ name, name ∈ (ofChunks cs).chunks.map (·.name) ↔
      name ≠ [] ∧ ∃ c ∈ cs, c.defines name = true) ∧
    ((ofChunks cs).chunks.map (·.name)).Nodup ∧
    ((ofChunks cs).chunks.map (·.name)).Pairwise (fun a b =>
      cs.findIdx (·.defines a) < cs.findIdx (·.defines b)) ∧
    (∀ name, (ofChunks cs).definitions name =
      if name = [] then 0 else cs.countP (·.defines name)) ∧
    (((ofChunks cs).chunks.map (·.name)).map (ofChunks cs).definitions).sum =
      cs.countP (fun c => c.isCode && !c.isAnonymous) ∧
    ∀ cs', (∀ name, name ≠ [] → cs'.filter (·.defines name) = cs.filter (·.defines name)) →
      (∀ name, (ofChunks cs').get? name = (ofChunks cs).get? name ∧
        (ofChunks cs').definitions name = (ofChunks cs).definitions name) ∧
      (ofChunks cs').entries.Perm (ofChunks cs).entries := by
  let d : Document := ⟨cs, none⟩
  refine ⟨?_, ?_, ?_, ?_, d.nodup_names_table, d.pairwise_names_table, ?_, ?_, ?_⟩
  · intro name
    have get : (ofChunks cs).get? name = Chunk.mergeAll? (d.definitions name) := d.get?_table name
    rw [get, Chunk.mergeAll?_eq_none_iff]
    exact d.definitions_eq_nil_iff
  · intro name first later nonempty all
    have definitions : d.definitions name = first :: later :=
      (d.definitions_eq_filter nonempty).trans all
    refine ⟨_, ?_, rfl, Chunk.foldl_merge_first first later⟩
    refine (d.get?_table name).trans ?_
    rw [definitions]
    rfl
  · intro c hc
    exact get?_of_mem d.nodup_names_table hc
  · intro name
    exact d.mem_names_table_iff
  · intro name
    refine (d.definitions_table name).trans ?_
    by_cases empty : name = []
    · rw [if_pos empty, empty, d.definitions_empty]
      rfl
    · rw [if_neg empty, d.definitions_eq_filter empty, List.countP_eq_length_filter]
  · exact (sum_definitions d.nodup_names_table).trans d.size_table
  · intro cs' same
    exact @Document.table_congr d ⟨cs', none⟩ (Document.definitions_congr same)

/-- Definitions of two names among prose and loose code, and the same definitions without the rest
and in another order. -/
theorem Table.ofChunks_perName_interleaved :
    let a : Chunk := { kind := .code, name := ['a'], content := [.text ['1']], loc := { line := 2 } }
    let prose : Chunk := { kind := .doc, name := ['a'], content := [.text ['0']] }
    let loose : Chunk := { kind := .code, name := [], content := [.text ['9']] }
    let b : Chunk := { kind := .code, name := ['b'], content := [.reference ['a'] [' '] {}] }
    let a' : Chunk := { kind := .code, name := ['a'], options := .ofList [(['k'], ['v'])]
                        content := [.text ['2']], loc := { line := 7 } }
    let cs := [prose, a, loose, b, a']
    let cs' := [b, a, a']
    (∀ name, name ≠ [] → cs'.filter (·.defines name) = cs.filter (·.defines name)) ∧
    (ofChunks cs).get? ['a'] = some { kind := .code, name := ['a'], options := .ofList [(['k'], ['v'])]
                                      content := [.text ['1', '\n', '2']], loc := { line := 2 } } ∧
    (ofChunks cs').get? ['a'] = (ofChunks cs).get? ['a'] ∧
    (ofChunks cs').definitions ['a'] = 2 ∧
    (ofChunks cs').entries.Perm (ofChunks cs).entries := by
  intro a prose loose b a' cs cs'
  have same : ∀ name, name ≠ [] → cs'.filter (·.defines name) = cs.filter (·.defines name) := by
    intro name nonempty
    by_cases isA : name = ['a']
    · subst isA
      decide
    · by_cases isB : name = ['b']
      · subst isB
        decide
      · simp [cs, cs', a, a', b, prose, loose, Chunk.defines, Ne.symm isA, Ne.symm isB,
          Ne.symm nonempty]
  obtain ⟨_, merged, _, _, _, _, count, _, interleaved⟩ := ofChunks_perName cs
  obtain ⟨c, found, rfl, _⟩ := merged ['a'] a [a'] (by decide) (by decide)
  obtain ⟨each, perm⟩ := interleaved cs' same
  refine ⟨same, found, (each ['a']).1, ?_, perm⟩
  rw [(each ['a']).2, count]
  decide

end Literate
