import Literate.Proofs.Grouping

namespace Literate

namespace Options

theorem mem_keys_of_get? {o : Options} {key value : Text} (h : o.get? key = some value) :
    key ∈ o.keys := by
  by_contra absent
  have none : o.get? key = none := lookup?_eq_none absent
  rw [none] at h
  simp at h

/-- Laid over other options, these change what had another value. -/
theorem conflicts_eq (o later : Options) :
    o.conflicts later = later.keys.filter fun key =>
      decide (o.get? key ≠ none ∧ (o.overlay later).get? key ≠ o.get? key) := by
  unfold conflicts keys
  rw [List.filter_map]
  congr 1
  apply List.filter_congr
  intro e he
  have wins : (o.overlay later).get? e.1 = some e.2 := by
    rw [get?_overlay, get?_of_mem he]
    rfl
  rw [Function.comp_apply, wins]
  cases old : o.get? e.1 with
  | none => simp
  | some v => simp [eq_comm]

end Options

namespace Table

/-- The value that an option of a name has. -/
def value? (t : Table) (name key : Text) : Option Text := (t.get? name).bind (·.options.get? key)

/-- An option of a name has a value in the one table, and another in the next. -/
def Changes (t next : Table) (name key : Text) : Prop :=
  t.value? name key ≠ none ∧ next.value? name key ≠ t.value? name key

instance (t next : Table) (name key : Text) : Decidable (t.Changes next name key) :=
  inferInstanceAs (Decidable (_ ∧ _))

theorem not_changes_self (t : Table) (name key : Text) : ¬t.Changes t name key :=
  fun changes => changes.2 rfl

theorem overrides_eq (t : Table) (c : Chunk) :
    t.overrides c = c.options.keys.filter fun key => t.Changes (t.add c) c.name key := by
  unfold overrides
  cases found : t.get? c.name with
  | none =>
    symm
    apply List.filter_eq_nil_iff.2
    intro key _
    simp [Changes, value?, found]
  | some earlier =>
    have next : (t.add c).get? c.name = some (earlier.merge c) := by
      rw [get?_add, if_pos rfl, found]
      rfl
    have before (key : Text) : t.value? c.name key = earlier.options.get? key := by
      rw [value?, found]
      rfl
    have after (key : Text) :
        (t.add c).value? c.name key = (earlier.options.overlay c.options).get? key := by
      rw [value?, next]
      rfl
    simp only [Options.conflicts_eq, Changes, before, after]

theorem warnings_cons (t : Table) (c : Chunk) (cs : List Chunk) :
    t.warnings (c :: cs) = (if t.overrides c = [] then none
      else some (Event.overridden c.name c.loc (t.overrides c))).toList ++ (t.add c).warnings cs := by
  rw [warnings]
  by_cases silent : t.overrides c = []
  · simp [silent]
  · simp [silent]

theorem ofChunks_concat (cs : List Chunk) (c : Chunk) :
    ofChunks (cs ++ [c]) = if accepts c then (ofChunks cs).add c else ofChunks cs := by
  unfold ofChunks
  cases accepted : accepts c with
  | true => simp [List.filter_append, accepted]
  | false => simp [List.filter_append, accepted]

end Table

namespace Document

/-- The document in front of one of its chunks. -/
def upTo (d : Document) (i : Nat) : Document := { d with chunks := d.chunks.take i }

/-- The options whose values the chunk at a place changes, in its own order. -/
def changedKeys (d : Document) (i : Nat) (c : Chunk) : List Text :=
  c.options.keys.filter fun key => (d.upTo i).table.Changes (d.upTo (i + 1)).table c.name key

/-- The warning that the chunk at a place calls for. -/
def warning? (d : Document) (i : Nat) (c : Chunk) : Option Event :=
  if d.changedKeys i c = [] then none
  else some (.overridden c.name c.loc (d.changedKeys i c))

theorem table_upTo_length {d : Document} {before rest : List Chunk}
    (h : d.chunks = before ++ rest) : (d.upTo before.length).table = .ofChunks before := by
  unfold upTo table
  rw [h, List.take_left]

theorem table_upTo_succ {d : Document} {before rest : List Chunk} {c : Chunk}
    (h : d.chunks = before ++ c :: rest) :
    (d.upTo (before.length + 1)).table = .ofChunks (before ++ [c]) := by
  have whole : d.chunks = (before ++ [c]) ++ rest := by simp [h]
  have length : before.length + 1 = (before ++ [c]).length := by simp
  rw [length, table_upTo_length whole]

theorem changedKeys_eq {d : Document} {before rest : List Chunk} {c : Chunk}
    (h : d.chunks = before ++ c :: rest) :
    d.changedKeys before.length c =
      if Table.accepts c then (Table.ofChunks before).overrides c else [] := by
  unfold changedKeys
  rw [table_upTo_length h, table_upTo_succ h, Table.ofChunks_concat]
  split
  · rw [Table.overrides_eq]
  · simp [Table.not_changes_self]

/-- Each chunk of the rest warns as its place in the whole document asks. -/
theorem warnings_eq {d : Document} {before rest : List Chunk} (h : d.chunks = before ++ rest) :
    (Table.ofChunks before).warnings (rest.filter Table.accepts) =
      (rest.zipIdx before.length).filterMap fun p => d.warning? p.2 p.1 := by
  -- Each step moves the first chunk of the rest behind those in front of it: the document stays the
  -- same, and the table is the one that the next chunk is compared with.
  induction rest generalizing before with
  | nil => rfl
  | cons c rest ih =>
    have keys := changedKeys_eq h
    have later := @ih (before ++ [c]) (by simp [h])
    rw [List.length_append, List.length_singleton, Table.ofChunks_concat] at later
    rw [List.zipIdx_cons, List.filterMap_cons, ← later]
    unfold warning?
    rw [keys]
    cases accepted : Table.accepts c with
    | true =>
      rw [List.filter_cons_of_pos accepted, Table.warnings_cons]
      by_cases silent : (Table.ofChunks before).overrides c = []
      · simp [silent]
      · simp [silent]
    | false =>
      rw [List.filter_cons_of_neg (by simp [accepted])]
      simp

theorem value?_table (d : Document) (name key : Text) :
    d.table.value? name key = Chunk.lastValue? (d.definitions name) key := by
  rw [Table.value?, get?_table]
  cases merged : Chunk.mergeAll? (d.definitions name) with
  | none =>
    rw [Chunk.mergeAll?_eq_none_iff.1 merged]
    rfl
  | some c => exact Chunk.get?_mergeAll merged key

theorem definitions_upTo_succ {d : Document} {i : Nat} {c : Chunk} (h : d.chunks[i]? = some c) :
    (d.upTo (i + 1)).definitions c.name =
      (d.upTo i).definitions c.name ++ if Table.accepts c then [c] else [] := by
  have chunks : (d.upTo (i + 1)).chunks = (d.upTo i).chunks ++ [c] := by
    simp [upTo, List.take_add_one, h]
  rw [definitions_eq, definitions_eq, chunks, List.filter_append, List.filter_append]
  cases accepted : Table.accepts c with
  | true => simp [accepted]
  | false => simp [accepted]

/-- A value changes where a definition declares another one than the last definition before it that
declares any. -/
theorem changes_iff {d : Document} {i : Nat} {c : Chunk} (h : d.chunks[i]? = some c)
    (key : Text) :
    (d.upTo i).table.Changes (d.upTo (i + 1)).table c.name key ↔
      Table.accepts c = true ∧ ∃ old new,
        Chunk.lastValue? ((d.upTo i).definitions c.name) key = some old ∧
        c.options.get? key = some new ∧ old ≠ new := by
  unfold Table.Changes
  rw [value?_table, value?_table, definitions_upTo_succ h]
  cases accepted : Table.accepts c with
  | false => simp
  | true =>
    rw [if_pos rfl, Chunk.lastValue?_concat]
    cases Chunk.lastValue? ((d.upTo i).definitions c.name) key with
    | none => simp
    | some old =>
      cases c.options.get? key with
      | none => simp
      | some new => simp [eq_comm]

theorem mem_changedKeys_iff {d : Document} {i : Nat} {c : Chunk} (h : d.chunks[i]? = some c)
    {key : Text} :
    key ∈ d.changedKeys i c ↔ (d.upTo i).table.Changes (d.upTo (i + 1)).table c.name key := by
  unfold changedKeys
  rw [List.mem_filter, decide_eq_true_iff]
  constructor
  · exact fun both => both.2
  · intro changes
    obtain ⟨_, _, new, _, own, _⟩ := (changes_iff h key).1 changes
    exact ⟨Options.mem_keys_of_get? own, changes⟩

theorem warning?_ne_none_iff {d : Document} {i : Nat} {c : Chunk} (h : d.chunks[i]? = some c) :
    d.warning? i c ≠ none ↔
      ∃ key, (d.upTo i).table.Changes (d.upTo (i + 1)).table c.name key := by
  have warns : d.warning? i c ≠ none ↔ d.changedKeys i c ≠ [] := by simp [warning?]
  rw [warns]
  constructor
  · intro some
    obtain ⟨key, changed⟩ := List.exists_mem_of_ne_nil _ some
    exact ⟨key, (mem_changedKeys_iff h).1 changed⟩
  · rintro ⟨key, changes⟩
    exact List.ne_nil_of_mem ((mem_changedKeys_iff h).2 changes)

end Document

/-- Whether an event is the warning of a definition of this name. -/
def Event.warnsOf (name : Text) : Event → Bool
  | .overridden n _ _ => n = name
  | _ => false

namespace Table

theorem overrides_congr {t u : Table} {c : Chunk} (h : t.get? c.name = u.get? c.name) :
    t.overrides c = u.overrides c := by
  unfold overrides
  rw [h]

/-- The definitions of other names make no difference to the warnings of a name. -/
theorem warnings_filter {t u : Table} {name : Text} (h : t.get? name = u.get? name)
    (cs : List Chunk) :
    (t.warnings cs).filter (Event.warnsOf name) = u.warnings (cs.filter (·.name = name)) := by
  induction cs generalizing t u with
  | nil => rfl
  | cons c cs ih =>
    rw [warnings_cons, List.filter_append]
    by_cases same : c.name = name
    · have next : (t.add c).get? name = (u.add c).get? name := by
        rw [get?_add, get?_add, h]
      have keys : t.overrides c = u.overrides c := overrides_congr (same ▸ h)
      rw [ih next, List.filter_cons_of_pos (by simpa using same), warnings_cons, keys]
      congr 1
      split
      · rfl
      · simp [Event.warnsOf, same]
    · have kept : (t.add c).get? name = u.get? name := by
        rw [get?_add, if_neg same, h]
      rw [ih kept, List.filter_cons_of_neg (by simpa using same)]
      split
      · rfl
      · simp [Event.warnsOf, same]

end Table

namespace Chunk

/-- Merged options have the keys of all definitions, each where it first comes. -/
theorem keys_foldl_merge (c : Chunk) (later : List Chunk) :
    (later.foldl merge c).options.keys = distinct ((c :: later).flatMap (·.options.keys)) := by
  induction later using List.reverseRecOn with
  | nil =>
    rw [List.foldl_nil, List.flatMap_singleton]
    exact (distinct_eq_self c.options.nodup).symm
  | append_singleton later l ih =>
    have merged : ((later.foldl merge c).merge l).options.keys =
        distinct ((later.foldl merge c).options.keys ++ l.options.keys) :=
      Options.keys_overlay _ l.options
    rw [List.foldl_concat, merged, ih, distinct_distinct_append, ← List.cons_append,
      List.flatMap_append, List.flatMap_singleton]

end Chunk

namespace Document

theorem collect_eq (d : Document) :
    d.collect = ⟨({} : Table).warnings (d.chunks.filter Table.accepts), .ok d.table⟩ := by
  show Traced.mk (({} : Table).warnings (d.chunks.filter Table.accepts) ++ []) (.ok d.table) = _
  rw [List.append_nil]

/-- The definitions of a name alone warn as they do in the whole document. -/
theorem events_definitions (d : Document) (name : Text) :
    d.collect.events.filter (Event.warnsOf name) =
      (⟨d.definitions name, none⟩ : Document).collect.events := by
  have accepted : (d.definitions name).filter Table.accepts = d.definitions name := by
    apply List.filter_eq_self.2
    intro c hc
    rw [definitions_eq] at hc
    exact (List.mem_filter.1 (List.mem_filter.1 hc).1).2
  rw [collect_eq, collect_eq, accepted, definitions_eq]
  exact Table.warnings_filter rfl _

theorem options_of_get? {d : Document} {name : Text} {c : Chunk}
    (h : d.table.get? name = some c) :
    c.options.keys = distinct ((d.definitions name).flatMap (·.options.keys)) ∧
      ∀ key, c.options.get? key = Chunk.lastValue? (d.definitions name) key := by
  rw [get?_table] at h
  refine ⟨?_, Chunk.get?_mergeAll h⟩
  cases definitions : d.definitions name with
  | nil => simp [definitions, Chunk.mergeAll?] at h
  | cons first later =>
    rw [definitions] at h
    obtain rfl := Option.some.inj h
    exact Chunk.keys_foldl_merge first later

end Document

/-- A chunk comes with a warning exactly if it changes the value of an option that the definitions of
its name before it have, and the warning lists the options it changes, in its own order. They are the
options of a code chunk that has another value for them than the last definition of the same name that
has any, so that prose and other names neither warn nor matter to the warnings of a name. In the end a
name has every option that its definitions declare, once, in the order of the first declarations, with
the value that was declared last. -/
theorem Document.collect_warns_of_changes (d : Document) :
    d.collect.outcome = .ok d.table ∧
    d.collect.events = d.chunks.zipIdx.filterMap (fun p => d.warning? p.2 p.1) ∧
    (∀ i c, d.chunks[i]? = some c →
      (d.warning? i c ≠ none ↔
        ∃ key, (d.upTo i).table.Changes (d.upTo (i + 1)).table c.name key) ∧
      ∀ key,
        (key ∈ d.changedKeys i c ↔
          (d.upTo i).table.Changes (d.upTo (i + 1)).table c.name key) ∧
        (key ∈ d.changedKeys i c ↔ Table.accepts c = true ∧ ∃ old new,
          Chunk.lastValue? ((d.upTo i).definitions c.name) key = some old ∧
          c.options.get? key = some new ∧ old ≠ new)) ∧
    (∀ name, d.collect.events.filter (Event.warnsOf name) =
      (⟨d.definitions name, none⟩ : Document).collect.events) ∧
    ∀ name, d.definitions name ≠ [] →
      let declared := (d.definitions name).flatMap (·.options.keys)
      ∃ c, d.table.get? name = some c ∧ c.options.keys.Nodup ∧
        (∀ key, key ∈ c.options.keys ↔ key ∈ declared) ∧
        c.options.keys.Pairwise (fun a b => declared.idxOf a < declared.idxOf b) ∧
        ∀ key, c.options.get? key = Chunk.lastValue? (d.definitions name) key := by
  refine ⟨?_, ?_, ?_, d.events_definitions, ?_⟩
  · rw [collect_eq]
  · rw [collect_eq]
    exact @warnings_eq d [] d.chunks rfl
  · intro i c hc
    refine ⟨warning?_ne_none_iff hc, fun key => ⟨mem_changedKeys_iff hc, ?_⟩⟩
    exact (mem_changedKeys_iff hc).trans (changes_iff hc key)
  · intro name defined declared
    have some : d.table.get? name ≠ none := by
      intro none
      exact defined (definitions_eq_nil_of_get? none)
    obtain ⟨c, found⟩ := Option.ne_none_iff_exists'.1 some
    obtain ⟨keys, values⟩ := options_of_get? found
    refine ⟨c, found, ?_, ?_, ?_, values⟩
    · rw [keys]
      exact nodup_distinct declared
    · intro key
      rw [keys, mem_distinct]
    · rw [keys]
      exact pairwise_distinct declared

/-- A value that is changed and restored among definitions of another name and prose, options that are
new or given again, and a definition that changes two options in another order than they first came. -/
theorem Document.collect_warns_of_changes_restored :
    let a : Chunk := { kind := .code, name := ['a']
                       options := .ofList [(['k'], ['1']), (['l'], ['2'])], loc := { line := 1 } }
    let b : Chunk := { kind := .code, name := ['b'], options := .ofList [(['k'], ['9'])] }
    let prose : Chunk := { kind := .doc, name := ['a'], options := .ofList [(['k'], ['7'])] }
    let a' : Chunk := { kind := .code, name := ['a']
                        options := .ofList [(['m'], ['4']), (['k'], ['3'])], loc := { line := 5 } }
    let a'' : Chunk := { kind := .code, name := ['a']
                         options := .ofList [(['l'], ['2']), (['k'], ['1'])], loc := { line := 8 } }
    let last : Chunk := { kind := .code, name := ['a']
                          options :=
                            .ofList [(['n'], []), (['m'], ['5']), (['k'], ['1']), (['l'], ['8'])]
                          loc := { line := 11 } }
    let d : Document := { chunks := [a, b, prose, a', a'', b, last] }
    d.collect.events = [.overridden ['a'] { line := 5 } [['k']],
      .overridden ['a'] { line := 8 } [['k']], .overridden ['a'] { line := 11 } [['m'], ['l']]] ∧
    d.definitions ['a'] ≠ [] ∧
    ∃ c, d.table.get? ['a'] = some c ∧ c.options.keys.Nodup ∧
      (['n'] ∈ c.options.keys ↔ ['n'] ∈ [['k'], ['l'], ['m'], ['n']]) ∧
      c.options.get? ['k'] = some ['1'] ∧ c.options.get? ['l'] = some ['8'] := by
  intro a b prose a' a'' last d
  have defined : d.definitions ['a'] ≠ [] := by decide
  obtain ⟨_, events, _, _, ends⟩ := collect_warns_of_changes d
  obtain ⟨c, found, nodup, keys, _, values⟩ := ends ['a'] defined
  refine ⟨?_, defined, c, found, nodup, ?_, ?_, ?_⟩
  · rw [events]
    decide
  · rw [keys]
    decide
  · rw [values]
    decide
  · rw [values]
    decide

end Literate
