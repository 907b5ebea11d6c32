import Literate.Proofs.Options
import Literate.Table

namespace Literate

namespace Options

theorem lookup?_cons (k v key : Text) (es : List (Text × Text)) :
    lookup? ((k, v) :: es) key = if k = key then some v else lookup? es key := by
  by_cases h : k = key
  · simp [lookup?, h]
  · simp [lookup?, h]

theorem get?_insert (o : Options) (k v key : Text) :
    (o.insert k v).get? key = if k = key then some v else o.get? key := by
  show lookup? (insertEntry k v o.entries) key = if k = key then some v else lookup? o.entries key
  generalize o.entries = es
  fun_induction insertEntry k v es with
  | case1 => exact lookup?_cons k v key []
  | case2 v' rest =>
    rw [lookup?_cons, lookup?_cons]
    by_cases h : k = key
    · rw [if_pos h, if_pos h]
    · rw [if_neg h, if_neg h, if_neg h]
  | case3 k' v' rest other ih =>
    rw [lookup?_cons, ih, lookup?_cons]
    by_cases h : k = key
    · have h' : k' ≠ key := fun same => other (same.trans h.symm)
      rw [if_pos h, if_neg h', if_pos h]
    · rw [if_neg h, if_neg h]

theorem lookup?_eq_none {es : List (Text × Text)} {key : Text} (h : key ∉ es.map Prod.fst) :
    lookup? es key = none := by
  rw [lookup?, Option.map_eq_none_iff, List.find?_eq_none]
  intro e he same
  exact h (List.mem_map.2 ⟨e, he, by simpa using same⟩)

theorem get?_foldl_insert {es : List (Text × Text)} (h : (es.map Prod.fst).Nodup) (o : Options)
    (key : Text) :
    (es.foldl (fun o e => o.insert e.1 e.2) o).get? key = (lookup? es key).or (o.get? key) := by
  induction es generalizing o with
  | nil => rfl
  | cons e es ih =>
    obtain ⟨k, v⟩ := e
    obtain ⟨new, distinct⟩ := List.nodup_cons.1 h
    rw [List.foldl_cons, ih distinct, get?_insert, lookup?_cons]
    by_cases hk : k = key
    · subst hk
      rw [if_pos rfl, if_pos rfl, lookup?_eq_none new]
      rfl
    · rw [if_neg hk, if_neg hk]

/-- A later value wins. -/
theorem get?_overlay (o later : Options) (key : Text) :
    (o.overlay later).get? key = (later.get? key).or (o.get? key) :=
  get?_foldl_insert later.nodup o key

end Options

theorem nodup_of_idxOf_lt {α : Type} [BEq α] {all xs : List α}
    (h : xs.Pairwise fun a b => all.idxOf a < all.idxOf b) : xs.Nodup := by
  refine h.imp ?_
  rintro a b less rfl
  exact Nat.lt_irrefl _ less

section Distinct

variable {α : Type} [BEq α] [LawfulBEq α]

theorem distinct_append_singleton (xs : List α) (x : α) :
    distinct (xs ++ [x]) =
      if (distinct xs).contains x then distinct xs else distinct xs ++ [x] := by
  simp [distinct, List.foldl_append]

theorem mem_distinct {xs : List α} {a : α} : a ∈ distinct xs ↔ a ∈ xs := by
  induction xs using List.reverseRecOn with
  | nil => rfl
  | append_singleton xs x ih =>
    rw [distinct_append_singleton, List.mem_append, List.mem_singleton]
    split
    · rename_i old
      have inside : x ∈ distinct xs := List.contains_iff_mem.1 old
      constructor
      · exact fun h => Or.inl (ih.1 h)
      · rintro (h | rfl)
        · exact ih.2 h
        · exact inside
    · rw [List.mem_append, List.mem_singleton, ih]

/-- The elements stand in the order of their first places. -/
theorem pairwise_distinct (xs : List α) :
    (distinct xs).Pairwise fun a b => xs.idxOf a < xs.idxOf b := by
  induction xs using List.reverseRecOn with
  | nil => exact .nil
  | append_singleton xs x ih =>
    have kept (a : α) (ha : a ∈ distinct xs) : (xs ++ [x]).idxOf a = xs.idxOf a :=
      List.idxOf_append_of_mem (mem_distinct.1 ha)
    have order : (distinct xs).Pairwise fun a b => (xs ++ [x]).idxOf a < (xs ++ [x]).idxOf b := by
      refine ih.imp_of_mem ?_
      intro a b ha hb less
      rwa [kept a ha, kept b hb]
    rw [distinct_append_singleton]
    split
    · exact order
    · rename_i new
      refine List.pairwise_append.2 ⟨order, List.pairwise_singleton _ _, ?_⟩
      intro a ha b hb
      obtain rfl := List.mem_singleton.1 hb
      have absent : b ∉ xs := fun hx => new (List.contains_iff_mem.2 (mem_distinct.2 hx))
      have early : xs.idxOf a < xs.length := List.idxOf_lt_length_of_mem (mem_distinct.1 ha)
      have last : (xs ++ [b]).idxOf b = xs.length := by
        simp [List.idxOf_append, absent]
      rw [kept a ha, last]
      exact early

end Distinct

namespace Chunk

/-- One more definition of a name, after those that were merged before. -/
def join : Option Chunk → Chunk → Option Chunk
  | none, c => some c
  | some earlier, c => some (earlier.merge c)

theorem foldl_join_some (c : Chunk) (later : List Chunk) :
    later.foldl join (some c) = some (later.foldl merge c) := by
  induction later generalizing c with
  | nil => rfl
  | cons l later ih => exact ih (c.merge l)

/-- Several definitions as one chunk: the later ones are merged into the first. -/
def mergeAll? : List Chunk → Option Chunk
  | [] => none
  | c :: later => some (later.foldl merge c)

theorem mergeAll?_eq_none_iff {cs : List Chunk} : mergeAll? cs = none ↔ cs = [] := by
  cases cs with
  | nil => simp [mergeAll?]
  | cons c later => simp [mergeAll?]

theorem foldl_join_none (cs : List Chunk) : cs.foldl join none = mergeAll? cs := by
  cases cs with
  | nil => rfl
  | cons c later => exact foldl_join_some c later

end Chunk

namespace Table

theorem get?_cons (e : Entry) (es : List Entry) (name : Text) :
    get? ⟨e :: es⟩ name = if e.chunk.name = name then some e.chunk else get? ⟨es⟩ name := by
  by_cases h : e.chunk.name = name
  · simp [get?, entry?, h]
  · simp [get?, entry?, h]

theorem get?_add (t : Table) (c : Chunk) (name : Text) :
    (t.add c).get? name = if c.name = name then Chunk.join (t.get? name) c else t.get? name := by
  obtain ⟨es⟩ := t
  show get? ⟨addEntry c es⟩ name = _
  fun_induction addEntry c es with
  | case1 => exact get?_cons ⟨c, 1⟩ [] name
  | case2 e rest same =>
    rw [get?_cons, get?_cons, ← same]
    by_cases h : e.chunk.name = name
    · have h' : (e.chunk.merge c).name = name := h
      rw [if_pos h, if_pos h, if_pos h']
      rfl
    · have h' : (e.chunk.merge c).name ≠ name := h
      rw [if_neg h, if_neg h, if_neg h']
  | case3 e rest other ih =>
    rw [get?_cons, ih, get?_cons]
    by_cases h : e.chunk.name = name
    · have h' : c.name ≠ name := fun same => other (h.trans same.symm)
      rw [if_pos h, if_neg h', if_pos h]
    · rw [if_neg h, if_neg h]

/-- Only the definitions of a name come into its entry, in their order. -/
theorem get?_foldl_add (t : Table) (cs : List Chunk) (name : Text) :
    (cs.foldl add t).get? name = (cs.filter (·.name = name)).foldl Chunk.join (t.get? name) := by
  induction cs generalizing t with
  | nil => rfl
  | cons c cs ih =>
    rw [List.foldl_cons, ih, get?_add]
    by_cases h : c.name = name
    · rw [if_pos h, List.filter_cons_of_pos (by simpa using h), List.foldl_cons]
    · rw [if_neg h, List.filter_cons_of_neg (by simpa using h)]

def names (t : Table) : List Text := t.chunks.map (·.name)

theorem names_addEntry (c : Chunk) (es : List Entry) :
    names ⟨addEntry c es⟩ =
      if (names ⟨es⟩).contains c.name then names ⟨es⟩ else names ⟨es⟩ ++ [c.name] := by
  fun_induction addEntry c es with
  | case1 => rfl
  | case2 e rest same => simp [names, chunks, same, Chunk.merge]
  | case3 e rest other ih =>
    have first : ∀ fs : List Entry, names ⟨e :: fs⟩ = e.chunk.name :: names ⟨fs⟩ := fun _ => rfl
    rw [first, first, ih, List.contains_cons]
    have differs : (c.name == e.chunk.name) = false := beq_eq_false_iff_ne.2 (Ne.symm other)
    rw [differs, Bool.false_or]
    split
    · rfl
    · rfl

theorem names_foldl_add (cs : List Chunk) :
    (cs.foldl add {}).names = distinct (cs.map (·.name)) := by
  induction cs using List.reverseRecOn with
  | nil => rfl
  | append_singleton cs c ih =>
    rw [List.foldl_concat, List.map_append, List.map_singleton, distinct_append_singleton, ← ih]
    exact names_addEntry c _

theorem get?_of_mem {t : Table} {c : Chunk} (h : t.names.Nodup) (hc : c ∈ t.chunks) :
    t.get? c.name = some c := by
  obtain ⟨es⟩ := t
  induction es with
  | nil => simp [chunks] at hc
  | cons e es ih =>
    obtain ⟨new, distinct⟩ := List.nodup_cons.1 h
    rw [get?_cons]
    rcases List.mem_cons.1 hc with rfl | hc
    · rw [if_pos rfl]
    · have other : e.chunk.name ≠ c.name := fun same => new (List.mem_map.2 ⟨c, hc, same.symm⟩)
      rw [if_neg other]
      exact ih distinct hc

end Table

/-- Whether a chunk is code of this name. -/
def Chunk.defines (c : Chunk) (name : Text) : Bool := c.isCode && c.name = name

namespace Document

/-- The code chunks of a name, in order. The empty name has none. -/
def definitions (d : Document) (name : Text) : List Chunk :=
  if name = [] then [] else d.chunks.filter (·.defines name)

/-- The names of the code chunks in order, each as often as it is defined. -/
def definedNames (d : Document) : List Text := (d.chunks.filter Table.accepts).map (·.name)

theorem definitions_eq (d : Document) (name : Text) :
    d.definitions name = (d.chunks.filter Table.accepts).filter (·.name = name) := by
  unfold definitions
  rw [List.filter_filter]
  split
  · rename_i empty
    symm
    rw [List.filter_eq_nil_iff]
    intro c _ found
    have named : c.name = name ∧ c.isCode = true ∧ c.name ≠ [] := by
      simpa [Table.accepts, Chunk.isAnonymous] using found
    exact named.2.2 (named.1.trans empty)
  · rename_i nonempty
    apply List.filter_congr
    intro c _
    by_cases h : c.name = name
    · simp_all [Chunk.defines, Table.accepts, Chunk.isAnonymous]
    · simp [Chunk.defines, h]

/-- The table has all definitions of a name as one chunk. -/
theorem get?_table (d : Document) (name : Text) :
    d.table.get? name = Chunk.mergeAll? (d.definitions name) := by
  rw [definitions_eq, ← Chunk.foldl_join_none]
  exact Table.get?_foldl_add {} _ name

theorem names_table (d : Document) : d.table.names = distinct d.definedNames :=
  Table.names_foldl_add _

theorem mem_definedNames {d : Document} {name : Text} :
    name ∈ d.definedNames ↔ d.definitions name ≠ [] := by
  rw [definitions_eq, definedNames, List.mem_map, Ne, List.filter_eq_nil_iff]
  simp [and_assoc]

theorem mergeAll?_of_mem_table {d : Document} {c : Chunk} (h : c ∈ d.table.chunks) :
    Chunk.mergeAll? (d.definitions c.name) = some c := by
  have nodup : d.table.names.Nodup := by
    rw [names_table]
    exact nodup_of_idxOf_lt (pairwise_distinct d.definedNames)
  rw [← get?_table]
  exact Table.get?_of_mem nodup h

end Document

namespace Chunk

/-- The value that the last of the chunks with an option gives it. -/
def lastValue? (cs : List Chunk) (key : Text) : Option Text :=
  (cs.filterMap (·.options.get? key)).getLast?

theorem lastValue?_concat (cs : List Chunk) (c : Chunk) (key : Text) :
    lastValue? (cs ++ [c]) key = (c.options.get? key).or (lastValue? cs key) := by
  unfold lastValue?
  rw [List.filterMap_append, List.getLast?_append]
  congr 1
  cases h : c.options.get? key <;> simp [h]

theorem get?_foldl_merge (c : Chunk) (later : List Chunk) (key : Text) :
    (later.foldl merge c).options.get? key = lastValue? (c :: later) key := by
  induction later using List.reverseRecOn with
  | nil => cases hc : c.options.get? key <;> simp [lastValue?, hc]
  | append_singleton later l ih =>
    have merged : ((later.foldl merge c).merge l).options.get? key =
        (l.options.get? key).or ((later.foldl merge c).options.get? key) :=
      Options.get?_overlay _ _ key
    rw [List.foldl_concat, merged, ih, ← List.cons_append, lastValue?_concat]

/-- The last definition with an option says what its value is. -/
theorem get?_mergeAll {cs : List Chunk} {c : Chunk} (h : mergeAll? cs = some c) (key : Text) :
    c.options.get? key = lastValue? cs key := by
  cases cs with
  | nil => simp [mergeAll?] at h
  | cons first later =>
    obtain rfl := Option.some.inj h
    exact get?_foldl_merge first later key

theorem out?_mergeAll {cs : List Chunk} {c : Chunk} (h : mergeAll? cs = some c) :
    c.out? = (cs.filterMap out?).getLast? :=
  get?_mergeAll h Options.outKey

end Chunk

end Literate
