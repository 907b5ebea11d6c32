import Literate.Text

namespace Literate

theorem Options.nodup_nil : (([] : List (Text × Text)).map Prod.fst).Nodup := List.nodup_nil

/-- The options of a chunk: keys with their values, in the order in which the keys first came. -/
@[ext]
structure Options where
  entries : List (Text × Text) := []
  nodup : (entries.map Prod.fst).Nodup := by exact Literate.Options.nodup_nil
deriving DecidableEq

namespace Options

/-- The value is replaced where the key already stands; a new key goes to the end. -/
def insertEntry (key value : Text) : List (Text × Text) → List (Text × Text)
  | [] => [(key, value)]
  | (k, v) :: rest => if k = key then (k, value) :: rest else (k, v) :: insertEntry key value rest

theorem mem_insertEntry {key value : Text} {es : List (Text × Text)} {e : Text × Text}
    (h : e ∈ insertEntry key value es) : e = (key, value) ∨ e ∈ es := by
  fun_induction insertEntry key value es with
  | case1 => exact Or.inl (List.mem_singleton.1 h)
  | case2 v rest =>
    rcases List.mem_cons.1 h with rfl | h
    · exact Or.inl rfl
    · exact Or.inr (List.mem_cons_of_mem _ h)
  | case3 k v rest other ih =>
    rcases List.mem_cons.1 h with rfl | h
    · exact Or.inr List.mem_cons_self
    · exact (ih h).imp_right (List.mem_cons_of_mem _)

theorem nodup_insertEntry {key value : Text} {es : List (Text × Text)}
    (h : (es.map Prod.fst).Nodup) : ((insertEntry key value es).map Prod.fst).Nodup := by
  fun_induction insertEntry key value es with
  | case1 => simp
  | case2 v rest => exact h
  | case3 k v rest other ih =>
    obtain ⟨new, later⟩ := List.nodup_cons.1 h
    refine List.nodup_cons.2 ⟨?_, ih later⟩
    intro again
    obtain ⟨e, he, same⟩ := List.mem_map.1 again
    rcases mem_insertEntry he with rfl | he
    · exact other same.symm
    · exact new (same ▸ List.mem_map_of_mem he)

def insert (o : Options) (key value : Text) : Options :=
  ⟨insertEntry key value o.entries, nodup_insertEntry o.nodup⟩

def ofList (entries : List (Text × Text)) : Options :=
  entries.foldl (fun o e => o.insert e.1 e.2) {}

def lookup? (entries : List (Text × Text)) (key : Text) : Option Text :=
  (entries.find? fun e => e.1 = key).map (·.2)

def get? (o : Options) (key : Text) : Option Text := lookup? o.entries key

def size (o : Options) : Nat := o.entries.length

def isEmpty (o : Options) : Bool := o.entries.isEmpty

/-- A later value wins, and an earlier key keeps its place. -/
def overlay (o later : Options) : Options :=
  later.entries.foldl (fun o e => o.insert e.1 e.2) o

/-- The keys of `later` whose values it would change, in the order of `later`. -/
def conflicts (o later : Options) : List Text :=
  (later.entries.filter fun e => (o.get? e.1).any (· ≠ e.2)).map (·.1)

def agrees (o other : Options) : Bool :=
  o.size == other.size && o.entries.all fun e => other.get? e.1 == some e.2

def outKey : Text := ['o', 'u', 't']

def out? (o : Options) : Option Text := o.get? outKey

end Options

end Literate
