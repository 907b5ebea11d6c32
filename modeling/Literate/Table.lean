import Literate.Traced

namespace Literate

/-- All definitions of one name as one chunk, and how many there were. -/
structure Entry where
  chunk : Chunk
  definitions : Nat
deriving DecidableEq

/-- One entry for each name, in the order of the first definitions. -/
structure Table where
  entries : List Entry := []
deriving DecidableEq

namespace Table

def entry? (t : Table) (name : Text) : Option Entry := t.entries.find? fun e => e.chunk.name = name

def get? (t : Table) (name : Text) : Option Chunk := (t.entry? name).map (·.chunk)

def contains (t : Table) (name : Text) : Bool := (t.get? name).isSome

def definitions (t : Table) (name : Text) : Nat := (t.entry? name).elim 0 (·.definitions)

def chunks (t : Table) : List Chunk := t.entries.map (·.chunk)

def terminals (t : Table) : List Chunk := t.chunks.filter Chunk.isTerminal

def addEntry (c : Chunk) : List Entry → List Entry
  | [] => [⟨c, 1⟩]
  | e :: rest =>
    if e.chunk.name = c.name then ⟨e.chunk.merge c, e.definitions + 1⟩ :: rest
    else e :: addEntry c rest

def add (t : Table) (c : Chunk) : Table := ⟨addEntry c t.entries⟩

/-- Only named code goes into the table. -/
def accepts (c : Chunk) : Bool := c.isCode && !c.isAnonymous

def ofChunks (cs : List Chunk) : Table := (cs.filter accepts).foldl add {}

def overrides (t : Table) (c : Chunk) : List Text :=
  match t.get? c.name with
  | none => []
  | some earlier => earlier.options.conflicts c.options

def warnings (t : Table) : List Chunk → List Event
  | [] => []
  | c :: rest =>
    let keys := t.overrides c
    let later := (t.add c).warnings rest
    if keys.isEmpty then later else .overridden c.name c.loc keys :: later

end Table

namespace Document

def table (d : Document) : Table := .ofChunks d.chunks

/-- The table of a document, with a warning for each definition that changes options. -/
def collect (d : Document) : Traced Table := do
  .reportAll (({} : Table).warnings (d.chunks.filter Table.accepts))
  return d.table

end Document

end Literate
