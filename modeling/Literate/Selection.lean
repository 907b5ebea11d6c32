import Literate.Expansion

namespace Literate

structure Selection where
  rule : Rule
  chunks : List Chunk

inductive Target where
  | file (path : Text)
  | print
deriving DecidableEq

structure Output where
  name : Text
  target : Target
  content : Text
deriving DecidableEq

namespace Target

def ofChunk (c : Chunk) : Target :=
  match c.out? with
  | some path => .file path
  | none => .print

def isFile : Target → Bool
  | .file _ => true
  | .print => false

def render : Target → Text
  | .file path => path
  | .print => "<stdout>".toList

end Target

namespace Table

def find (t : Table) (name : Text) : Except Fault Chunk :=
  match t.get? name with
  | some c => .ok c
  | none => .error (.notFound name)

/-- What was asked for; else the root chunk; else every chunk with an `out` option. -/
def select (t : Table) (requested : List Text) (root : Text) : Except Fault Selection :=
  if requested.isEmpty then
    match t.get? root with
    | some c => .ok ⟨.root, [c]⟩
    | none => if t.terminals.isEmpty then .error .noTarget else .ok ⟨.terminals, t.terminals⟩
  else do
    let chunks ← requested.mapM t.find
    return ⟨.requested, chunks⟩

end Table

namespace Scope

def output (s : Scope) (c : Chunk) : Traced Output := do
  let content ← s.expand c
  return { name := c.name, target := .ofChunk c, content }

def outputs (s : Scope) (requested : List Text) (root : Text) : Traced (List Output) := do
  let selection ← .ofExcept (s.table.select requested root)
  .report (.selected selection.chunks.length selection.rule)
  selection.chunks.mapM s.output

end Scope

end Literate
