import Literate.Toml.Value

namespace Literate.Toml

inductive Statement where
  | header (path : List Text) (key : Text)
  | element (path : List Text) (key : Text)
  | assignment (path : List Text) (key : Text) (v : Value)

def statement? (t : Text) : Option (Statement × Text) :=
  match t with
  | '[' :: '[' :: rest => do
    let ((path, key), rest) ← key? rest
    let rest ← expect? ']' rest
    let rest ← expect? ']' rest
    return (.element path key, ← lineEnd? rest)
  | '[' :: rest => do
    let ((path, key), rest) ← key? rest
    let rest ← expect? ']' rest
    return (.header path key, ← lineEnd? rest)
  | _ => do
    let ((path, key), rest) ← key? t
    let rest ← expect? '=' rest
    let (v, rest) ← value? (2 * rest.length + 2) maxDepth (skipBlanks rest)
    return (.assignment path key v, ← lineEnd? rest)

/-- The statements of a text. The first argument exceeds its length. -/
def statements : Nat → Text → Option (List Statement)
  | 0, _ => none
  | fuel + 1, t =>
    match skipBlanks t with
    | [] => some []
    | c :: rest =>
      if c == '#' || c == '\n' || c == '\r' then lineEnd? (c :: rest) >>= statements fuel
      else do
        let (s, rest) ← statement? (c :: rest)
        return s :: (← statements fuel rest)

/-- The table as read so far, and the path of the header that keys belong to. -/
structure Reading where
  fields : Fields := []
  current : List Text := []

def Reading.step (r : Reading) : Statement → Option Reading
  | .header path key => (Fields.openTable path key r.fields).map (⟨·, path ++ [key]⟩)
  | .element path key => (Fields.openElement path key r.fields).map (⟨·, path ++ [key]⟩)
  | .assignment path key v =>
    (Fields.alter false (fun _ => Fields.assign path key v) r.current false r.fields).map
      ({ r with fields := · })

def byteOrderMark : Char := '\uFEFF'

def read (t : Text) : Option (List (Text × Value)) := do
  let t := if t.head? = some byteOrderMark then t.tail else t
  let all ← statements (t.length + 1) t
  let reading ← all.foldlM Reading.step {}
  return fieldValues reading.fields

end Literate.Toml
