import Literate.Json
import Literate.Table

namespace Literate

/-- A name with code definitions. -/
structure Summary where
  name : Text
  definitions : Nat
  out : Option Text
  references : List Text
deriving DecidableEq

structure Listing where
  code : List Summary
  doc : List Text
deriving DecidableEq

namespace Listing

def summary (e : Entry) : Summary where
  name := e.chunk.name
  definitions := e.definitions
  out := e.chunk.out?
  references := distinct e.chunk.references

def ofTable (d : Document) (t : Table) : Listing where
  code := t.entries.map summary
  doc := d.docNames

def summaryLines (s : Summary) : List String :=
  let count := if s.definitions > 1 then s!" ({s.definitions} definitions)" else ""
  let out := match s.out with
    | some path => s!" -> {path.str}"
    | none => ""
  let uses := if s.references.isEmpty then []
    else ["      uses: " ++ ", ".intercalate (s.references.map Text.str)]
  s!"  {s.name.str}{count}{out}" :: uses

def lines (l : Listing) : List String :=
  let code := if l.code.isEmpty then ["No code chunks."]
    else "Code chunks:" :: l.code.flatMap summaryLines
  let doc := if l.doc.isEmpty then []
    else "Doc chunks:" :: l.doc.map fun name => s!"  {name.str}"
  code ++ doc

def render (l : Listing) : Text := l.lines.flatMap fun line => line.toList ++ ['\n']

def summaryJson (s : Summary) : Json :=
  let out := match s.out with
    | some path => [("out".toList, Json.str path)]
    | none => []
  .obj ([("name".toList, .str s.name), ("definitions".toList, .num s.definitions)] ++ out ++
    [("references".toList, .arr (s.references.map .str))])

def json (l : Listing) : Json :=
  .obj [("code".toList, .arr (l.code.map summaryJson)), ("doc".toList, .arr (l.doc.map .str))]

end Listing

namespace Document

def listing (d : Document) : Traced Listing := do
  let table ← d.collect
  return .ofTable d table

end Document

namespace Options

def json (o : Options) : Json := .obj (o.entries.map fun e => (e.1, .str e.2))

end Options

end Literate
