import Literate.Options

namespace Literate

inductive ChunkKind where
  | doc
  | code
deriving DecidableEq

/-- A piece of a chunk's content. A reference's indent goes in front of every line of what it
stands for. -/
inductive Segment where
  | text (t : Text)
  | reference (name indent : Text) (loc : Location)
deriving DecidableEq

namespace Segment

def isReference : Segment → Bool
  | .text _ => false
  | .reference .. => true

def name? : Segment → Option Text
  | .text _ => none
  | .reference name _ _ => some name

/-- Appends a segment; text next to text becomes one segment. -/
def push : List Segment → Segment → List Segment
  | [], g => [g]
  | [.text s], .text t => [.text (s ++ t)]
  | x :: xs, g => x :: push xs g

def cons : Segment → List Segment → List Segment
  | .text s, .text t :: rest => .text (s ++ t) :: rest
  | g, rest => g :: rest

def coalesce (gs : List Segment) : List Segment := gs.foldr cons []

end Segment

structure Chunk where
  kind : ChunkKind
  /-- Empty for loose text between the named chunks. -/
  name : Text
  options : Options := {}
  content : List Segment := []
  loc : Location := {}
deriving DecidableEq

namespace Chunk

def rootName : Text := ['*']

def wrapper (g : Segment) (loc : Location) : Chunk :=
  { kind := .doc, name := [], content := [g], loc }

def push (c : Chunk) (g : Segment) : Chunk := { c with content := Segment.push c.content g }

def isCode (c : Chunk) : Bool := c.kind = .code

def isAnonymous (c : Chunk) : Bool := c.name.isEmpty

def out? (c : Chunk) : Option Text := c.options.out?

def isTerminal (c : Chunk) : Bool := c.out?.isSome

def references (c : Chunk) : List Text := c.content.filterMap Segment.name?

/-- The content of both, in order. A body ends before the line break of its last line, so the
break is put back between two bodies that are not empty. -/
def mergeContent (first later : List Segment) : List Segment :=
  let start := if first.isEmpty || later.isEmpty then first else Segment.push first (.text ['\n'])
  later.foldl Segment.push start

def merge (c later : Chunk) : Chunk :=
  { c with content := mergeContent c.content later.content
           options := c.options.overlay later.options }

end Chunk

/-- The chunks of one source, in order. Definitions of one name stay apart here. -/
structure Document where
  chunks : List Chunk
  path : Option Text := none
deriving DecidableEq

/-- Each element once, at its first place. -/
def distinct {α : Type} [BEq α] (xs : List α) : List α :=
  xs.foldl (fun seen x => if seen.contains x then seen else seen ++ [x]) []

namespace Document

/-- The first chunk of a name, of either kind. Loose text is never found. -/
def first? (d : Document) (name : Text) : Option Chunk :=
  if name.isEmpty then none else d.chunks.find? fun c => c.name = name

def docNames (d : Document) : List Text :=
  distinct ((d.chunks.filter fun c => !c.isCode && !c.isAnonymous).map (·.name))

end Document

end Literate
