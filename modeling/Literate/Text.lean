namespace Literate

/-- Text is the list of its characters, one for each Unicode scalar value. -/
abbrev Text := List Char

namespace Text

def str (t : Text) : String := String.ofList t

def isBlank (c : Char) : Bool := c == ' ' || c == '\t'

/-- The Unicode property `White_Space`. -/
def isSpace (c : Char) : Bool :=
  let n := c.toNat
  (0x9 ≤ n && n ≤ 0xD) || n == 0x20 || n == 0x85 || n == 0xA0 || n == 0x1680 ||
    (0x2000 ≤ n && n ≤ 0x200A) || n == 0x2028 || n == 0x2029 || n == 0x202F ||
    n == 0x205F || n == 0x3000

def byteSize (t : Text) : Nat := t.foldl (fun n c => n + c.utf8Size) 0

def trimStart (t : Text) : Text := t.dropWhile isSpace

def trimEnd (t : Text) : Text := (t.reverse.dropWhile isSpace).reverse

def trim (t : Text) : Text := trimEnd (trimStart t)

/-- Reads a carriage return in front of a line break as part of it. -/
def unifyBreaks : Text → Text
  | '\r' :: '\n' :: rest => '\n' :: unifyBreaks rest
  | c :: rest => c :: unifyBreaks rest
  | [] => []

def firstLine : Text → Text
  | [] => []
  | '\n' :: _ => []
  | '\r' :: '\n' :: _ => []
  | c :: rest => c :: firstLine rest

def splitOn (sep : Char) : Text → List Text
  | [] => [[]]
  | c :: rest =>
    match splitOn sep rest with
    | [] => [[c]]
    | piece :: pieces => if c = sep then [] :: piece :: pieces else (c :: piece) :: pieces

/-- Repeats the indent after every line break. -/
def indentLines (indent t : Text) : Text :=
  t.flatMap fun c => if c = '\n' then '\n' :: indent else [c]

def isAtMost : Text → Text → Bool
  | [], _ => true
  | _ :: _, [] => false
  | a :: as, b :: bs => a.toNat < b.toNat || (a == b && isAtMost as bs)

def sort (ts : List Text) : List Text := ts.mergeSort isAtMost

end Text

/-- A place in a source: the line and column of a character, both counted from one. -/
structure Location where
  path : Option Text := none
  line : Nat := 1
  column : Nat := 1
deriving DecidableEq

namespace Location

def start (path : Option Text) : Location := { path }

def step (l : Location) (c : Char) : Location :=
  if c = '\n' then { l with line := l.line + 1, column := 1 } else { l with column := l.column + 1 }

def advance (l : Location) (t : Text) : Location := t.foldl step l

def render (l : Location) : String :=
  match l.path with
  | some path => s!"{path.str}:{l.line}:{l.column}"
  | none => s!"line {l.line}:{l.column}"

def report (l : Location) (what : String) : String := s!"Syntax error at {l.render}: {what}"

end Location

end Literate
