import Literate.Toml.Number

namespace Literate.Toml

inductive Value where
  | string (t : Text)
  | boolean (b : Bool)
  | number (n : Number)
  | moment (written : Text)
  | array (items : List Value)
  | table (fields : List (Text × Value))

/-- How a table came about. Only one that no header and no braces have defined can still be
extended. -/
inductive Origin where
  | header
  /-- On the way to a longer header. -/
  | implied
  /-- On the way to a key with dots. -/
  | dotted
deriving DecidableEq

/-- What stands under a key of a table that is being put together. -/
inductive Node where
  | value (v : Value)
  | table (origin : Origin) (fields : List (Text × Node))
  /-- The elements of an array of tables, last one last. -/
  | tables (elements : List (List (Text × Node)))

abbrev Fields := List (Text × Node)

namespace Fields

def get? (fields : Fields) (key : Text) : Option Node :=
  (fields.find? fun e => e.1 = key).map (·.2)

def set (fields : Fields) (key : Text) (node : Node) : Fields :=
  if (get? fields key).isSome then fields.map fun e => if e.1 = key then (key, node) else e
  else fields ++ [(key, node)]

/-- Changes the table at the end of a path. Tables that are missing on the way are made, and of an
array of tables the last element is meant. `change` also gets to know whether a dotted key made the
table. -/
def alter (dotted : Bool) (change : Bool → Fields → Option Fields) :
    List Text → Bool → Fields → Option Fields
  | [], here, fields => change here fields
  | key :: path, _, fields =>
    match get? fields key with
    | none => do
      let inner ← alter dotted change path dotted []
      return set fields key (.table (if dotted then .dotted else .implied) inner)
    | some (.value _) => none
    | some (.table origin inner) =>
      if dotted && origin = .header then none
      else do
        let inner ← alter dotted change path (origin = .dotted) inner
        return set fields key (.table origin inner)
    | some (.tables elements) =>
      match elements.getLast? with
      | none => none
      | some last => do
        let last ← alter dotted change path false last
        return set fields key (.tables (elements.dropLast ++ [last]))

/-- Gives a key its value. A key cannot be given twice, and a key with dots cannot reach into a
table that was made another way. -/
def assign (path : List Text) (key : Text) (v : Value) (fields : Fields) : Option Fields :=
  let change (here : Bool) (inner : Fields) : Option Fields :=
    if here = path.isEmpty || (get? inner key).isSome then none
    else some (inner ++ [(key, .value v)])
  alter true change path false fields

def openTable (path : List Text) (key : Text) (fields : Fields) : Option Fields :=
  let change (_ : Bool) (inner : Fields) : Option Fields :=
    match get? inner key with
    | none => some (inner ++ [(key, .table .header [])])
    | some (.table .implied old) => some (set inner key (.table .header old))
    | _ => none
  alter false change path false fields

def openElement (path : List Text) (key : Text) (fields : Fields) : Option Fields :=
  let change (_ : Bool) (inner : Fields) : Option Fields :=
    match get? inner key with
    | none => some (inner ++ [(key, .tables [[]])])
    | some (.tables elements) => some (set inner key (.tables (elements ++ [[]])))
    | _ => none
  alter false change path false fields

end Fields

mutual

def Node.toValue : Node → Value
  | .value v => v
  | .table _ fields => .table (fieldValues fields)
  | .tables elements => .array (elementValues elements)

def fieldValues : List (Text × Node) → List (Text × Value)
  | [] => []
  | (key, node) :: rest => (key, node.toValue) :: fieldValues rest

def elementValues : List (List (Text × Node)) → List Value
  | [] => []
  | fields :: rest => .table (fieldValues fields) :: elementValues rest

end

def scalarValue? (t : Text) : Option (Value × Text) :=
  match t with
  | 't' :: 'r' :: 'u' :: 'e' :: rest => some (.boolean true, rest)
  | 'f' :: 'a' :: 'l' :: 's' :: 'e' :: rest => some (.boolean false, rest)
  | '"' :: _ | '\'' :: _ => (string? t).map fun (s, rest) => (.string s, rest)
  | _ =>
    if startsDate t || startsTime t then (moment? t).map fun (s, rest) => (.moment s, rest)
    else ((special? t).or (number? t)).map fun (n, rest) => (.number n, rest)

mutual

/-- A value at the front of a text. `depth` bounds how far down arrays and tables may go; the first
argument exceeds twice the length of the text. -/
def value? : Nat → Nat → Text → Option (Value × Text)
  | 0, _, _ => none
  | fuel + 1, depth, t =>
    match t, depth with
    | '[' :: rest, depth + 1 => (items? fuel depth rest).map fun (vs, rest) => (.array vs, rest)
    | '[' :: _, 0 => none
    | '\x7b' :: rest, depth + 1 =>
      match skipBlanks rest with
      | '\x7d' :: rest => some (.table [], rest)
      | _ => (fields? fuel depth [] rest).map fun (fs, rest) => (.table (fieldValues fs), rest)
    | '\x7b' :: _, 0 => none
    | t, _ => scalarValue? t

/-- The items of an array up to its closing bracket. The last one may have a comma too. -/
def items? : Nat → Nat → Text → Option (List Value × Text)
  | 0, _, _ => none
  | fuel + 1, depth, t => do
    match ← skipVoid? t with
    | ']' :: rest => return ([], rest)
    | t =>
      let (v, rest) ← value? fuel depth t
      match ← skipVoid? rest with
      | ']' :: rest => return ([v], rest)
      | ',' :: rest =>
        let (vs, rest) ← items? fuel depth rest
        return (v :: vs, rest)
      | _ => none

def fields? : Nat → Nat → Fields → Text → Option (Fields × Text)
  | 0, _, _, _ => none
  | fuel + 1, depth, fields, t => do
    let ((path, key), rest) ← key? t
    let rest ← expect? '=' rest
    let (v, rest) ← value? fuel depth (skipBlanks rest)
    let fields ← Fields.assign path key v fields
    match skipBlanks rest with
    | '\x7d' :: rest => return (fields, rest)
    | ',' :: rest => fields? fuel depth fields rest
    | _ => none

end

end Literate.Toml
