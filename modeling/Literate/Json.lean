import Literate.Text

namespace Literate

inductive Json where
  | str (t : Text)
  | num (n : Nat)
  | arr (items : List Json)
  | obj (fields : List (Text × Json))

namespace Json

def hexDigit (n : Nat) : Char := "0123456789abcdef".toList.getD n '0'

/-- Quotes, backslashes and control characters are escaped, all else stands as it is. -/
def escape (c : Char) : Text :=
  match c with
  | '"' => ['\\', '"']
  | '\\' => ['\\', '\\']
  | '\n' => ['\\', 'n']
  | '\r' => ['\\', 'r']
  | '\t' => ['\\', 't']
  | '\x08' => ['\\', 'b']
  | '\x0c' => ['\\', 'f']
  | c =>
    let n := c.toNat
    if n < 0x20 then ['\\', 'u', '0', '0', hexDigit (n / 16), hexDigit (n % 16)] else [c]

def quote (t : Text) : Text := '"' :: t.flatMap escape ++ ['"']

mutual

def compact : Json → Text
  | .str t => quote t
  | .num n => (toString n).toList
  | .arr items => '[' :: [','].intercalate (compactItems items) ++ [']']
  | .obj fields => '\x7b' :: [','].intercalate (compactFields fields) ++ ['\x7d']

def compactItems : List Json → List Text
  | [] => []
  | j :: rest => compact j :: compactItems rest

def compactFields : List (Text × Json) → List Text
  | [] => []
  | (key, j) :: rest => (quote key ++ ':' :: compact j) :: compactFields rest

end

def lineAt (level : Nat) : Text := '\n' :: List.replicate (2 * level) ' '

/-- The items of a list between brackets, each on a line of its own. -/
def block (level : Nat) (opening closing : Char) (items : List Text) : Text :=
  if items.isEmpty then [opening, closing]
  else
    opening :: lineAt (level + 1) ++ (',' :: lineAt (level + 1)).intercalate items ++
      lineAt level ++ [closing]

mutual

def prettyAt (level : Nat) : Json → Text
  | .str t => quote t
  | .num n => (toString n).toList
  | .arr items => block level '[' ']' (prettyItems (level + 1) items)
  | .obj fields => block level '\x7b' '\x7d' (prettyFields (level + 1) fields)

def prettyItems (level : Nat) : List Json → List Text
  | [] => []
  | j :: rest => prettyAt level j :: prettyItems level rest

def prettyFields (level : Nat) : List (Text × Json) → List Text
  | [] => []
  | (key, j) :: rest => (quote key ++ ':' :: ' ' :: prettyAt level j) :: prettyFields level rest

end

def pretty (j : Json) : Text := prettyAt 0 j

end Json

end Literate
