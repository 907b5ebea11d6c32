import Literate.Text

namespace Literate.Toml

/-- The characters that may stand for themselves: all but the control characters other than tab. -/
def isVisible (c : Char) : Bool := c == '\t' || (0x20 ≤ c.toNat && c.toNat != 0x7F)

def skipBlanks (t : Text) : Text := t.dropWhile Text.isBlank

def lineBreak? : Text → Option Text
  | '\n' :: rest => some rest
  | '\r' :: '\n' :: rest => some rest
  | _ => none

def skipComment : Text → Text
  | '#' :: rest => rest.dropWhile isVisible
  | t => t

def lineEnd? (t : Text) : Option Text :=
  match skipComment (skipBlanks t) with
  | [] => some []
  | rest => lineBreak? rest

theorem length_lt_of_lineBreak? {t rest : Text} (h : lineBreak? t = some rest) :
    rest.length < t.length := by
  unfold lineBreak? at h
  split at h
  · cases h; simp
  · cases h; simp only [List.length_cons]; omega
  · simp at h

theorem length_skipBlanks_le (t : Text) : (skipBlanks t).length ≤ t.length :=
  (List.dropWhile_suffix _).length_le

theorem length_skipComment_le (t : Text) : (skipComment t).length ≤ t.length := by
  unfold skipComment
  split
  · rename_i rest
    have := (List.dropWhile_suffix isVisible (l := rest)).length_le
    simp only [List.length_cons]
    omega
  · simp

/-- Skips blanks, line breaks and comments. A comment has to end with a line break. -/
def skipVoid? (t : Text) : Option Text :=
  match _h : skipComment (skipBlanks t) with
  | '\n' :: rest => skipVoid? rest
  | '\r' :: '\n' :: rest => skipVoid? rest
  | rest => if rest = skipBlanks t && rest.head? != some '\r' then some rest else none
termination_by t.length
decreasing_by
  all_goals
    have := length_skipBlanks_le t
    have := length_skipComment_le (skipBlanks t)
    rw [_h] at this
    simp only [List.length_cons] at this
    omega

def skipBreaks : Text → Text
  | '\r' :: '\n' :: rest => skipBreaks rest
  | c :: rest => if c == '\n' || Text.isBlank c then skipBreaks rest else c :: rest
  | [] => []

def digit? (c : Char) : Option Nat :=
  let n := c.toNat
  if '0'.toNat ≤ n && n ≤ '9'.toNat then some (n - '0'.toNat)
  else if 'a'.toNat ≤ n && n ≤ 'f'.toNat then some (n - 'a'.toNat + 10)
  else if 'A'.toNat ≤ n && n ≤ 'F'.toNat then some (n - 'A'.toNat + 10)
  else none

def isDigit (base : Nat) (c : Char) : Bool := (digit? c).any (· < base)

def numeral (base : Nat) (t : Text) : Nat := t.foldl (fun n c => n * base + (digit? c).getD 0) 0

/-- The character with the given hexadecimal number, which has to be a scalar value. -/
def scalar? (t : Text) : Option Char :=
  let n := numeral 16 t
  if t.all (isDigit 16) && n.isValidChar then some (Char.ofNat n) else none

def shortEscape? : Char → Option Char
  | 'b' => some '\x08'
  | 't' => some '\t'
  | 'n' => some '\n'
  | 'f' => some '\x0c'
  | 'r' => some '\r'
  | '"' => some '"'
  | '\\' => some '\\'
  | _ => none

/-- The character that an escape stands for, given the text after the backslash. -/
def escape? : Text → Option (Char × Text)
  | 'u' :: rest => (scalar? (rest.take 4)).bind fun c =>
    if 4 ≤ rest.length then some (c, rest.drop 4) else none
  | 'U' :: rest => (scalar? (rest.take 8)).bind fun c =>
    if 8 ≤ rest.length then some (c, rest.drop 8) else none
  | c :: rest => (shortEscape? c).map (·, rest)
  | [] => none

theorem length_le_of_escape? {t rest : Text} {c : Char} (h : escape? t = some (c, rest)) :
    rest.length ≤ t.length := by
  unfold escape? at h
  split at h
  · obtain ⟨d, _, h⟩ := Option.bind_eq_some_iff.1 h
    split at h <;> simp at h
    rw [← h.2]
    simp
    omega
  · obtain ⟨d, _, h⟩ := Option.bind_eq_some_iff.1 h
    split at h <;> simp at h
    rw [← h.2]
    simp
    omega
  · obtain ⟨d, _, h⟩ := Option.map_eq_some_iff.1 h
    simp at h
    simp [← h.2]
  · simp at h

/-- A string on one line, after its opening quote: what it holds, and the text after it. -/
def oneLine (t : Text) : Option (Text × Text) :=
  match t with
  | [] => none
  | '"' :: rest => some ([], rest)
  | '\\' :: rest =>
    match _h : escape? rest with
    | none => none
    | some (c, rest) => (oneLine rest).map fun (s, rest) => (c :: s, rest)
  | c :: rest => if isVisible c then (oneLine rest).map fun (s, rest) => (c :: s, rest) else none
termination_by t.length
decreasing_by
  · have := length_le_of_escape? _h
    simp only [List.length_cons]
    omega
  · simp

/-- A string over several lines, after its opening quotes. Up to two quotes may stand right before
the closing ones. Escapes are read if `escapes` is set; a backslash at the end of a line then joins
it to the next text. -/
def manyLines (quote : Char) (escapes : Bool) (t : Text) : Option (Text × Text) :=
  match t with
  | [] => none
  | c :: rest =>
    if (c :: rest).take 5 = List.replicate 5 quote then some ([quote, quote], rest.drop 4)
    else if (c :: rest).take 4 = List.replicate 4 quote then some ([quote], rest.drop 3)
    else if (c :: rest).take 3 = List.replicate 3 quote then some ([], rest.drop 2)
    else if escapes && c == '\\' then
      match _h : lineBreak? (skipBlanks rest) with
      | some below => manyLines quote escapes (skipBreaks below)
      | none =>
        match _h : escape? rest with
        | none => none
        | some (c, rest) => (manyLines quote escapes rest).map fun (s, rest) => (c :: s, rest)
    else
      match _h : lineBreak? (c :: rest) with
      | some below => (manyLines quote escapes below).map fun (s, rest) => ('\n' :: s, rest)
      | none =>
        if isVisible c then (manyLines quote escapes rest).map fun (s, rest) => (c :: s, rest)
        else none
termination_by t.length
decreasing_by
  · have := length_lt_of_lineBreak? _h
    have := length_skipBlanks_le rest
    have skipped : ∀ u : Text, (skipBreaks u).length ≤ u.length := by
      intro u
      fun_induction skipBreaks u <;> simp_all <;> omega
    have := skipped below
    simp only [List.length_cons]
    omega
  · have := length_le_of_escape? _h
    simp only [List.length_cons]
    omega
  · exact length_lt_of_lineBreak? _h
  · simp

def verbatim (t : Text) : Option (Text × Text) :=
  let isInner (c : Char) : Bool := isVisible c && c != '\''
  match t.dropWhile isInner with
  | '\'' :: rest => some (t.takeWhile isInner, rest)
  | _ => none

/-- A line break right after the opening quotes is not part of the string. -/
def skipFirstBreak (t : Text) : Text := (lineBreak? t).getD t

def string? : Text → Option (Text × Text)
  | '"' :: '"' :: '"' :: rest => manyLines '"' true (skipFirstBreak rest)
  | '"' :: rest => oneLine rest
  | '\'' :: '\'' :: '\'' :: rest => manyLines '\'' false (skipFirstBreak rest)
  | '\'' :: rest => verbatim rest
  | _ => none

def isBare (c : Char) : Bool := c.isAlphanum || c == '-' || c == '_'

def keyPart? : Text → Option (Text × Text)
  | '"' :: rest => oneLine rest
  | '\'' :: rest => verbatim rest
  | t =>
    let part := t.takeWhile isBare
    if part.isEmpty then none else some (part, t.dropWhile isBare)

/-- How many levels arrays, tables and keys may go down. -/
def maxDepth : Nat := 79

/-- The parts of a key, with dots between them. The first argument bounds their number. -/
def keyParts : Nat → Text → Option (List Text × Text)
  | 0, _ => none
  | n + 1, t =>
    match keyPart? (skipBlanks t) with
    | none => none
    | some (part, rest) =>
      match skipBlanks rest with
      | '.' :: rest => (keyParts n rest).map fun (parts, rest) => (part :: parts, rest)
      | rest => some ([part], rest)

def key? (t : Text) : Option ((List Text × Text) × Text) :=
  match keyParts maxDepth t with
  | none => none
  | some (parts, rest) => parts.getLast?.map fun last => ((parts.dropLast, last), rest)

end Literate.Toml
