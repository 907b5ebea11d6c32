import Literate.Traced

namespace Literate

/-- A token read off the front of a text: the characters it took and those that are left. -/
structure Lexeme where
  token : Token
  source : Text
  rest : Text

namespace Lexeme

/-- The signs that begin with `@` and have one spelling. -/
def directive? : Text → Option Lexeme
  | '@' :: '@' :: rest => some ⟨.escapedAt, ['@', '@'], rest⟩
  | '@' :: 'c' :: 'o' :: 'd' :: 'e' :: rest => some ⟨.opening .code, ['@', 'c', 'o', 'd', 'e'], rest⟩
  | '@' :: 'd' :: 'o' :: 'c' :: rest => some ⟨.opening .doc, ['@', 'd', 'o', 'c'], rest⟩
  | '@' :: 'e' :: 'n' :: 'd' :: rest => some ⟨.closing, ['@', 'e', 'n', 'd'], rest⟩
  | _ => none

def inName (c : Char) : Bool := c != '>' && c != ']' && c != '\n'

/-- The blanks that end the line, or nothing if the line goes on after them. -/
def lineEndBlanks (t : Text) : Text :=
  match t.dropWhile Text.isBlank with
  | [] => t
  | '\n' :: _ => t.takeWhile Text.isBlank
  | _ => []

/-- A reference takes the blanks in front of it, and those behind it if they end the line. -/
def reference? (t : Text) : Option Lexeme :=
  let indent := t.takeWhile Text.isBlank
  match t.dropWhile Text.isBlank with
  | '@' :: '<' :: rest =>
    let name := rest.takeWhile inName
    match rest.dropWhile inName with
    | '>' :: rest =>
      let blanks := lineEndBlanks rest
      some ⟨.reference indent name, indent ++ '@' :: '<' :: name ++ '>' :: blanks,
        rest.drop blanks.length⟩
    | _ => none
  | _ => none

def mark? : Text → Option Lexeme
  | '[' :: rest => some ⟨.leftBracket, ['['], rest⟩
  | ']' :: rest => some ⟨.rightBracket, [']'], rest⟩
  | '=' :: rest => some ⟨.equals, ['='], rest⟩
  | ',' :: rest => some ⟨.comma, [','], rest⟩
  | _ => none

def breaks? (t : Text) : Option Lexeme :=
  let run := t.takeWhile (· == '\n')
  if run.isEmpty then none else some ⟨.breaks run.length, run, t.dropWhile (· == '\n')⟩

def isPlain (c : Char) : Bool :=
  c != '@' && c != '[' && c != ']' && c != '=' && c != ',' && c != '\n'

def plain? (t : Text) : Option Lexeme :=
  let run := t.takeWhile isPlain
  if run.isEmpty then none else some ⟨.text run, run, t.dropWhile isPlain⟩

/-- The first token of a text. A reference comes before plain text, so that the blanks in front of
it are its own. -/
def first? (t : Text) : Option Lexeme :=
  directive? t <|> reference? t <|> mark? t <|> breaks? t <|> plain? t

theorem lineEndBlanks_append (t : Text) : lineEndBlanks t ++ t.drop (lineEndBlanks t).length = t := by
  unfold lineEndBlanks
  split
  · simp
  · exact (List.prefix_iff_eq_append.1 (List.takeWhile_prefix Text.isBlank)).symm ▸ rfl
  · simp

theorem directive?_source {t : Text} {x : Lexeme} (h : directive? t = some x) :
    x.source ++ x.rest = t ∧ x.source ≠ [] := by
  unfold directive? at h
  split at h <;> simp at h <;> subst h <;> simp

theorem reference?_source {t : Text} {x : Lexeme} (h : reference? t = some x) :
    x.source ++ x.rest = t ∧ x.source ≠ [] := by
  unfold reference? at h
  simp only at h
  split at h
  · rename_i rest hrest
    split at h
    · rename_i tail htail
      simp at h
      subst h
      have outer := List.takeWhile_append_dropWhile (p := Text.isBlank) (l := t)
      have inner := List.takeWhile_append_dropWhile (p := inName) (l := rest)
      have last := lineEndBlanks_append tail
      rw [hrest] at outer
      rw [htail] at inner
      constructor
      · simp only [List.append_assoc, List.cons_append]
        rw [last, inner, outer]
      · simp
    · simp at h
  · simp at h

theorem mark?_source {t : Text} {x : Lexeme} (h : mark? t = some x) :
    x.source ++ x.rest = t ∧ x.source ≠ [] := by
  unfold mark? at h
  split at h <;> simp at h <;> subst h <;> simp

theorem breaks?_source {t : Text} {x : Lexeme} (h : breaks? t = some x) :
    x.source ++ x.rest = t ∧ x.source ≠ [] := by
  unfold breaks? at h
  simp only at h
  split at h
  · simp at h
  · rename_i ne
    simp at h
    subst h
    exact ⟨List.takeWhile_append_dropWhile, by simpa using ne⟩

theorem plain?_source {t : Text} {x : Lexeme} (h : plain? t = some x) :
    x.source ++ x.rest = t ∧ x.source ≠ [] := by
  unfold plain? at h
  simp only at h
  split at h
  · simp at h
  · rename_i ne
    simp at h
    subst h
    exact ⟨List.takeWhile_append_dropWhile, by simpa using ne⟩

/-- A lexeme splits its text in two, and takes at least one character. -/
theorem first?_source {t : Text} {x : Lexeme} (h : first? t = some x) :
    x.source ++ x.rest = t ∧ x.source ≠ [] := by
  simp only [first?, Option.orElse_eq_orElse, Option.orElse_eq_or, Option.or_eq_some_iff] at h
  rcases h with h | ⟨_, h | ⟨_, h | ⟨_, h | ⟨_, h⟩⟩⟩⟩
  · exact directive?_source h
  · exact reference?_source h
  · exact mark?_source h
  · exact breaks?_source h
  · exact plain?_source h

theorem rest_length_lt {t : Text} {x : Lexeme} (h : first? t = some x) :
    x.rest.length < t.length := by
  obtain ⟨split, nonempty⟩ := first?_source h
  have : 0 < x.source.length := List.length_pos_iff.2 nonempty
  rw [← split, List.length_append]
  omega

/-- Only a reference that starts its line has an indent; the blanks in front of another one are
text. -/
def place (lineStart : Bool) (loc : Location) : Token → List Placed
  | .reference indent name =>
    if indent.isEmpty || lineStart then [⟨.reference indent name, loc⟩]
    else [⟨.text indent, loc⟩, ⟨.reference [] name, loc.advance indent⟩]
  | token => [⟨token, loc⟩]

/-- Why nothing can be read off the front of a text that is not empty. -/
def stray : Text → SyntaxCause
  | '@' :: '<' :: rest => .malformedReference (Text.firstLine ('@' :: '<' :: rest))
  | _ => .strayAt

end Lexeme

namespace Token

def scanFrom (loc : Location) (lineStart : Bool) (t : Text) : Except SyntaxFault (List Placed) :=
  if t.isEmpty then .ok []
  else
    match _h : Lexeme.first? t with
    | none => .error ⟨loc, Lexeme.stray t⟩
    | some x =>
      match scanFrom (loc.advance x.source) x.token.isBreak x.rest with
      | .error e => .error e
      | .ok later => .ok (Lexeme.place lineStart loc x.token ++ later)
termination_by t.length
decreasing_by exact Lexeme.rest_length_lt _h

def scan (path : Option Text) (t : Text) : Traced (List Placed) :=
  match scanFrom (.start path) true t with
  | .error e => .fail (.source e)
  | .ok tokens => do
    .report (.scanned tokens.length)
    return tokens

end Token

end Literate
