import Literate.Chunk

namespace Literate

inductive Token where
  | opening (kind : ChunkKind)
  | closing
  | leftBracket
  | rightBracket
  | equals
  | comma
  /-- A reference `@<name>`, with the blanks in front of it if it starts its line. -/
  | reference (indent name : Text)
  /-- A doubled `@`, which stands for one. -/
  | escapedAt
  | text (t : Text)
  | breaks (count : Nat)
deriving DecidableEq

namespace Token

def isBreak : Token → Bool
  | .breaks _ => true
  | _ => false

def spell : Token → Text
  | .opening .doc => ['@', 'd', 'o', 'c']
  | .opening .code => ['@', 'c', 'o', 'd', 'e']
  | .closing => ['@', 'e', 'n', 'd']
  | .leftBracket => ['[']
  | .rightBracket => [']']
  | .equals => ['=']
  | .comma => [',']
  | .reference indent name => indent ++ '@' :: '<' :: name ++ ['>']
  | .escapedAt => ['@', '@']
  | .text t => t
  | .breaks n => List.replicate n '\n'

/-- The text the token stands for; directives and references stand for none. -/
def literal? : Token → Option Text
  | .opening _ => none
  | .closing => none
  | .leftBracket => some ['[']
  | .rightBracket => some [']']
  | .equals => some ['=']
  | .comma => some [',']
  | .reference .. => none
  | .escapedAt => some ['@']
  | .text t => some t
  | .breaks n => some (List.replicate n '\n')

def literal (t : Token) : Text := t.literal?.getD []

def describe : Token → String
  | .reference _ name => s!"reference '@<{name.str}>'"
  | .text t => s!"text '{t.trim.str}'"
  | .breaks _ => "line break"
  | .opening .doc => "'@doc'"
  | .opening .code => "'@code'"
  | .closing => "'@end'"
  | t => s!"'{t.literal.str}'"

end Token

/-- A token with the place of its first character. -/
structure Placed where
  token : Token
  loc : Location
deriving DecidableEq

end Literate
