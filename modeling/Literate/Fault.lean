import Literate.Token

namespace Literate

inductive Expectation where
  | chunkName
  | propertyKey
  | equalsAfter (key : Text)
  | separator
deriving DecidableEq

def Expectation.describe : Expectation → String
  | .chunkName => "a chunk name"
  | .propertyKey => "a property key"
  | .equalsAfter key => s!"'=' after property key '{key.str}'"
  | .separator => "',' or ']' in property list"

/-- The lines of a chunk on which nothing else may stand. -/
inductive Frame where
  | header
  | footer
deriving DecidableEq

def Frame.describe : Frame → String
  | .header => "chunk header"
  | .footer => "'@end'"

inductive SyntaxCause where
  | strayAt
  | malformedReference (line : Text)
  | emptyReference
  | notAtLineStart (directive : Token)
  | nothingOpen
  | missingName
  | emptyKey
  | expected (what : Expectation) (found : Option Token)
  | unterminated (name : Text)
  | unexpectedAfter (found : Token) (frame : Frame)
  | footerNotAlone
  | nestedOpening (directive : Token) (name : Text)
deriving DecidableEq

def SyntaxCause.message : SyntaxCause → String
  | .strayAt => "unexpected '@' (write '@@' for a literal '@')"
  | .malformedReference line =>
    s!"malformed chunk reference '{line.str}': expected '>' before ']' or end of line"
  | .emptyReference => "empty chunk reference '@<>'"
  | .notAtLineStart directive => s!"{directive.describe} must start a line"
  | .nothingOpen => "'@end' without an open chunk"
  | .missingName => "expected whitespace and a chunk name after the directive"
  | .emptyKey => "empty property key"
  | .expected what (some found) => s!"expected {what.describe}, found {found.describe}"
  | .expected what none => s!"expected {what.describe}, found end of input"
  | .unterminated name => s!"unterminated chunk '{name.str}': missing '@end'"
  | .unexpectedAfter found frame => s!"unexpected {found.describe} after {frame.describe}"
  | .footerNotAlone => "'@end' must be alone on its line"
  | .nestedOpening directive name =>
    s!"{directive.describe} inside chunk '{name.str}' (missing '@end'?)"

structure SyntaxFault where
  loc : Location
  cause : SyntaxCause
deriving DecidableEq

def SyntaxFault.message (f : SyntaxFault) : String := f.loc.report f.cause.message

inductive FileFault where
  | missing
  | exists
  | notDirectory
  | isDirectory
  | busy
  | tooLong
  | zeroCharacter
  | notText
  /-- A refusal that only a real file system has, in its words. -/
  | other (text : String)
deriving DecidableEq

def FileFault.message : FileFault → String
  | .missing => "No such file or directory (os error 2)"
  | .busy => "Device or resource busy (os error 16)"
  | .exists => "File exists (os error 17)"
  | .notDirectory => "Not a directory (os error 20)"
  | .isDirectory => "Is a directory (os error 21)"
  | .tooLong => "File name too long (os error 36)"
  | .zeroCharacter => "file name contained an unexpected NUL byte"
  | .notText => "stream did not contain valid UTF-8"
  | .other text => text

inductive Fault where
  | file (cause : FileFault)
  | settingsFile (path : Text) (cause : FileFault)
  /-- A settings file that is not TOML, or holds what no setting takes. -/
  | settingsText
  | source (fault : SyntaxFault)
  | unresolved (name : Text)
  /-- The names along a cycle; the first and the last are the same. -/
  | cyclic (names : List Text)
  | noTarget
  | notFound (name : Text)
  | sourceFile (path : Text) (cause : FileFault)
deriving DecidableEq

def Fault.message : Fault → String
  | .file cause => s!"I/O error: {cause.message}"
  | .settingsFile path cause => s!"Configuration error: cannot read {path.str}: {cause.message}"
  | .settingsText => "TOML parse error"
  | .source fault => fault.message
  | .unresolved name => s!"Unresolved reference: no chunk named '{name.str}'"
  | .cyclic names => "Cyclic reference: " ++ " -> ".intercalate (names.map Text.str)
  | .noTarget =>
    "No output target: no chunk was requested, no '*' chunk exists and no chunk declares 'out'"
  | .notFound name => s!"Requested chunk not found: '{name.str}'"
  | .sourceFile path cause => s!"cannot read {path.str}: {cause.message}"

end Literate
