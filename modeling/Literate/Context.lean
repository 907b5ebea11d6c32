import Literate.Chunk
import Literate.Path

namespace Literate

/-- What a reference to a name with several definitions stands for: all code definitions together,
or the first chunk of that name, of either kind. -/
inductive Policy where
  | merged
  | firstDefinition
deriving DecidableEq

namespace Policy

def name : Policy → Text
  | .merged => "merged".toList
  | .firstDefinition => "first-definition".toList

def ofName? (t : Text) : Option Policy :=
  if t = merged.name then some .merged
  else if t = firstDefinition.name then some .firstDefinition
  else none

/-- The same, with ASCII letters read in either case. -/
def ofNameIgnoringCase? (t : Text) : Option Policy := ofName? (t.map Char.toLower)

end Policy

structure Settings where
  policy : Policy := .merged
  outputDir : Option Text := none
  root : Text := Chunk.rootName
  trailingNewline : Bool := true
  createDirs : Bool := true
deriving DecidableEq

structure SettingsUpdate where
  policy : Option Policy := none
  outputDir : Option Text := none
  root : Option Text := none
  trailingNewline : Option Bool := none
  createDirs : Option Bool := none
deriving DecidableEq

namespace Settings

def update (s : Settings) (u : SettingsUpdate) : Settings where
  policy := u.policy.getD s.policy
  outputDir := u.outputDir.or s.outputDir
  root := u.root.getD s.root
  trailingNewline := u.trailingNewline.getD s.trailingNewline
  createDirs := u.createDirs.getD s.createDirs

/-- Ends the content with a line break, if the settings ask for one and it has none. -/
def finish (s : Settings) (content : Text) : Text :=
  if s.trailingNewline && content.getLast? != some '\n' then content ++ ['\n'] else content

end Settings

/-- What a run goes by: its settings, and the directory in which relative paths start. -/
structure Context where
  settings : Settings := {}
  base : Text := []

namespace Context

def resolve (x : Context) (path : Text) : Text :=
  if Path.isAbsolute path then path else Path.join x.base path

def resolveOutput (x : Context) (path : Text) : Text :=
  match x.settings.outputDir with
  | some dir => if Path.isAbsolute path then x.resolve path else x.resolve (Path.join dir path)
  | none => x.resolve path

end Context

end Literate
