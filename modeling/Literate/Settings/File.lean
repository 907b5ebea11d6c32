import Literate.Host
import Literate.Path
import Literate.Settings.Toml

namespace Literate.Settings

/-- The names of a settings file; the first is preferred. -/
def fileNames : List Text := ["tangler.toml".toList, ".tangler.toml".toList]

def searchPaths (dir : Text) : List Text :=
  fileNames.map (Path.join dir) ++
    match _h : Path.parent? dir with
    | none => []
    | some parent => searchPaths parent
termination_by dir.length
decreasing_by exact Path.length_lt_of_parent? _h

variable {m : Type → Type} [Monad m] [Host m]

def find (dir : Text) : m (Option Text) := (searchPaths dir).findM? Host.pathExists

def ofFile (path : Text) : ExceptT Fault m Settings := do
  let text ← Host.attempt (.settingsFile path) (Host.readText path)
  match SettingsUpdate.read? text with
  | none => throw .settingsText
  | some update => do
    (Host.record (.settingsRead path) : m Unit)
    return ({} : Settings).update update

def search (dir : Text) : ExceptT Fault m Settings := do
  match ← (find dir : m (Option Text)) with
  | some path => ofFile path
  | none => return {}

/-- The settings of a run: those of the file that was named, or those found from its base
directory. -/
def load (base : Text) (file : Option Text) : ExceptT Fault m Settings :=
  match file with
  | some path => ofFile (if Path.isAbsolute path then path else Path.join base path)
  | none => search base

end Literate.Settings
