import Literate.FileTree
import Literate.Host

namespace Literate

/-- Surroundings as a value: the files, what was printed and what was recorded. -/
structure World where
  files : FileTree := {}
  printed : Text := []
  events : List Event := []
  /-- The number that sets the temporary files of one process apart from those of another. -/
  process : Nat := 1
  /-- How many temporary names were given out. -/
  temporaries : Nat := 0

namespace World

/-- Changes the files if the operation is not refused. -/
def change (w : World) (x : Except FileFault FileTree) : Except FileFault Unit × World :=
  match x with
  | .ok files => (.ok (), { w with files })
  | .error e => (.error e, w)

def temporaryPrefix : String := ".tangler-tmp-"

def temporaryName (w : World) : Text := s!"{temporaryPrefix}{w.process}-{w.temporaries}".toList

instance : Host (StateM World) where
  currentDir := fun w => (w.files.currentDir, w)
  pathExists path := fun w => (w.files.pathExists path, w)
  readText path := fun w => (w.files.readText path, w)
  makeDirs path := fun w => ((w.files.makeDirs path).2, { w with files := (w.files.makeDirs path).1 })
  createFile path content := fun w => w.change (w.files.createFile path content)
  moveFile source target := fun w => w.change (w.files.moveFile source target)
  removeFile path := fun w => w.change (w.files.removeFile path)
  temporaryName := fun w => (w.temporaryName, { w with temporaries := w.temporaries + 1 })
  print t := fun w => ((), { w with printed := w.printed ++ t })
  record e := fun w => ((), { w with events := w.events ++ [e] })

end World

end Literate
