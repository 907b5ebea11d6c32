import Literate.Traced

namespace Literate

/-- What a run may do to its surroundings. -/
class Host (m : Type → Type) where
  currentDir : m Text
  pathExists : Text → m Bool
  readText : Text → m (Except FileFault Text)
  makeDirs : Text → m (Except FileFault Unit)
  createFile : Text → Text → m (Except FileFault Unit)
  moveFile : Text → Text → m (Except FileFault Unit)
  removeFile : Text → m (Except FileFault Unit)
  /-- A name for a temporary file, a new one each time. -/
  temporaryName : m Text
  print : Text → m Unit
  record : Event → m Unit

namespace Host

variable {m : Type → Type} [Monad m] [Host m] {α : Type}

/-- Does something with a file, or ends with the fault that its refusal stands for. -/
def attempt (fault : FileFault → Fault) (action : m (Except FileFault α)) : ExceptT Fault m α :=
  ExceptT.mk do
    match ← action with
    | .ok a => return .ok a
    | .error e => return .error (fault e)

def run (x : Traced α) : ExceptT Fault m α :=
  ExceptT.mk do
    x.events.forM record
    return x.outcome

end Host

end Literate
