import Literate.Host
import Literate.Path

namespace Literate

inductive Action where
  | write (chunk path content : Text) (createDirs : Bool)
  | print (chunk content : Text)
deriving DecidableEq

namespace Action

def describe : Action → String
  | .write chunk path _ _ => s!"write '{chunk.str}' to {path.str}"
  | .print chunk _ => s!"print '{chunk.str}' to stdout"

variable {m : Type → Type} [Monad m] [Host m]

def directory (path : Text) : Text :=
  match Path.parent? path with
  | some (c :: dir) => c :: dir
  | _ => ['.']

/-- Writes a temporary file next to the target and moves it there, so that the target never holds
half of the content. If it cannot be moved it is removed. -/
def replaceFile (path content : Text) : m (Except FileFault Unit) := do
  let temporary := Path.join (directory path) (← Host.temporaryName)
  match ← Host.createFile temporary content with
  | .error e => return .error e
  | .ok () =>
    match ← Host.moveFile temporary path with
    | .ok () => return .ok ()
    | .error e => do
      let _ ← Host.removeFile temporary
      return .error e

def perform : Action → ExceptT Fault m Unit
  | .write chunk path content createDirs => do
    if createDirs then
      match Path.parent? path with
      | some parent => Host.attempt .file (Host.makeDirs parent)
      | none => pure ()
    Host.attempt .file (replaceFile path content)
    (Host.record (.wrote chunk path) : m Unit)
  | .print _ content => (Host.print content : m Unit)

def performAll (actions : List Action) : ExceptT Fault m Unit := actions.forM perform

end Action

end Literate
