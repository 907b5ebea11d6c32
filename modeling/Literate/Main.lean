import Literate.CommandLine
import Literate.World

namespace Literate

structure Session where
  directives : List CommandLine.Directive
  /-- Sets the temporary files of this process apart from those of another. -/
  process : Nat
  temporaries : IO.Ref Nat

abbrev Shell := ReaderT Session IO

namespace Shell

/-- The cause that an error of the system stands for. Its code comes with either sign. -/
def faultOf : IO.Error → FileFault
  | .noFileOrDirectory .. | .noSuchThing .. => .missing
  | .alreadyExists .. => .exists
  | .resourceBusy .. => .busy
  | .inappropriateType _ code text =>
    if code = 20 || code = -20 then .notDirectory
    else if code = 21 || code = -21 then .isDirectory
    else .other text
  | .invalidArgument _ code text =>
    if code = 36 || code = -36 then .tooLong
    else if code = 22 then .zeroCharacter
    else .other text
  | e => .other (toString e)

def files {α : Type} (operation : IO α) : IO (Except FileFault α) := do
  match ← operation.toBaseIO with
  | .ok a => return .ok a
  | .error e => return .error (faultOf e)

def leads (path : Text) : IO Bool := return (← files (IO.FS.realPath path.str)).toOption.isSome

def leadsToDirectory (path : Text) : IO Bool := leads (path ++ "/.".toList)

def readText (path : Text) : IO (Except FileFault Text) := do
  match ← files (IO.FS.readBinFile path.str) with
  | .error e => return .error e
  | .ok bytes =>
    match String.fromUTF8? bytes with
    | some s => return .ok s.toList
    | none => return .error .notText

def makeDir (path : Text) : IO (Except FileFault Unit) := do
  match ← files (IO.FS.createDir path.str) with
  | .ok () => return .ok ()
  | .error .missing => return .error .missing
  | .error e => return if ← leadsToDirectory path then .ok () else .error e

partial def makeDirs (path : Text) : IO (Except FileFault Unit) := do
  if path.isEmpty then return .ok ()
  match ← makeDir path, Path.parent? path with
  | .error .missing, some parent =>
    match ← makeDirs parent with
    | .ok () => makeDir path
    | .error e => return .error e
  | outcome, _ => return outcome

def print (t : Text) : IO Unit := do
  let out ← IO.getStdout
  out.putStr t.str
  out.flush

instance : Host Shell where
  currentDir := return (← IO.currentDir).toString.toList
  pathExists path := leads path
  readText path := readText path
  makeDirs path := makeDirs path
  createFile path content := files (IO.FS.writeFile path.str content.str)
  moveFile source target := files (IO.FS.rename source.str target.str)
  removeFile path := files (IO.FS.removeFile path.str)
  temporaryName := do
    let session ← read
    let n ← session.temporaries.modifyGet fun n => (n, n + 1)
    return ({ process := session.process, temporaries := n } : World).temporaryName
  print t := Shell.print t
  record e := do
    (CommandLine.log (← read).directives [e]).forM fun line => IO.eprintln line

end Shell

end Literate

open Literate in
def main (arguments : List String) : IO UInt32 := do
  let invocation := CommandLine.read (arguments.map String.toList)
  let asked := (← IO.getEnv "RUST_LOG").map String.toList
  let session : Session :=
    { directives := CommandLine.logLevel invocation asked
      process := ← IO.monoNanosNow
      temporaries := ← IO.mkRef 0 }
  let ending ← (CommandLine.run invocation : Shell CommandLine.Ending).run session
  unless ending.complaint.isEmpty do IO.eprintln ending.complaint
  return ending.code.toUInt32
