import Literate.Context
import Literate.Document.Read
import Literate.Listing
import Literate.Plan
import Literate.Selection

namespace Literate.Context

def action (x : Context) (o : Output) : Traced Action :=
  let content := x.settings.finish o.content
  match o.target with
  | .file path => do
    let path := x.resolveOutput path
    .report (.tangledFile o.name path)
    return .write o.name path content x.settings.createDirs
  | .print => do
    .report (.tangledPrint o.name)
    return .print o.name content

/-- The actions for a document. All outputs are expanded first, so a fault in one leaves nothing
to do. -/
def plan (x : Context) (d : Document) (requested : List Text) : Traced (List Action) := do
  let table ← d.collect
  let scope : Scope := ⟨x.settings.policy, d, table⟩
  let outputs ← scope.outputs requested x.settings.root
  let actions ← outputs.mapM x.action
  .report (.prepared actions.length)
  return actions

def planSource (x : Context) (path : Option Text) (source : Text) (requested : List Text) :
    Traced (List Action) := do
  let d ← Document.read path source
  x.plan d requested

variable {m : Type → Type} [Monad m] [Host m]

def readSource (x : Context) (file : Text) : ExceptT Fault m Text :=
  Host.attempt (.sourceFile (x.resolve file)) (Host.readText (x.resolve file))

def planFile (x : Context) (file : Text) (requested : List Text) :
    ExceptT Fault m (List Action) := do
  let source ← x.readSource file
  (Host.record (.tangling (x.resolve file)) : m Unit)
  Host.run (x.planSource (some file) source requested)

def dryRunReport (actions : List Action) : Text :=
  let lines := s!"Would perform {actions.length} actions:" ::
    actions.map fun a => s!"  {a.describe}"
  lines.flatMap fun line => line.toList ++ ['\n']

def tangle (x : Context) (file : Text) (requested : List Text) (dryRun : Bool) :
    ExceptT Fault m Unit := do
  let actions ← x.planFile file requested
  if dryRun then
    (Host.print (dryRunReport actions) : m Unit)
  else
    Action.performAll actions
    (Host.record (.tangled actions.length) : m Unit)

def list (x : Context) (file : Text) (json : Bool) : ExceptT Fault m Unit := do
  let source ← x.readSource file
  let d ← Host.run (Document.read (some file) source)
  let listing ← Host.run d.listing
  let shown := if json then listing.json.pretty ++ ['\n'] else listing.render
  (Host.print shown : m Unit)

end Literate.Context
