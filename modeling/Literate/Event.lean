import Literate.Chunk

namespace Literate

inductive Rule where
  | requested
  | root
  | terminals
deriving DecidableEq

def Rule.render : Rule → String
  | .requested => "Requested"
  | .root => "Root"
  | .terminals => "Terminals"

inductive Level where
  | error
  | warn
  | info
  | debug
  | trace
deriving DecidableEq

namespace Level

/-- Smaller is more severe. -/
def rank : Level → Nat
  | .error => 0
  | .warn => 1
  | .info => 2
  | .debug => 3
  | .trace => 4

def render : Level → String
  | .error => "ERROR"
  | .warn => "WARN"
  | .info => "INFO"
  | .debug => "DEBUG"
  | .trace => "TRACE"

end Level

inductive Event where
  | scanned (tokens : Nat)
  | chunkRead (kind : ChunkKind) (name : Text) (loc : Location) (segments : Nat)
  | documentRead (chunks : Nat)
  /-- A later definition changes the values of these options. -/
  | overridden (name : Text) (loc : Location) (keys : List Text)
  | expanding (name : Text) (loc : Location) (depth : Nat)
  | selected (chunks : Nat) (rule : Rule)
  | settingsRead (path : Text)
  | tangling (path : Text)
  | tangledFile (name path : Text)
  | tangledPrint (name : Text)
  | prepared (outputs : Nat)
  | wrote (name path : Text)
  | tangled (outputs : Nat)
deriving DecidableEq

namespace Event

def level : Event → Level
  | .overridden .. => .warn
  | .tangling _ | .prepared _ | .wrote .. | .tangled _ => .info
  | _ => .debug

/-- The part of the program that the event comes from. -/
def target : Event → String
  | .scanned _ => "tangler::readers::lexer"
  | .chunkRead .. | .documentRead _ => "tangler::readers::parser"
  | .overridden .. => "tangler::model::chunk_table"
  | .expanding .. => "tangler::model::tangle"
  | .selected .. => "tangler::model::select"
  | .settingsRead _ => "tangler::config"
  | .tangling _ | .tangledFile .. | .tangledPrint _ | .prepared _ => "tangler::interface::tangle"
  | .wrote .. => "tangler::io::transaction"
  | .tangled _ => "tangler::commands::tangle"

def message : Event → String
  | .scanned tokens => s!"Lexed {tokens} tokens"
  | .chunkRead kind name loc segments =>
    let kind := match kind with
      | .doc => "Doc"
      | .code => "Code"
    s!"Parsed {kind} chunk '{name.str}' at {loc.render} ({segments} segments)"
  | .documentRead chunks => s!"Parsed {chunks} top-level chunks"
  | .overridden name loc keys =>
    s!"Chunk '{name.str}' redefined at {loc.render} overrides options: " ++
      ", ".intercalate (keys.map Text.str)
  | .expanding name loc depth => s!"Expanding '{name.str}' at {loc.render} (depth {depth})"
  | .selected chunks rule => s!"Selected {chunks} chunk(s) by {rule.render} rule"
  | .settingsRead path => s!"Loaded configuration from {path.str}"
  | .tangling path => s!"Tangling {path.str}"
  | .tangledFile name path => s!"Tangled '{name.str}' for {path.str}"
  | .tangledPrint name => s!"Tangled '{name.str}' for stdout"
  | .prepared outputs => s!"Prepared {outputs} output(s)"
  | .wrote name path => s!"Wrote '{name.str}' to {path.str}"
  | .tangled outputs => s!"Tangled {outputs} output(s)"

def render (e : Event) : String := s!"{e.level.render} {e.message}"

/-- The reports of the events at the given level or a more severe one. -/
def renderAt (level : Level) (events : List Event) : List String :=
  (events.filter fun e => e.level.rank ≤ level.rank).map render

end Event

end Literate
