/-!
What a session tells about its work, and from which level on it is heard.
-/

namespace Mykt

namespace Event

inductive Level where
  | debug
  | info
  | warning
  deriving DecidableEq, Repr

def Level.label : Level → String
  | debug => "DEBUG"
  | info => "INFO"
  | warning => "WARNING"

def Level.number : Level → Nat
  | debug => 10
  | info => 20
  | warning => 30

/-- The part of the program that speaks. -/
inductive Source where
  | declarations
  | imports
  | analysis
  | cache
  | server
  deriving DecidableEq, Repr

def Source.label : Source → String
  | declarations => "myktls.symbols.builder"
  | imports => "myktls.symbols.imports"
  | analysis => "myktls.analysis"
  | cache => "myktls.cache"
  | server => "myktls.server"

end Event

structure Event where
  level : Event.Level
  source : Event.Source
  message : String
  deriving DecidableEq, Repr

/-- The events heard when the least level heard is `threshold`. -/
def Event.heard (threshold : Nat) (es : List Event) : List Event :=
  es.filter fun e => threshold ≤ e.level.number

end Mykt
