import Mykt.Cache
import Mykt.Failure
import Mykt.Workspace.Basic

/-!
A server of editor messages. Messages about a document drop its analysis; a question for a
definition makes one if there is none.
-/

namespace Mykt

namespace Server

inductive Message where
  | started (options : Json)
  | opened (uri text : String)
  | changed (uri : String) (edits : List Edit)
  | closed (uri : String)
  | definition (uri : String) (position : Position)

inductive Error where
  | notStarted
  | closedDocument (uri : String)
  | failure (f : Failure)
  deriving DecidableEq, Repr

def Error.describe : Error → String
  | notStarted =>
    "RuntimeError: The workspace is not available - has the server been initialized?"
  | closedDocument uri => "KeyError: " ++ Text.quoted uri
  | failure f => f.name ++ ": " ++ f.message

def Error.ofWorkspace : WorkspaceError → Error
  | .host e => failure (.host e)
  | .disk e => failure (.disk e)
  | .closed uri => closedDocument uri

inductive Answer where
  | none
  | links (link : Option Link)
  | failed (e : Error)
  deriving DecidableEq, Repr

/-- What a message brings about: an answer, texts shown to the user with their types, and events
that are heard. -/
structure Reply where
  answer : Answer := .none
  shown : List (Nat × String) := []
  events : List Event := []
  deriving DecidableEq, Repr

end Server

structure Server where
  cache : Cache
  /-- Missing until the editor has started. -/
  workspace : Option Workspace
  logLevel : Nat
  deriving Repr

namespace Server

def start (settings : Settings) (logLevel : Nat) : Server := ⟨.empty settings, none, logLevel⟩

def settingsEvent (s : Settings) : Event := ⟨.info, .server, "settings: " ++ s.describe⟩

def diagnosticEvent (d : Diagnostic) : Event := ⟨.info, .server, d.format⟩

/-- A message about a document that could not be followed is shown as an error. -/
def refused (s : Server) (e : Error) : Server × Reply :=
  (s, { shown := [(1, "Error in server: " ++ e.describe)] })

/-- Options that are an object change the settings and drop all analyses. -/
def onStarted (s : Server) (options : Json) : Server × Reply :=
  let s := { s with workspace := some .empty }
  match options with
  | .object _ =>
    let settings := s.cache.settings.merged options
    let logLevel := applyLogLevel settings.logLevel s.logLevel
    ({ s with cache := s.cache.configure settings, logLevel },
      { events := Event.heard logLevel [settingsEvent settings] })
  | _ => (s, {})

/-- Drops the analysis of a document. -/
def touched (s : Server) (uri : String) : Server × Reply :=
  let (events, cache) := s.cache.invalidate uri
  ({ s with cache }, { events := Event.heard s.logLevel events })

/-- Takes over the documents, of which one is not as it was. -/
def renewed (s : Server) (uri : String) (w : Workspace) : Server × Reply :=
  { s with workspace := some w }.touched uri

def onOpened (s : Server) (w : Workspace) (uri text : String) : Server × Reply :=
  match w.opened uri text with
  | .error e => s.refused (.ofWorkspace e)
  | .ok w => s.renewed uri w

/-- Without edits no documents are needed. -/
def onChanged (s : Server) (uri : String) (edits : List Edit) : Server × Reply :=
  match edits, s.workspace with
  | [], _ => s.touched uri
  | _ :: _, none => s.refused .notStarted
  | _ :: _, some w =>
    match w.changed uri edits with
    | .error e => s.refused (.ofWorkspace e)
    | .ok w => s.renewed uri w

def onClosed (s : Server) (w : Workspace) (uri : String) : Server × Reply :=
  ({ s with cache := s.cache.discard uri, workspace := some (w.closed uri) }, {})

def answerOf : Except RangeError (Option Definition) → Answer
  | .ok d => .links (d.map (·.link))
  | .error e => .failed (.failure (.range e))

def onDefinition (s : Server) (w : Workspace) (d : Disk) (uri : String) (p : Position) :
    Server × Reply :=
  match w.text d uri with
  | .error e => (s, { answer := .failed (.ofWorkspace e) })
  | .ok source =>
    let e := s.cache.ensure d uri source
    let events := Event.heard s.logLevel (e.events ++ e.reported.map diagnosticEvent)
    let shown := e.reported.map fun d => (d.messageType, d.message)
    let answer := match e.result with
      | .error f => .failed (.failure (.ofImport f))
      | .ok a => answerOf (a.definitionAt p)
    ({ s with cache := e.cache }, { answer, shown, events })

def step (s : Server) (d : Disk) (m : Message) : Server × Reply :=
  match m, s.workspace with
  | .started options, _ => s.onStarted options
  | .changed uri edits, _ => s.onChanged uri edits
  | .opened uri text, some w => s.onOpened w uri text
  | .closed uri, some w => s.onClosed w uri
  | .definition uri p, some w => s.onDefinition w d uri p
  | .definition _ _, none => (s, { answer := .failed .notStarted })
  | _, none => s.refused .notStarted

end Server

end Mykt
