import Sentential.Export
import Sentential.Session
import Sentential.Storage

/-!
# Controllers

A controller joins a session to a storage. Requests to save, load, export and quit wait in a
queue until they are served, one event for each and in order; key presses go straight to the
session and may save a newly completed derivation.
-/

namespace Sentential

/-- What can be asked of a controller. -/
inductive Request where
  | save
  | load
  | exportTo (path : String)
  | quit
deriving DecidableEq

/-- What became of a request. -/
inductive Event where
  | saved
  | loaded
  | exported (path : String)
  | cancelled
  | failed (message : String)
  | quitRequested
deriving DecidableEq

/-- The event of a save that was answered. -/
def Answer.saveEvent : Answer Unit → Event
  | .done () => .saved
  | .cancelled => .cancelled
  | .failed message => .failed message

/-- A session, its storage, and the requests not yet served. -/
structure Controller (σ : Type) where
  session : Session
  storage : σ
  autosave : Bool
  queue : List Request
  running : Bool

namespace Controller

variable {σ : Type}

def new (session : Session) (storage : σ) (autosave : Bool) : Controller σ where
  session := session
  storage := storage
  autosave := autosave
  queue := []
  running := true

def send (r : Request) (c : Controller σ) : Controller σ :=
  { c with queue := c.queue ++ [r] }

variable [Storage σ]

def store (c : Controller σ) : Event × Controller σ :=
  let (answer, storage) := Storage.save c.session.document c.storage
  (answer.saveEvent, { c with storage })

def save (c : Controller σ) : Event × Controller σ :=
  store { c with session := c.session.persist }

/-- Loads a document and continues with it; a document that is refused changes nothing. -/
def load (c : Controller σ) : Event × Controller σ :=
  let (answer, storage) := Storage.load c.storage
  let c := { c with storage }
  match answer with
  | .cancelled => (.cancelled, c)
  | .failed message => (.failed message, c)
  | .done d =>
    match Session.ofDocument d with
    | .ok session => (.loaded, { c with session })
    | .error cause => (.failed cause.message, c)

/-- Writes the completed derivations to a file, in the format of its extension. -/
def exportTo (path : String) (c : Controller σ) : Event × Controller σ :=
  match c.session.active with
  | none => (.failed SessionError.noGrammar.message, c)
  | some a =>
    match Export.Format.ofPath path with
    | .error failure => (.failed failure.inline, c)
    | .ok format =>
      let text := Export.content a.grammar a.history.saved format
      match Storage.writeText path text c.storage with
      | .error cause => (.failed (Export.cannotCreate path cause.message).inline, c)
      | .ok storage => (.exported path, { c with storage })

def serve (c : Controller σ) : Request → Event × Controller σ
  | .save => c.save
  | .load => c.load
  | .exportTo path => c.exportTo path
  | .quit => (.quitRequested, { c with running := false })

def serveAll (c : Controller σ) : List Request → List Event × Controller σ
  | [] => ([], c)
  | r :: rest =>
    let (event, c) := c.serve r
    let (events, c) := c.serveAll rest
    (event :: events, c)

def pump (c : Controller σ) : List Event × Controller σ :=
  serveAll { c with queue := [] } c.queue

/-- Passes a key press to the session. With autosave a newly recorded derivation is saved at
once; if that fails, the key press stands. -/
def pressKey (stamp : Stamp) (key : Char) (c : Controller σ) :
    Option (Outcome × Controller σ) :=
  match c.session.pressKey stamp key with
  | none => none
  | some (outcome, session) =>
    let c := { c with session }
    match c.autosave, outcome.completion with
    | true, some (.added _) => some (outcome, c.save.2)
    | _, _ => some (outcome, c)

/-- Drops the derivation in progress from the session and then from the storage. -/
def clear (c : Controller σ) : Event × Controller σ :=
  store { c with session := c.session.clear }

end Controller

end Sentential
