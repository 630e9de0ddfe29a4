import Sentential.Document.Stored

/-!
# Sessions

A session is one user's document together with its grammar and history once there is a
grammar. The history lives beside the document and enters it as text when it is persisted.
-/

namespace Sentential

/-- Why a session cannot take a step. -/
inductive SessionError where
  | noGrammar
  | derivation (cause : DerivationError)
deriving DecidableEq

def SessionError.message : SessionError → String
  | .noGrammar => "no grammar has been defined yet"
  | .derivation cause => cause.message

structure Active where
  grammar : Grammar
  history : History
deriving DecidableEq

/-- A document, and the grammar in use if it has one. -/
structure Session where
  document : Document
  active : Option Active
deriving DecidableEq

namespace Session

def new (user : User) : Session where
  document := Document.new user
  active := none

/-- A session on a document that was kept, with its history restored. -/
def ofDocument (d : Document) : Except DocumentError Session :=
  match d.loadGrammar with
  | .error cause => .error cause
  | .ok none => .ok ⟨d, none⟩
  | .ok (some g) => .ok ⟨d, some ⟨g, History.restore g d.history⟩⟩

def grammar (s : Session) : Option Grammar :=
  s.active.map (·.grammar)

def history (s : Session) : Option History :=
  s.active.map (·.history)

/-- The session with another history of the grammar in use. -/
def withActive (s : Session) (g : Grammar) (h : History) : Session :=
  { s with active := some ⟨g, h⟩ }

/-- Takes a grammar into use. History survives exactly if it belongs to the same rules;
otherwise it starts afresh and the stored text is dropped. -/
def setGrammar (g : Grammar) (s : Session) : Session :=
  let d := s.document.withGrammar g
  match s.active with
  | some a =>
    -- The fingerprint is that of the rules, so the alphabets may differ.
    if a.history.grammarId = g.id then ⟨d, some ⟨g, a.history⟩⟩
    else ⟨d.withHistory none, some ⟨g, History.new g⟩⟩
  | none => ⟨d.withHistory none, some ⟨g, History.new g⟩⟩

def offers (s : Session) : List Offer :=
  match s.active with
  | some a => a.grammar.offers a.history.derivation.current
  | none => []

/-- Applies the rule with a given ordinal, recording a completion under the stamp. -/
def apply (stamp : Stamp) (n : Ordinal) (s : Session) : Except SessionError (Outcome × Session) :=
  match s.active with
  | none => .error .noGrammar
  | some a =>
    if n = 0 then .error (.derivation (.outOfRange n))
    else
      match a.history.apply a.grammar stamp (n - 1) with
      | .error cause => .error (.derivation cause)
      | .ok (outcome, h) => .ok (outcome, s.withActive a.grammar h)

/-- Applies the rule that a key selects, if there is one and it is available; any other key is
ignored. -/
def pressKey (stamp : Stamp) (key : Char) (s : Session) : Option (Outcome × Session) := do
  let a ← s.active
  let n ← Ordinal.ofKeyWithin? a.grammar.rules.length key
  let r ← a.grammar.rule? n
  if r.applies a.history.derivation.current then (s.apply stamp n).toOption else none

def undo (s : Session) : Except SessionError (Step × Session) :=
  match s.active with
  | none => .error .noGrammar
  | some a =>
    match a.history.undo with
    | .error cause => .error (.derivation cause)
    | .ok (step, h) => .ok (step, s.withActive a.grammar h)

def reset (s : Session) : Session :=
  match s.active with
  | none => s
  | some a => s.withActive a.grammar a.history.reset

def remove (id : String) (s : Session) : Bool × Session :=
  match s.active with
  | none => (false, s)
  | some a =>
    let (removed, h) := a.history.remove id
    (removed, s.withActive a.grammar h)

def persist (s : Session) : Session :=
  match s.active with
  | none => s
  | some a =>
    { s with document := s.document.withHistory (some (a.history.snapshot a.grammar).text) }

/-- Starts over and takes the derivation in progress out of the document. Completed
derivations stay there; with none left the stored history goes. -/
def clear (s : Session) : Session :=
  let s := s.reset
  match s.active with
  | some a =>
    if a.history.saved = [] then { s with document := s.document.withHistory none }
    else s.persist
  | none => { s with document := s.document.withHistory none }

end Session

end Sentential
