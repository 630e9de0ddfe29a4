import Sentential.Disk
import Sentential.Document.Stored

/-!
# Storage

Documents are saved to and loaded from a storage that may refuse. Whoever asks gets an answer
and the storage as it is afterwards: done, cancelled by the user, or failed with a message.
Besides the document, texts can be written to files.
-/

namespace Sentential

/-- The answer to a request to save or load. -/
inductive Answer (α : Type) where
  | done (value : α)
  | cancelled
  | failed (message : String)
deriving DecidableEq

/-- A place that keeps one document and can create files. -/
class Storage (σ : Type) where
  save : Document → σ → Answer Unit × σ
  load : σ → Answer Document × σ
  writeText : String → String → σ → Except FileError σ

/-- The message of a failure to read or write the document's file. -/
def FileError.storageMessage (e : FileError) : String :=
  s!"snapshot I/O failed: {e.message}"

/-- A document kept as one file on a disk. -/
structure FileStorage where
  disk : Disk
  path : String

namespace FileStorage

def save (d : Document) (s : FileStorage) : Answer Unit × FileStorage :=
  match s.disk.writeText s.path d.text with
  | .ok disk => (.done (), { s with disk })
  | .error cause => (.failed cause.storageMessage, s)

def load (s : FileStorage) : Answer Document :=
  match s.disk.readText s.path with
  | .error cause => .failed cause.storageMessage
  | .ok text =>
    match Document.ofText text with
    | .ok d => .done d
    | .error cause => .failed cause.message

instance : Storage FileStorage where
  save := save
  load s := (s.load, s)
  writeText path text s := (s.disk.writeText path text).map fun disk => { s with disk }

end FileStorage

/-- A document kept in memory. Scripted answers are given first, one per request; with a
standing failure every other request fails. -/
structure MemoryStorage where
  document : Option Document
  failure : Option String
  saveScript : List (Answer Unit)
  loadScript : List (Answer Document)
  disk : Disk

namespace MemoryStorage

def empty (failure : Option String) (disk : Disk) : MemoryStorage where
  document := none
  failure := failure
  saveScript := []
  loadScript := []
  disk := disk

/-- Keeps the document, unless the script or a standing failure refuses. A document is kept
exactly if the answer is that it was. -/
def save (d : Document) (s : MemoryStorage) : Answer Unit × MemoryStorage :=
  match s.saveScript, s.failure with
  | .done () :: later, _ => (.done (), { s with saveScript := later, document := some d })
  | refusal :: later, _ => (refusal, { s with saveScript := later })
  | [], some message => (.failed message, s)
  | [], none => (.done (), { s with document := some d })

/-- Gives back the document, unless the script or a standing failure answers. An empty storage
answers as if the user had dismissed the request. -/
def load (s : MemoryStorage) : Answer Document × MemoryStorage :=
  match s.loadScript, s.failure, s.document with
  | answer :: later, _, _ => (answer, { s with loadScript := later })
  | [], some message, _ => (.failed message, s)
  | [], none, some d => (.done d, s)
  | [], none, none => (.cancelled, s)

instance : Storage MemoryStorage where
  save := save
  load := load
  writeText path text s := (s.disk.writeText path text).map fun disk => { s with disk }

/-- What is kept after a request to save is the document if it was saved, and else what was
kept before. -/
theorem document_save (d : Document) (s : MemoryStorage) :
    (s.save d).2.document =
      match (s.save d).1 with
      | .done () => some d
      | _ => s.document := by
  cases hscript : s.saveScript with
  | nil => cases hfailure : s.failure <;> simp [save, hscript, hfailure]
  | cons answer later => cases answer <;> simp [save, hscript]

end MemoryStorage

end Sentential
