import Sentential.Disk.Path

/-!
# The disk

The files and directories that a run can see, as a value. A location is the list of names
from the root. Looking up a path walks its segments from the working directory or the root,
and every failure is one that the operating system would report.
-/

namespace Sentential

/-- Why a file cannot be read or created. -/
inductive FileError where
  | notFound
  | notDirectory
  | isDirectory
  | nameTooLong
  | nulInName
  | notUtf8
deriving DecidableEq

def FileError.message : FileError → String
  | .notFound => "No such file or directory (os error 2)"
  | .notDirectory => "Not a directory (os error 20)"
  | .isDirectory => "Is a directory (os error 21)"
  | .nameTooLong => "File name too long (os error 36)"
  | .nulInName => "file name contained an unexpected NUL byte"
  | .notUtf8 => "stream did not contain valid UTF-8"

/-- The names that lead from the root to a place. -/
abbrev Location := List String

/-- What a location holds. -/
inductive Node where
  | directory
  | file (content : ByteArray)

instance : DecidableEq Node
  | .directory, .directory => isTrue rfl
  | .directory, .file _ => isFalse nofun
  | .file _, .directory => isFalse nofun
  | .file a, .file b =>
    decidable_of_iff (a.data = b.data)
      ⟨fun h => congrArg Node.file (ByteArray.ext h), fun h => congrArg (·.data) (Node.file.inj h)⟩

/-- The places in use, apart from the root, and the working directory. -/
structure Disk where
  home : Location
  nodes : List (Location × Node)
deriving DecidableEq

namespace Disk

def maxName : Nat := 255

def maxPath : Nat := 4095

/-- What a location holds; the root is always a directory. -/
def node? (d : Disk) (place : Location) : Option Node :=
  if place = [] then some .directory else d.nodes.lookup place

def put (d : Disk) (place : Location) (node : Node) : Disk :=
  { d with nodes := (place, node) :: d.nodes.filter (·.1 ≠ place) }

/-- What a name stands for inside a directory. -/
def child (d : Disk) (place : Location) (name : List Char) :
    Except FileError (Location × Option Node) :=
  let next := place ++ [String.ofList name]
  if maxName < (String.ofList name).utf8ByteSize then .error .nameTooLong
  else .ok (next, d.node? next)

/-- Follows one segment of a path into a directory. -/
def enter (d : Disk) (place : Location) (segment : List Char) : Except FileError Location :=
  if Path.isIdle segment then .ok place
  else if segment = Path.above then .ok place.dropLast
  else
    match d.child place segment with
    | .error cause => .error cause
    | .ok (next, some .directory) => .ok next
    | .ok (_, some (.file _)) => .error .notDirectory
    | .ok (_, none) => .error .notFound

/-- Where a path ends: at a directory reached by the way, or at a name inside one, which a
slash behind it marks as a directory. -/
inductive End where
  | directory (place : Location)
  | name (place : Location) (name : List Char) (slash : Bool)

/-- Follows a path up to its last segment. -/
def walk (d : Disk) (path : String) : Except FileError End :=
  let cs := path.toList
  let segments := (cs.splitOn '/').filter (· ≠ [])
  let origin := if cs.head? = some '/' then [] else d.home
  if '\x00' ∈ cs then .error .nulInName
  else if maxPath < path.utf8ByteSize then .error .nameTooLong
  else if cs = [] then .error .notFound
  else
    match segments.getLast? with
    | none => .ok (.directory origin)
    | some last =>
      match segments.dropLast.foldlM d.enter origin with
      | .error cause => .error cause
      | .ok place =>
        -- A dot or two dots at the end name a directory, which has to be there.
        if Path.isIdle last || last == Path.above then (d.enter place last).map .directory
        else .ok (.name place last (cs.getLast? == some '/'))

def find (d : Disk) (path : String) : Except FileError Node :=
  match d.walk path with
  | .error cause => .error cause
  | .ok (.directory _) => .ok .directory
  | .ok (.name place name slash) =>
    match d.child place name with
    | .error cause => .error cause
    | .ok (_, none) => .error .notFound
    | .ok (_, some .directory) => .ok .directory
    | .ok (_, some (.file content)) =>
      if slash then .error .notDirectory else .ok (.file content)

def exists? (d : Disk) (path : String) : Bool :=
  (d.find path).isOk

def isDirectory (d : Disk) (path : String) : Bool :=
  match d.find path with
  | .ok .directory => true
  | _ => false

def readBytes (d : Disk) (path : String) : Except FileError ByteArray :=
  match d.find path with
  | .error cause => .error cause
  | .ok .directory => .error .isDirectory
  | .ok (.file content) => .ok content

def readText (d : Disk) (path : String) : Except FileError String :=
  match d.readBytes path with
  | .error cause => .error cause
  | .ok content =>
    match String.fromUTF8? content with
    | some text => .ok text
    | none => .error .notUtf8

/-- Writes a text as the whole content of the file at a path, which need not exist yet; its
directory has to. -/
def writeText (d : Disk) (path text : String) : Except FileError Disk :=
  match d.walk path with
  | .error cause => .error cause
  | .ok (.directory _) => .error .isDirectory
  | .ok (.name _ _ true) => .error .isDirectory
  | .ok (.name place name false) =>
    match d.child place name with
    | .error cause => .error cause
    | .ok (_, some .directory) => .error .isDirectory
    | .ok (next, _) => .ok (d.put next (.file text.toUTF8))

theorem node?_put_self (d : Disk) {place : Location} (node : Node) (h : place ≠ []) :
    (d.put place node).node? place = some node := by
  simp [node?, put, h]

end Disk

end Sentential
