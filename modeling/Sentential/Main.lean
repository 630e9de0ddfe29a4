import Sentential.Calendar.Epoch
import Sentential.CommandLine.Run
import Sentential.CommandLine.Usage
import Sentential.Disk.Waypoints
import Std.Time.DateTime.Timestamp

/-!
# The program

This layer moves bytes. It copies the part of the file system that a run may touch into a
disk, lets the library run on it, prints what comes out and writes back the files that
changed. Names and times of completed derivations are drawn here.
-/

namespace Sentential.Program

open CommandLine

def nodeAt (path : String) : IO (Option Node) := do
  let target := (← IO.currentDir) / path
  match ← target.metadata.toBaseIO with
  | .error _ => return none
  | .ok data =>
    if data.type == .dir then return some .directory
    else return some (.file (← IO.FS.readBinFile target))

/-- Copies what stands on the way to some paths into a disk. -/
def capture (home : Location) (paths : List String) : IO Disk := do
  let mut disk : Disk := ⟨home, []⟩
  for path in paths do
    for (beginning, place) in Path.waypoints home path do
      if let some node := ← nodeAt beginning then
        disk := disk.put place node
  return disk

/-- Writes back the files that changed. -/
def commit (older newer : Disk) : IO Unit := do
  for (place, content) in older.changes newer do
    IO.FS.writeBinFile place.path content

def workingDirectory : IO Location := do
  return (← IO.currentDir).components.filter fun name => name != "" && name != "/"

/-- Sixteen random bytes as the text of a random identifier. -/
def freshName : IO String := do
  let bytes := (← IO.getRandomBytes 16).toList
  let digits := bytes.zipIdx.flatMap fun (b, i) =>
    let b := if i = 6 then b &&& 0x0f ||| 0x40 else if i = 8 then b &&& 0x3f ||| 0x80 else b
    [Json.hexDigit (b.toNat / 16), Json.hexDigit (b.toNat % 16)]
  let group (start length : Nat) : String := String.ofList ((digits.drop start).take length)
  return "-".intercalate [group 0 8, group 8 4, group 12 4, group 16 4, group 20 12]

def freshStamp : IO Stamp := do
  let nanoseconds := (← Std.Time.Timestamp.now).toNanosecondsSinceUnixEpoch.val
  let time := Calendar.Timestamp.ofEpoch? (nanoseconds / 1000000000)
    (nanoseconds % 1000000000).toNat
  return ⟨← freshName, time.getD Calendar.Timestamp.epoch⟩

/-- As many stamps as a line has characters, numbered from zero. -/
def stampsFor (line : String) : IO (Nat → Stamp) := do
  let spare ← freshStamp
  let mut stamps := #[]
  for _ in line.toList do
    stamps := stamps.push (← freshStamp)
  return fun index => stamps.getD index spare

def publish (r : Report) : IO UInt32 := do
  IO.print r.outputText
  IO.eprint r.errorText
  return UInt32.ofNat r.exitCode

/-- The paths that a line of input may touch, besides the document's. -/
def pathsOf (line : String) : List String :=
  match Input.ofChars (Text.trimChars line.toList) with
  | .exportTo path => [path]
  | _ => []

/-- Takes lines from standard input until the user quits, a line cannot be read, or the input
ends. -/
partial def converse (input : IO.FS.Stream) (home : Location) (c : Controller FileStorage) :
    IO UInt32 := do
  match ← input.getLine.toBaseIO with
  | .error _ => publish ⟨[], [], some unreadable⟩
  | .ok line =>
    let disk ← capture home (c.storage.path :: pathsOf line)
    let c := { c with storage.disk := disk }
    let (lines, after) ←
      if line.isEmpty then pure (closing c)
      else do pure (takeLine (← stampsFor line) line c)
    commit disk after.storage.disk
    let code ← publish (.success lines)
    if line.isEmpty || !after.running then return code
    converse input home after

/-- The paths that an invocation may touch. -/
def pathsFor (i : Invocation) : List String :=
  match i.command with
  | .exporting output _ => [i.snapshot, output]
  | _ => [i.snapshot]

def perform (i : Invocation) : IO UInt32 := do
  let home ← workingDirectory
  let disk ← capture home (pathsFor i)
  match i.command, Config.check disk i.snapshot with
  | .interactive autosave, .ok () =>
    match openController autosave ⟨disk, i.snapshot⟩ with
    | .error failure => publish (.refusal failure)
    | .ok c =>
      let _ ← publish (.success (opening c))
      converse (← IO.getStdin) home c
  | _, _ =>
    let spare ← freshStamp
    let (report, after) := i.run ByteArray.empty (fun _ _ => spare) disk
    commit disk after
    publish report

end Sentential.Program

open Sentential in
def main (args : List String) : IO UInt32 := do
  match CommandLine.readArguments args with
  | .ok i => Program.perform i
  | .error refusal =>
    let text := Export.unlines refusal.lines
    if refusal.exitCode = 0 then IO.print text else IO.eprint text
    return UInt32.ofNat refusal.exitCode
