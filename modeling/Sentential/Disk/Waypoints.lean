import Sentential.Disk

/-!
# The places on the way to a file

To run against a part of a larger disk it is enough to know what stands at every beginning of
the paths that the run may follow. A run changes a disk only where the new disk holds a file
that the old one did not.
-/

namespace Sentential

/-- The beginnings of a path behind a given one, each with the place it denotes if nothing on
the way is missing. -/
def Path.waypointsFrom (text : List Char) (place : Location) :
    List (List Char) → List (String × Location)
  | [] => []
  | segment :: rest =>
    let text := text ++ segment
    let place :=
      if Path.isIdle segment then place
      else if segment = Path.above then place.dropLast
      else place ++ [String.ofList segment]
    (String.ofList text, place) :: waypointsFrom (text ++ ['/']) place rest

/-- Every beginning of a path with the place it denotes. -/
def Path.waypoints (home : Location) (path : String) : List (String × Location) :=
  let cs := path.toList
  let segments := (cs.splitOn '/').filter (· ≠ [])
  if cs.head? = some '/' then waypointsFrom ['/'] [] segments
  else waypointsFrom [] home segments

def Location.path (place : Location) : String :=
  "/" ++ "/".intercalate place

/-- The files that a disk holds and an older one does not, with their content. -/
def Disk.changes (older newer : Disk) : List (Location × ByteArray) :=
  newer.nodes.filterMap fun (place, node) =>
    match node with
    | .file content => if older.node? place = some node then none else some (place, content)
    | .directory => none

end Sentential
