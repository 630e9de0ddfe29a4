/-!
# Paths

A path names a file relative to the working directory, or from the root if it starts with a
slash. Repeated slashes, slashes at the end and single dots say nothing, except for a dot at
the very beginning.
-/

namespace Sentential.Path

/-- What a path starts from: the root, a dot that stands for the working directory, or
nothing. -/
def anchor : List Char → List Char
  | '/' :: _ => ['/']
  | ['.'] => ['.']
  | '.' :: '/' :: _ => ['.']
  | _ => []

/-- A segment that leads nowhere else. -/
def isIdle (segment : List Char) : Bool :=
  segment = [] || segment = ['.']

/-- The segment that leads to the directory above. -/
def above : List Char := ['.', '.']

/-- Segments without the idle ones at their end. -/
def dropIdle (segments : List (List Char)) : List (List Char) :=
  (segments.reverse.dropWhile isIdle).reverse

/-- The segments behind the anchor, up to the last one that matters. -/
def segments (path : List Char) : List (List Char) :=
  dropIdle ((path.drop (anchor path).length).splitOn '/')

/-- The directory that a path names something in, as a path; the root and the empty path lie
in none. -/
def parent? (path : String) : Option String :=
  let cs := path.toList
  match segments cs with
  | [] => if anchor cs = ['.'] then some "" else none
  | segs =>
    some (String.ofList (anchor cs ++ ['/'].intercalate (dropIdle segs.dropLast)))

/-- The name of the file in its directory, unless the path leads upward or ends at its
anchor. -/
def fileName? (path : String) : Option (List Char) :=
  (segments path.toList).getLast?.filter (· ≠ above)

/-- What follows the last point of the file name. A point at its very beginning does not
count. -/
def extension? (path : String) : Option (List Char) :=
  (fileName? path).bind fun name =>
    let ending := name.reverse.takeWhile (· ≠ '.')
    if ending.length + 1 < name.length then some ending.reverse else none

end Sentential.Path
