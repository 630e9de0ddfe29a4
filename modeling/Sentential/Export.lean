import Sentential.Disk.Path
import Sentential.Display
import Sentential.Document.Stored
import Sentential.Failure

/-!
# Exports

The completed derivations of a grammar can be written to a file, as JSON or as plain text.
The format is named outright or taken from the file's extension; capitals make no difference
in either.
-/

namespace Sentential

inductive Export.Format where
  | json
  | text
deriving DecidableEq

namespace Export

/-- The names of the formats, in lowercase. -/
def Format.ofLowercase? (name : List Char) : Option Format :=
  if name = ['j', 's', 'o', 'n'] then some .json
  else if name = ['t', 'e', 'x', 't'] ∨ name = ['t', 'x', 't'] then some .text
  else none

/-- The format with a given name. The names are made of letters that only ASCII capitals
correspond to. -/
def Format.ofName (name : String) : Except Failure Format :=
  match ofLowercase? (name.toList.map Char.toLower) with
  | some format => .ok format
  | none => .error (.plain s!"Unsupported output format: {name}")

/-- The format that the extension of a path stands for. -/
def Format.ofPath (path : String) : Except Failure Format :=
  match (Path.extension? path).bind fun e => ofLowercase? (e.map Char.toLower) with
  | some format => .ok format
  | none => .error (.plain s!"Unknown or missing file extension for path: {path}")

def unlines (lines : List String) : String :=
  String.join (lines.map (· ++ "\n"))

def ruleLines (g : Grammar) : List String :=
  g.numbered.map fun (n, r) => Display.numberedRule n r

/-- The two lines of an exported derivation with its number. -/
def entryLines (number : Nat) (e : Entry) : List String :=
  [s!"{number}. {Display.form e.finalWord} [{e.timestamp.plain}]",
    s!"   {Display.chain e.steps}"]

/-- Rules and derivations as plain text. -/
def plainText (g : Grammar) (saved : List Entry) : String :=
  unlines (s!"== Rules ({g.rules.length} total) ==" :: ruleLines g
    ++ "" :: s!"== Derivations ({saved.length} total) =="
    :: (saved.zipIdx.flatMap fun (e, i) => entryLines (i + 1) e))

/-- Grammar and derivations as indented JSON with a final line break. -/
def jsonText (g : Grammar) (saved : List Entry) : String :=
  let value := Json.ofFields [("grammar", some (GrammarSection.ofGrammar g).toJson),
    ("derivations", some (.array (saved.map Entry.toJson)))]
  value.print .indented ++ "\n"

def content (g : Grammar) (saved : List Entry) : Format → String
  | .json => jsonText g saved
  | .text => plainText g saved

def cannotCreate (path cause : String) : Failure where
  message := s!"Failed to create output file: {path}"
  cause := some cause

end Export

end Sentential
