import Sentential.CommandLine.Options

/-!
# Help and usage errors

What is printed instead of a run: an overview of the commands and their options, the version,
or a word on what is wrong with the arguments.
-/

namespace Sentential.CommandLine

def usageLines : List String :=
  ["Build words of a formal grammar step by step.",
    "",
    "Commands:",
    "  init      create a document (--last-name, --first-name, --patronymic, --group, --force)",
    "  grammar   author the grammar (-t, -n, -r, --remove-rule, --remove-terminal,",
    "            --remove-non-terminal, --fresh)",
    "  show      print the grammar, the current derivation and the completed ones",
    "  derive    derive words, one key or command a line (--autosave)",
    "  export    write the completed derivations to a file (-o, --format)",
    "  help      print this overview",
    "",
    "Options of every command:",
    "  -s, --snapshot    the document's file",
    "  --notice-ms       how long a rejected edit keeps the grammar from being saved",
    "  -h, --help        print this overview",
    "  -V, --version     print the version"]

def programVersion : String := "0.1.0"

def Refusal.lines : Refusal → List String
  | .help | .nothingGiven => usageLines
  | .version => [programVersion]
  | .missingCommand => ["error: a command is required"]
  | .unknownCommand => ["error: there is no such command"]
  | .unknownArgument => ["error: an argument is not expected here"]
  | .missingValue => ["error: an option needs a value"]
  | .badValue => ["error: a value is not a number in range"]
  | .surplusValue => ["error: an option takes no value"]
  | .repeatedArgument => ["error: an option is given twice"]
  | .missingArgument => ["error: a required option is missing"]

end Sentential.CommandLine
