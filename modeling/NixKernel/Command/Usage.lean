/-!
The help texts of the command.
-/

namespace NixKernel.Command

/-- The name of the command. -/
def programName : String := "nixrt"

/-- The environment variable that gives the script directory. -/
def scriptDirVariable : String := "NIXRT_SCRIPT_DIR"

def lines (l : List String) : String := String.join (l.map fun s => s ++ "\n")

/-- The reminder after a command line that cannot be used. -/
def shortUsage : String := lines
  ["",
    "usage: " ++ programName ++ " [<option>...] <command> [<arg>...]",
    "Run '" ++ programName ++ " --help' for details."]

def longUsage : String := lines
  ["usage: " ++ programName ++ " [<option>...] <command> [<arg>...]",
    "       " ++ programName ++ " -h|--help",
    "       " ++ programName ++ " -v|--version",
    "",
    "Inspection tool for the " ++ programName ++ " Nix value runtime.",
    "",
    "The <command> can be one of:",
    "       builtins                  Print the universal built-ins available",
    "                                 to every evaluation.",
    "       topath                    Print each <arg> as a normalised path",
    "                                 value, resolving relative paths against",
    "                                 the script directory.",
    "",
    "Valid flag options are:",
    "       -h --help                 Show this help and exit.",
    "       -v --version              Print version and exit.",
    "",
    "Valid flag options for the <topath> command are:",
    "       --script-dir DIR          Absolute directory against which",
    "                                 relative paths are resolved (defaults",
    "                                 to the current working directory). Can",
    "                                 also be set with the " ++ scriptDirVariable,
    "                                 environment variable."]

end NixKernel.Command
