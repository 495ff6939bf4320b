import NixKernel.Command.Options
import NixKernel.Command.Paths
import NixKernel.Command.Usage
import NixKernel.Store.View

/-!
The command. It prints the names that every evaluation starts with, or resolves paths against the
directory of a script.
-/

namespace NixKernel.Command

/-! ### What is asked for -/

/-- Why a command line that can be read cannot be used. -/
inductive UsageError where
  | noCommand
  | unknownCommand (name : String)
  | noPath
  | scriptDirWith (name : String)
  | relativeScriptDir (name dir : String)
  deriving DecidableEq

def UsageError.message : UsageError → String
  | noCommand => "no command specified"
  | unknownCommand name => "unknown command: " ++ name
  | noPath => "topath: at least one path must be provided"
  | scriptDirWith name => name ++ ": invalid flag 'script-dir'"
  | relativeScriptDir name dir => name ++ ": script directory must be an absolute path: " ++ dir

/-- What the command is to do. -/
inductive Task where
  | help
  | version
  | builtins
  /-- Resolve paths against a directory, the working directory if it is empty. -/
  | toPath (dir : String) (paths : List String)

/-- A script directory, if there is one, must be absolute. -/
def checkScriptDir (name : String) (o : Options) (task : Task) : Except UsageError Task :=
  if o.scriptDir ≠ "" ∧ !Path.isAbsolute o.scriptDir then
    .error (.relativeScriptDir name o.scriptDir)
  else .ok task

/-- What the options ask for. -/
def Options.task (o : Options) : Except UsageError Task :=
  if o.help then .ok .help
  else if o.version then .ok .version
  else match o.args with
    | [] => .error .noCommand
    | "builtins" :: _ =>
      if o.scriptDirGiven then .error (.scriptDirWith "builtins")
      else checkScriptDir "builtins" o .builtins
    | ["topath"] => .error .noPath
    | "topath" :: paths => checkScriptDir "topath" o (.toPath o.scriptDir paths)
    | name :: _ => .error (.unknownCommand name)

/-! ### Running -/

/-- How a command ends. -/
structure Exit where
  code : Nat
  stdout : String
  stderr : String
  deriving DecidableEq

/-- What a command finds when it is started. -/
structure Context where
  version : String
  date : String
  /-- The script directory from the environment. -/
  scriptDir : Option String
  /-- The working directory, or why it cannot be found out. -/
  workingDir : Except String String

/-- The directory that paths are resolved against: the script directory or, if it is empty, the
working directory. -/
def Context.directory (c : Context) (dir : String) : Except String String :=
  if dir = "" then c.workingDir else .ok dir

/-- A command line that cannot be used. -/
def refuse (message : String) : Exit :=
  ⟨2, "", "invalid arguments: " ++ message ++ "\n" ++ shortUsage⟩

/-- Prints paths that are resolved against a directory. -/
def toPaths (dir : String) (sink : Sink) (paths : List String) : List String × Option Stop :=
  printPaths (.ofString dir) sink paths

/-- The names that every evaluation starts with, with their values. -/
def builtinsText : String := Store.initial.lazyText (.set .globals)

def Task.run (c : Context) : Task → Exit
  | .help => ⟨0, longUsage, ""⟩
  | .version => ⟨0, programName ++ " " ++ c.version ++ " " ++ c.date ++ "\n", ""⟩
  | .builtins => ⟨0, builtinsText ++ "\n", ""⟩
  | .toPath dir paths =>
    match c.directory dir with
    | .error message => ⟨1, "", message ++ "\n"⟩
    | .ok dir =>
      let (lines, stop) := toPaths dir .endless paths
      ⟨if stop.isSome then 1 else 0, lineText lines, stopText stop⟩

/-- Runs what the options ask for. -/
def Options.exit (c : Context) (o : Options) : Exit :=
  match o.task with
  | .error e => refuse e.message
  | .ok task => task.run c

/-- A parser of command lines. From the script directory of the environment and the arguments it
makes options, or it says why it cannot. -/
abbrev Parser := Option String → List String → Except String Options

/-- Runs a command line. -/
def run (parse : Parser) (c : Context) (args : List String) : Exit :=
  match parse c.scriptDir args with
  | .error message => refuse message
  | .ok o => o.exit c

end NixKernel.Command
