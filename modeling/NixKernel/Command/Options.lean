/-!
The options of the command line. Options and arguments may alternate: a run of options ends at an
argument or at two hyphens, and an argument that looks like an option starts the next run.
-/

namespace NixKernel.Command

/-- What the command line asks for. -/
structure Options where
  help : Bool
  version : Bool
  scriptDir : String
  /-- The script directory was given by an option. -/
  scriptDirGiven : Bool
  args : List String

/-- Before any option is read only the environment may have given a script directory. -/
def Options.initial (scriptDir : Option String) : Options :=
  ⟨false, false, scriptDir.getD "", false, []⟩

/-- Why the options cannot be read. -/
inductive OptionError where
  | badSyntax (arg : String)
  | unknown (name : String)
  | badBool (name value : String)
  | noValue (name : String)
  deriving DecidableEq

/-- The text of an error; `quote` is how the value of an option is quoted in it. -/
def OptionError.message (quote : String → String) : OptionError → String
  | badSyntax arg => "bad flag syntax: " ++ arg
  | unknown name => "flag provided but not defined: -" ++ name
  | badBool name value =>
    "invalid boolean value " ++ quote value ++ " for -" ++ name ++ ": parse error"
  | noValue name => "flag needs an argument: -" ++ name

/-! ### One option -/

/-- The options by meaning. -/
inductive OptionName where
  | help | version | scriptDir
  deriving DecidableEq

def OptionName.ofText? : String → Option OptionName
  | "h" | "help" => some .help
  | "v" | "version" => some .version
  | "script-dir" => some .scriptDir
  | _ => none

/-- An argument that is written like an option. -/
def looksLikeOption (arg : String) : Bool :=
  arg.toList.head? == some '-' && 2 ≤ arg.utf8ByteSize

/-- The text of an option without its one or two hyphens. -/
def stripHyphens (arg : String) : List Char :=
  match arg.toList with
  | '-' :: '-' :: cs => cs
  | '-' :: cs => cs
  | cs => cs

/-- The name of an option, and its value if one is written after an equals sign. -/
def splitOption (arg : String) : Except OptionError (String × Option String) :=
  match stripHyphens arg with
  | [] | '-' :: _ | '=' :: _ => .error (.badSyntax arg)
  | cs =>
    let name := String.ofList (cs.takeWhile (· != '='))
    match cs.dropWhile (· != '=') with
    | [] => .ok (name, none)
    | _ :: value => .ok (name, some (String.ofList value))

/-- A truth value as options spell it. -/
def readBool? : String → Option Bool
  | "1" | "t" | "T" | "TRUE" | "true" | "True" => some true
  | "0" | "f" | "F" | "FALSE" | "false" | "False" => some false
  | _ => none

/-- The truth value of an option; without a value it is on. -/
def switchValue (name : String) : Option String → Except OptionError Bool
  | none => .ok true
  | some value =>
    match readBool? value with
    | some b => .ok b
    | none => .error (.badBool name value)

/-! ### The whole command line -/

def Options.setScriptDir (o : Options) (dir : String) : Options :=
  { o with scriptDir := dir, scriptDirGiven := true }

/-- Reads the command line after the name of the program; `inRun` says that the run of options
goes on. -/
def Options.read (o : Options) (inRun : Bool) : List String → Except OptionError Options
  | [] => .ok o
  | arg :: rest =>
    if arg = "--" then
      if inRun then o.read false rest else .ok { o with args := o.args ++ rest }
    else if !looksLikeOption arg || (!inRun && arg.startsWith "---") then
      Options.read { o with args := o.args ++ [arg] } false rest
    else
      match splitOption arg with
      | .error e => .error e
      | .ok (name, value) =>
        match OptionName.ofText? name, value with
        | none, _ => .error (.unknown name)
        | some .help, value =>
          match switchValue name value with
          | .error e => .error e
          | .ok b => Options.read { o with help := b } true rest
        | some .version, value =>
          match switchValue name value with
          | .error e => .error e
          | .ok b => Options.read { o with version := b } true rest
        | some .scriptDir, some dir => (o.setScriptDir dir).read true rest
        | some .scriptDir, none =>
          match rest with
          | [] => .error (.noValue name)
          | dir :: rest => (o.setScriptDir dir).read true rest

/-- Reads a command line after the environment. -/
def Options.parse (quote : String → String) (scriptDir : Option String) (args : List String) :
    Except String Options :=
  ((Options.initial scriptDir).read true args).mapError (OptionError.message quote)

end NixKernel.Command
