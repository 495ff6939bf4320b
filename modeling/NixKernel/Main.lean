import NixKernel.Command

/-!
The executable: hands the command line, the environment and the working directory to the command,
and its texts and exit code to the system.
-/

open NixKernel

def main (args : List String) : IO UInt32 := do
  let scriptDir ← IO.getEnv Command.scriptDirVariable
  let workingDir : Except String String ←
    try
      let dir ← IO.currentDir
      pure (.ok dir.toString)
    catch e => pure (.error (toString e))
  let context : Command.Context := ⟨"\x7bv\x7d", "\x7bd\x7d", scriptDir, workingDir⟩
  let result := Command.run (Command.Options.parse String.quote) context args
  (← IO.getStdout).putStr result.stdout
  (← IO.getStderr).putStr result.stderr
  return result.code.toUInt32
