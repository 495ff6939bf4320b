import NixKernel.Path

/-!
Printing paths. Each argument is resolved against a directory and printed on a line of its own,
until something stands in the way.
-/

namespace NixKernel.Command

/-- Why printing stops. -/
inductive Stop where
  | cancelled
  | emptyPath
  | writeFailed
  deriving DecidableEq

def Stop.message : Stop → String
  | cancelled => "context canceled"
  | emptyPath => "invalid empty path"
  | writeFailed => "write failed"

/-- Where lines are printed: whether it has been called off, and how many lines it takes before it
fails, if it ever does. -/
structure Sink where
  cancelled : Bool
  capacity : Option Nat

/-- The sink that takes every line. -/
def Sink.endless : Sink := ⟨false, none⟩

/-- The sink after one more line. -/
def Sink.take? (k : Sink) : Option Sink :=
  match k.capacity with
  | none => some k
  | some 0 => none
  | some (n + 1) => some { k with capacity := some n }

/-- The lines that are printed, and why printing stopped before the end. -/
def printPaths (dir : Path) (sink : Sink) : List String → List String × Option Stop
  | [] => ([], none)
  | p :: ps =>
    if sink.cancelled then ([], some .cancelled)
    else if p = "" then ([], some .emptyPath)
    else match sink.take? with
      | none => ([], some .writeFailed)
      | some sink =>
        let (lines, stop) := printPaths dir sink ps
        ((dir.resolve p).text :: lines, stop)

/-- Lines as they appear in the output. -/
def lineText (lines : List String) : String := String.join (lines.map fun l => l ++ "\n")

/-- What is written to the error output when printing stops. -/
def stopText : Option Stop → String
  | none => ""
  | some s => s.message ++ "\n"

end NixKernel.Command
