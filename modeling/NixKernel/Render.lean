import NixKernel.Eval.Deep

/-!
Ways to show a value, from leaving it as it is to evaluating it fully.
-/

namespace NixKernel

/-- How a value is to be shown. -/
inductive Mode where
  /-- Fully evaluated, with its type and the bits of a float. -/
  | full
  /-- As it is. -/
  | raw
  /-- After it has been forced. -/
  | forced
  /-- After everything that can be reached from it has been forced. -/
  | deep
  /-- Fully evaluated, as a line. -/
  | line
  /-- As it is, as a line. -/
  | lazyLine
  /-- Fully evaluated and spelled out. -/
  | tree
  deriving DecidableEq

/-- The mode writes a line, of which nothing is written if the value fails. -/
def Mode.isPrinting : Mode → Bool
  | line | lazyLine => true
  | _ => false

/-- What is shown of a value. -/
inductive Rendering where
  | text (out : String) (type : TypeName) (bits : Option UInt64)
  | tree (t : Tree)

namespace Comp

/-- Shows a value as it is. -/
def showRaw (v : Value) : Comp Rendering := do
  let t : Tree ← perform (.view v)
  return .text t.text (← perform (.typeName v)) none

/-- The bits of a float. -/
def floatBits : Value → Option UInt64
  | .float x => some x.toBits
  | _ => none

/-- Shows a value. -/
def render (v : Value) : Mode → Comp Rendering
  | .full => do
    let out ← print v
    let type ← typeOf v
    return .text out type (floatBits (← force v))
  | .raw => showRaw v
  | .forced => do showRaw (← force v)
  | .deep => do showRaw (← deepForce v)
  | .line => do
    let out ← print v
    return .text (out ++ "\n") (← perform (.typeName v)) none
  | .lazyLine => do
    let t : Tree ← perform (.view v)
    return .text (t.text ++ "\n") (← perform (.typeName v)) none
  | .tree => return .tree (← request (.spell [] v))

end Comp

end NixKernel
