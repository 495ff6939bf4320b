import NixKernel.Error.Report

/-!
How an evaluation ends without a value.
-/

namespace NixKernel

/-- A look into a forced value that only values of some types allow. -/
inductive Probe where
  /-- The description of the parameter of a function. -/
  | paramName
  /-- The number of elements or attributes. -/
  | length
  /-- The element of a list at a place. -/
  | index (n : Nat)
  /-- The attribute of a set under a name, null if there is none. -/
  | get (name : String)
  /-- The names of the attributes of a set. -/
  | keys
  deriving DecidableEq

def Probe.text : Probe → String
  | paramName => "name"
  | length => "len"
  | index _ => "index"
  | get _ => "get"
  | keys => "keys"

/-- How an evaluation ends without a value. -/
inductive Error where
  /-- The machine itself refuses to go on. -/
  | eval (cause : Cause)
  /-- The program under evaluation gives up with a text of its own. -/
  | raised (text : String)
  /-- A flaky expression fails, for so many times by now. -/
  | flaky (id : String) (count : Nat)
  /-- There is nothing in a register. -/
  | noRegister (register : String)
  /-- A probe does not apply to a value. -/
  | noProbe (probe : Probe) (t : TypeName)
  /-- A scope is to be extended by a value that is no set. -/
  | notASet
  /-- A body ended without a value. -/
  | noValue
  /-- The evaluation has used up the steps it was given. -/
  | outOfSteps
  deriving DecidableEq

namespace Error

def failure : Error → Failure
  | eval c => .report c.report
  | raised t => .plain t
  | flaky id n => .plain ("flaky " ++ id ++ " " ++ Nat.repr n)
  | noRegister r => .plain ("no register " ++ r)
  | noProbe p t => .plain ("no " ++ p.text ++ " on " ++ t.text)
  | notASet => .plain "not a set"
  | noValue => .plain "internal error: nil value returned by thunk body"
  | outOfSteps => .plain "out of steps"

/-- The kind of an evaluation error; other errors have none. -/
def kind? : Error → Option ErrorKind
  | eval c => some c.kind
  | _ => none

def text (e : Error) : String := e.failure.text

end Error

end NixKernel
