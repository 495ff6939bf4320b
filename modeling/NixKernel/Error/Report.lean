import NixKernel.Error.Cause

/-!
Evaluation errors as they are handed to a caller, alone, in a context, or beside plain texts; and
how a caller asks what an error is.
-/

namespace NixKernel

/-- An evaluation error as it is reported: the number of its kind and a message. -/
structure Report where
  code : Nat
  message : String
  deriving DecidableEq

namespace Report

/-- The label of the kind, and the message if there is one. -/
def text (r : Report) : String :=
  if r.message = "" then ErrorKind.labelOfCode r.code
  else ErrorKind.labelOfCode r.code ++ ": " ++ r.message

/-- A report answers to a pattern of the same kind whose message is empty or the same. -/
def answersTo (r pattern : Report) : Bool :=
  pattern.code == r.code && (pattern.message == "" || pattern.message == r.message)

end Report

def Cause.report (c : Cause) : Report := ⟨c.kind.code, c.message⟩

/-- An error handed to a caller: a report, a report in a context, or a plain text. -/
inductive Failure where
  | report (r : Report)
  | inContext (context : String) (inner : Failure)
  | plain (text : String)

namespace Failure

def text : Failure → String
  | report r => r.text
  | inContext context inner => context ++ ": " ++ inner.text
  | plain t => t

/-- The report inside, if there is one. -/
def report? : Failure → Option Report
  | report r => some r
  | inContext _ inner => inner.report?
  | plain _ => none

/-- A failure is another if its report answers to the report that the other one is. -/
def is (f target : Failure) : Bool :=
  match f.report?, target with
  | some r, report pattern => r.answersTo pattern
  | _, _ => false

/-- The report inside has the kind of this number. -/
def hasKind (f : Failure) (code : Nat) : Bool :=
  match f.report? with
  | some r => r.code == code
  | none => false

end Failure

end NixKernel
