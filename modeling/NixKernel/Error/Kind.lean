/-!
The kinds of evaluation errors, with their numbers and labels.
-/

namespace NixKernel

/-- What an evaluation error is about. -/
inductive ErrorKind where
  | unknown | typeMismatch | missingAttr | unboundVar | duplicateAttr | badAttrName
  | missingArg | unexpectedArg | notAFunction | coercion | infiniteRecursion | divByZero
  deriving DecidableEq

namespace ErrorKind

/-- Every kind once, in the order of their numbers. -/
def all : List ErrorKind :=
  [unknown, typeMismatch, missingAttr, unboundVar, duplicateAttr, badAttrName, missingArg,
    unexpectedArg, notAFunction, coercion, infiniteRecursion, divByZero]

def label : ErrorKind → String
  | unknown => "unknown error"
  | typeMismatch => "type mismatch"
  | missingAttr => "missing attribute"
  | unboundVar => "unbound variable"
  | duplicateAttr => "duplicate attribute"
  | badAttrName => "bad attribute name"
  | missingArg => "missing argument"
  | unexpectedArg => "unexpected argument"
  | notAFunction => "not a function"
  | coercion => "coercion error"
  | infiniteRecursion => "infinite recursion"
  | divByZero => "division by zero"

/-- The number of a kind. -/
def code (k : ErrorKind) : Nat := all.idxOf k

/-- The label of the kind of a number. -/
def labelOfCode (n : Nat) : String :=
  match all[n]? with
  | some k => k.label
  | none => "<invalid ErrorKind " ++ Nat.repr n ++ ">"

end ErrorKind

end NixKernel
