import NixKernel.Error.Kind
import NixKernel.Operator
import NixKernel.TypeName

/-!
Why an evaluation fails. Each cause belongs to a kind and has its message here and nowhere else.
-/

namespace NixKernel

/-- Why an evaluation fails. -/
inductive Cause where
  | negate (t : TypeName)
  | badOperands (o : Operator) (l r : TypeName)
  | notBool (t : TypeName)
  | incomparable (l r : TypeName)
  | unsupportedUnary (o : Operator)
  | unsupportedBinary (o : Operator)
  | unsupportedComparison (o : Operator)
  | scopeNotSet (t : TypeName)
  | selectFromNonSet (t : TypeName)
  | argumentNotSet (function : String) (t : TypeName)
  | missingAttr (path : List String)
  | unbound (name : String)
  | duplicate (name : String)
  | duplicateTyped (name : String) (t : TypeName)
  | emptyAttrPath
  | nameNotString (t : TypeName)
  | missingArg (function name : String)
  | unexpectedArg (name : String)
  | notAFunction (t : TypeName)
  | notAString (t : TypeName)
  | cyclicThunk
  | cyclicAttr (name : String)
  | depthLimit
  | incompleteSet
  | divByZero
  deriving DecidableEq

namespace Cause

def kind : Cause → ErrorKind
  | negate _ | badOperands .. | notBool _ | incomparable .. | unsupportedUnary _
  | unsupportedBinary _ | unsupportedComparison _ | scopeNotSet _ | selectFromNonSet _
  | argumentNotSet .. => .typeMismatch
  | missingAttr _ => .missingAttr
  | unbound _ => .unboundVar
  | duplicate _ | duplicateTyped .. => .duplicateAttr
  | emptyAttrPath | nameNotString _ => .badAttrName
  | missingArg .. => .missingArg
  | unexpectedArg _ => .unexpectedArg
  | notAFunction _ => .notAFunction
  | notAString _ => .coercion
  | cyclicThunk | cyclicAttr _ | depthLimit | incompleteSet => .infiniteRecursion
  | divByZero => .divByZero

/-- What is wrong with two operands. -/
def operands (l r : TypeName) : Operator → String
  | .add => "cannot add " ++ l.quoted ++ " to " ++ r.quoted
  | .sub => "cannot subtract " ++ l.quoted ++ " and " ++ r.quoted
  | .mul => "cannot multiply " ++ l.quoted ++ " and " ++ r.quoted
  | .div => "cannot divide " ++ l.quoted ++ " and " ++ r.quoted
  | .concat => "cannot concatenate " ++ l.quoted ++ " and " ++ r.quoted
  | o => "cannot apply operator " ++ o.quoted ++ " on " ++ l.quoted ++ " and " ++ r.quoted

def message : Cause → String
  | negate t => "cannot negate a " ++ t.quoted
  | badOperands o l r => operands l r o
  | notBool t => "value is a " ++ t.quoted ++ " while a boolean was expected"
  | incomparable l r => "cannot compare a " ++ l.quoted ++ " with a " ++ r.quoted
  | unsupportedUnary o => "unsupported unary operator " ++ o.quoted
  | unsupportedBinary o => "unsupported binary operator " ++ o.quoted
  | unsupportedComparison o => "unsupported comparison operator " ++ o.quoted
  | scopeNotSet t => "value is " ++ t.quoted ++ " while a set was expected"
  | selectFromNonSet t => "value is a " ++ t.quoted ++ " while a set was expected"
  | argumentNotSet f t =>
    "function '" ++ f ++ "' expects a set argument but got a " ++ t.quoted
  | missingAttr path => "attribute '" ++ String.intercalate "." path ++ "' missing"
  | unbound name => "undefined variable '" ++ name ++ "'"
  | duplicate name => "attribute '" ++ name ++ "' already defined"
  | duplicateTyped name t => "attribute '" ++ name ++ "' already defined as a " ++ t.quoted
  | emptyAttrPath => "empty attribute path"
  | nameNotString t =>
    "attribute name is of type " ++ t.quoted ++ " but a string was expected"
  | missingArg f name => "function '" ++ f ++ "' called without required argument '" ++ name ++ "'"
  | unexpectedArg name => "function called with unexpected argument '" ++ name ++ "'"
  | notAFunction t =>
    "attempt to call something which is not a function but a " ++ t.quoted
  | notAString t => "cannot coerce a " ++ t.quoted ++ " to a string"
  | cyclicThunk => "infinite recursion encountered"
  | cyclicAttr name =>
    "infinite recursion encountered while evaluating attribute '" ++ name ++ "'"
  | depthLimit => "stack overflow (possible infinite recursion)"
  | incompleteSet => "attribute set construction did not complete"
  | divByZero => "integer division by zero"

end Cause

end NixKernel
