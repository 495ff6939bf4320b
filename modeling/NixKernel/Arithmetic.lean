import NixKernel.Text.Order
import NixKernel.Value

/-!
Arithmetic on values that are not thunks. Integers have 64 bits and wrap around, their quotient is
cut toward zero, and a float among two numbers makes the result a float.
-/

namespace NixKernel

/-- A value that can be reckoned with. -/
inductive Number where
  | int (n : Int64)
  | float (x : Float)

namespace Number

/-- The float of a number, the nearest one if an integer has none of its own. -/
def toFloat : Number → Float
  | int n => n.toFloat
  | float x => x

/-- Combines two integers as integers and all other numbers as floats. -/
def combine (ints : Int64 → Int64 → Int64) (floats : Float → Float → Float) :
    Number → Number → Number
  | int m, int n => int (ints m n)
  | m, n => float (floats m.toFloat n.toFloat)

def toValue : Number → Value
  | int n => .int n
  | float x => .float x

end Number

namespace Value

def number? : Value → Option Number
  | int n => some (.int n)
  | float x => some (.float x)
  | _ => none

/-- An operator on two numbers. -/
def arithmetic (o : Operator) (ints : Int64 → Int64 → Int64) (floats : Float → Float → Float)
    (x y : Value) : Except Cause Value :=
  match x.number?, y.number? with
  | some m, some n => .ok (Number.combine ints floats m n).toValue
  | _, _ => .error (.badOperands o x.typeName y.typeName)

def neg : Value → Except Cause Value
  | int n => .ok (.int (-n))
  | float x => .ok (.float (-x))
  | v => .error (.negate v.typeName)

/-- The sum of numbers, the concatenation of strings, the string or the path after a path. -/
def add (x y : Value) : Except Cause Value :=
  match x, y with
  | str s, str t => .ok (.str (s ++ t))
  | path p, str t => .ok (.path (p.extend t))
  | path p, path q => .ok (.path (p.join q))
  | x, y => arithmetic .add (· + ·) (· + ·) x y

def sub (x y : Value) : Except Cause Value := arithmetic .sub (· - ·) (· - ·) x y

def mul (x y : Value) : Except Cause Value := arithmetic .mul (· * ·) (· * ·) x y

/-- The quotient of numbers; that of an integer by the integer zero is refused. -/
def div (x y : Value) : Except Cause Value :=
  match x, y with
  | int m, int n => if n = 0 then .error .divByZero else .ok (.int (m / n))
  | x, y => arithmetic .div (· / ·) (· / ·) x y

/-! ### Comparison of values without parts -/

/-- Equality of two values of which one at least is neither a list nor a set: equal numbers, or
the same value of the same type. -/
def plainEq (x y : Value) : Bool :=
  match x, y with
  | int m, int n => m == n
  | bool a, bool b => a == b
  | null, null => true
  | str s, str t => s == t
  | path p, path q => p == q
  | lambda a, lambda b => a == b
  | x, y =>
    match x.number?, y.number? with
    | some m, some n => m.toFloat == n.toFloat
    | _, _ => false

/-- The order of two values of which one at least is no list: numbers by their value, strings by
their text. -/
def plainLess (x y : Value) : Except Cause Bool :=
  match x, y with
  | int m, int n => .ok (m < n)
  | str s, str t => .ok (Text.Before s t)
  | x, y =>
    match x.number?, y.number? with
    | some m, some n => .ok (m.toFloat < n.toFloat)
    | _, _ => .error (.incomparable x.typeName y.typeName)

/-- Two nulls, or twice the same truth value. -/
def isSameConstant (x y : Value) : Bool :=
  match x, y with
  | bool a, bool b => a == b
  | null, null => true
  | _, _ => false

end Value

end NixKernel
