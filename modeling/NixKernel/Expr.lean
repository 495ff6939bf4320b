import NixKernel.Value

/-!
Expressions, the bodies that thunks, functions and attribute definitions are made of. Beside the
operators and binding forms of the language they have forms that look at a value without forcing
it, forms that leave a mark when they are evaluated, and a form that goes on after an error.
-/

namespace NixKernel

/-! ### The parts of an expression, over the expressions inside -/

/-- A definition of an attribute: the components of its path, and its value. -/
structure EntryOf (ε : Type) where
  path : List ε
  value : ε

/-- A parameter that is taken from a set, with an optional default. -/
structure FormalOf (ε : Type) where
  name : String
  fallback : Option ε

/-- What a function takes: its argument under a name, or the attributes of a set. A pattern may
bind the whole argument too, and may allow attributes that it does not name. -/
inductive ParamOf (ε : Type) where
  | name (x : String)
  | pattern (formals : List (FormalOf ε)) (whole : Option String) (openEnded : Bool)

/-! ### Expressions -/

inductive Expr where
  /-- A value as it is. -/
  | lit (v : Value)
  /-- Ends without a value. -/
  | nothing
  /-- Fails with a text. -/
  | raise (text : String)
  /-- The path of a text, relative to the directory of the script. -/
  | toPath (text : String)
  /-- A list of delayed elements. -/
  | list (items : List Expr)
  /-- A list of evaluated elements. -/
  | eagerList (items : List Expr)
  /-- A set of evaluated attributes. -/
  | eagerSet (items : List (String × Expr))
  /-- A set built from definitions, which see each other if it is recursive. -/
  | attrset (recursive : Bool) (entries : List (EntryOf Expr))
  /-- The attribute of a set under construction, once it is complete. -/
  | pending (builder : Addr .builder) (name : String)
  | var (name : String)
  | letIn (entries : List (EntryOf Expr)) (body : Expr)
  | withIn (scope body : Expr)
  | lambda (param : ParamOf Expr) (body : Expr)
  | call (function : Expr) (args : List Expr)
  /-- The first branch if the condition is true, the second if it is anything else. -/
  | cond (condition yes no : Expr)
  | unary (o : Operator) (e : Expr)
  | binary (o : Operator) (l r : Expr)
  | comparison (o : Operator) (l r : Expr)
  /-- The three-way comparison of two numbers or two strings. -/
  | threeWay (l r : Expr)
  | has (e : Expr) (path : List Expr)
  | select (e : Expr) (path : List Expr) (fallback : Option Expr)
  /-- The forced components of a path. -/
  | attrPath (components : List Expr)
  | interpolate (e : Expr)
  | typeOf (e : Expr)
  /-- The text of the fully evaluated value. -/
  | print (e : Expr)
  /-- A thunk in the current scope. -/
  | delay (e : Expr)
  /-- A thunk in the empty scope. -/
  | detach (e : Expr)
  /-- A value inside so many thunks. -/
  | wrap (layers : Nat) (e : Expr)
  /-- The value of the second expression if the first one fails. -/
  | orElse (e other : Expr)
  | force (e : Expr)
  | deepForce (e : Expr)
  /-- The text of a value as it is now. -/
  | lazyText (e : Expr)
  /-- The type of a value as it is now. -/
  | lazyType (e : Expr)
  | isForced (e : Expr)
  /-- Looks into the forced value. -/
  | probe (p : Probe) (e : Expr)
  | scriptDir
  | depth
  /-- Writes a tag into the journal. -/
  | trace (tag : String) (e : Expr)
  /-- Fails the first so many times that it is evaluated. -/
  | flaky (id : String) (failures : Nat) (e : Expr)
  /-- Keeps the value in a register. -/
  | save (register : String) (e : Expr)
  | fetch (register : String)

abbrev Entry := EntryOf Expr
abbrev Formal := FormalOf Expr
abbrev Param := ParamOf Expr

namespace Expr

/-- The literal of a string. -/
def string (s : String) : Expr := .lit (.str s)

end Expr

/-- A short description of a parameter. -/
def ParamOf.describe {ε : Type} : ParamOf ε → String
  | .name x => x
  | .pattern _ none _ => "\x7b...\x7d"
  | .pattern _ (some x) _ => "\x7b...\x7d@" ++ x

end NixKernel
