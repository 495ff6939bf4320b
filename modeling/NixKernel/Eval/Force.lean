import NixKernel.Comp

/-!
Small computations that all others are made of: forcing, and reading a forced value as a truth
value, a set or a name.
-/

namespace NixKernel.Comp

/-! ### Requests and actions by name -/

/-- Drives a value to one that is not a thunk. -/
def force : Value → Comp Value
  | .thunk t => request (.force t)
  | v => pure v

/-- Evaluates an expression in a scope. -/
def eval (env : Env) (e : Expr) : Comp Value := request (.eval env e)

def newThunk (env : Env) (body : Expr) : Comp Value := do
  return .thunk (← perform (.newThunk env body))

def newList (items : List Value) : Comp Value := do
  return .list (← perform (.newList items))

def newSet (m : Attrs Value) : Comp Value := do
  return .set (← perform (.newSet m))

/-- What is in a cell; there is no value where there is no cell. -/
def ofCell {α : Type} : Option α → Comp α
  | some a => pure a
  | none => fail .noValue

/-- The attributes of a set. -/
def attrs (a : Addr .set) : Comp (Attrs Value) := do ofCell (← perform (.attrs a))

/-- The elements of a list. -/
def items (a : Addr .list) : Comp (List Value) := do ofCell (← perform (.list a))

/-- An outcome computed without the store. -/
def ofExcept {α : Type} : Except Cause α → Comp α
  | .ok a => pure a
  | .error c => refuse c

/-! ### Forced values of one type -/

/-- Forces a truth value. -/
def forceBool (v : Value) : Comp Bool := do
  match ← force v with
  | .bool b => pure b
  | x => refuse (.notBool x.typeName)

/-- The name that a forced component of a path stands for; null stands for none. -/
def componentName : Value → Except Cause (Option String)
  | .str s => .ok (some s)
  | .null => .ok none
  | v => .error (.nameNotString v.typeName)

/-- Forces a component of a path. -/
def forceName (v : Value) : Comp (Option String) := do
  ofExcept (componentName (← force v))

/-- Forces two operands, the left one first. -/
def forceBoth (l r : Value) : Comp (Value × Value) := do
  let x ← force l
  let y ← force r
  return (x, y)

end NixKernel.Comp
