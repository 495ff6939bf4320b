import NixKernel.Eval.Compare

/-!
The unary and the binary operators. Operands are forced left to right and no further than the
operator needs; what is put into a new container is not forced.
-/

namespace NixKernel.Comp

def unary (o : Operator) (v : Value) : Comp Value :=
  match o with
  | .sub => do ofExcept (← force v).neg
  | .not => return .bool !(← forceBool v)
  | _ => refuse (.unsupportedUnary o)

/-- An operator that forces both operands and does not look into them. -/
def onForced (f : Value → Value → Except Cause Value) (l r : Value) : Comp Value := do
  let (x, y) ← forceBoth l r
  ofExcept (f x y)

/-- The attributes of both sets, those of the right one first in rank. -/
def update (l r : Value) : Comp Value := do
  let (x, y) ← forceBoth l r
  match x, y with
  | .set a, .set b => do newSet ((← attrs a).union (← attrs b))
  | x, y => refuse (.badOperands .update x.typeName y.typeName)

/-- The elements of both lists in a new one. -/
def concat (l r : Value) : Comp Value := do
  let (x, y) ← forceBoth l r
  match x, y with
  | .list a, .list b => do newList ((← items a) ++ (← items b))
  | x, y => refuse (.badOperands .concat x.typeName y.typeName)

/-- A truth value that is `decided` if the left operand is `test`, and else the right operand. -/
def shortCut (test decided : Bool) (l r : Value) : Comp Value := do
  if (← forceBool l) == test then pure (.bool decided)
  else return .bool (← forceBool r)

def binary (o : Operator) (l r : Value) : Comp Value :=
  match o with
  | .add => onForced Value.add l r
  | .sub => onForced Value.sub l r
  | .mul => onForced Value.mul l r
  | .div => onForced Value.div l r
  | .update => update l r
  | .concat => concat l r
  | .and => shortCut false false l r
  | .or => shortCut true true l r
  | .implies => shortCut false true l r
  | .eq | .ne | .lt | .gt | .ge | .le => comparison o l r
  | _ => refuse (.unsupportedBinary o)

/-- A three-way comparison as a number. -/
def ordinal : Ordering → Value
  | .lt => .int (-1)
  | .eq => .int 0
  | .gt => .int 1

end NixKernel.Comp
