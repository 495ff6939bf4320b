import NixKernel.Arithmetic
import NixKernel.Eval.Force

/-!
Equality and order. Lists and sets are compared part by part, and parts are forced only until the
answer is known.
-/

namespace NixKernel.Comp

/-! ### Equality -/

/-- The elements of two lists are equal one by one. -/
def equalItems : List Value → List Value → Comp Bool
  | x :: xs, y :: ys => do
    if ← request (.equal x y) then equalItems xs ys else pure false
  | _, _ => pure true

/-- The attributes of one set are equal to those of the same names in another. -/
def equalAttrs (other : Attrs Value) : List (String × Value) → Comp Bool
  | [] => pure true
  | (name, x) :: rest =>
    match other.get? name with
    | none => pure false
    | some y => do
      if ← request (.equal x y) then equalAttrs other rest else pure false

/-- Two values are equal. -/
def equal (l r : Value) : Comp Bool := do
  let (x, y) ← forceBoth l r
  match x, y with
  | .list a, .list b =>
    let xs ← items a
    let ys ← items b
    if xs.length = ys.length then equalItems xs ys else pure false
  | .set a, .set b =>
    let m ← attrs a
    let n ← attrs b
    if m.size = n.size then equalAttrs n m.bindings else pure false
  | x, y => pure (x.plainEq y)

/-! ### Order -/

/-- The first pair of elements of which one is less than the other decides; else the shorter list
is less. Pairs of the same constant are passed over. -/
def lessItems : List Value → List Value → Comp Bool
  | x :: xs, y :: ys => do
    let (a, b) ← forceBoth x y
    if a.isSameConstant b then lessItems xs ys
    else if ← request (.less a b) then pure true
    else match ← attempt (request (.less b a)) with
      | .ok true => pure false
      | _ => lessItems xs ys
  | [], ys => pure !ys.isEmpty
  | _ :: _, [] => pure false

/-- One forced value is less than another. -/
def less (x y : Value) : Comp Bool :=
  match x, y with
  | .list a, .list b => do lessItems (← items a) (← items b)
  | x, y => ofExcept (x.plainLess y)

/-! ### The comparison operators -/

/-- Forces both operands, the left one first, and compares them. -/
def compareForced (test : Value → Value → Comp Bool) (l r : Value) : Comp Value := do
  let (x, y) ← forceBoth l r
  return .bool (← test x y)

/-- A comparison operator on two values. -/
def comparison (o : Operator) (l r : Value) : Comp Value :=
  match o with
  | .eq => return .bool (← request (.equal l r))
  | .ne => return .bool !(← request (.equal l r))
  | .lt => compareForced (fun x y => request (.less x y)) l r
  | .gt => compareForced (fun x y => request (.less y x)) l r
  | .le => compareForced (fun x y => return !(← request (.less y x))) l r
  | .ge => compareForced (fun x y => return !(← request (.less x y))) l r
  | _ => refuse (.unsupportedComparison o)

end NixKernel.Comp
