import NixKernel.Eval.Force

/-!
Full evaluation: of a value that is to be spelled out, and of everything that can be reached from
a value.
-/

namespace NixKernel.Comp

/-- Spells out a value inside the containers `above`, forcing on the way. -/
def spell (above : List Container) (v : Value) : Comp Tree := do
  match ← force v with
  | .int n => pure (.int n)
  | .float x => pure (.float x)
  | .bool b => pure (.bool b)
  | .null => pure .null
  | .str s => pure (.str s)
  | .path p => pure (.path p)
  | .lambda _ => pure .lambda
  | .thunk _ => pure .thunk
  | .list a =>
    if Container.list a ∈ above then pure .repeated
    else
      let xs ← items a
      return .list (← xs.mapM fun x => request (.spell (.list a :: above) x))
  | .set a =>
    if Container.set a ∈ above then pure .repeated
    else
      let m ← attrs a
      return .set (← m.bindings.mapM fun p => do
        return (p.1, ← request (.spell (.set a :: above) p.2)))

/-- Sweeps values one after the other. -/
def sweepAll (seen : List Container) : List Value → Comp (List Container)
  | [] => pure seen
  | v :: vs => do
    let (_, seen) ← request (.sweep seen v)
    sweepAll seen vs

/-- Forces a value and everything inside it, each container once. -/
def sweep (seen : List Container) (v : Value) : Comp (Value × List Container) := do
  match ← force v with
  | .list a =>
    if Container.list a ∈ seen then pure (.list a, seen)
    else return (.list a, ← sweepAll (.list a :: seen) (← items a))
  | .set a =>
    if Container.set a ∈ seen then pure (.set a, seen)
    else return (.set a, ← sweepAll (.set a :: seen) ((← attrs a).bindings.map Prod.snd))
  | x => pure (x, seen)

/-- Forces everything that can be reached from a value. -/
def deepForce (v : Value) : Comp Value := do
  return (← request (.sweep [] v)).1

/-- The printed form of the fully evaluated value. -/
def print (v : Value) : Comp String := do
  let t : Tree ← request (.spell [] v)
  return t.text

/-- The type of a forced value. -/
def typeOf (v : Value) : Comp TypeName := do
  return (← force v).typeName

end NixKernel.Comp
