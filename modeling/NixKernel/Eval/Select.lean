import NixKernel.Eval.Force

/-!
Attribute paths. A path leads from a value through sets; each value and each component on the way is
forced. `?` answers whether a path is there, and `.` gives what is at its end.
-/

namespace NixKernel.Comp

/-- Whether a path exists in a value. -/
def has (v : Value) : List Value → Comp Bool
  | [] => pure true
  | c :: cs => do
    match ← force v with
    | .set a =>
      match ← forceName c with
      | none => pure false
      | some name =>
        match (← attrs a).get? name with
        | none => pure false
        | some w => has w cs
    | _ => pure false

/-- The names of the components of a path, `null` for a component that is null. -/
def pathNames (path : List Value) : Comp (List String) :=
  path.mapM fun c => do
    return (← forceName c).getD "null"

/-- What `.` makes of a value on its way that is no set. -/
def selectNonSet (t : TypeName) : Option Value → Comp Value
  | some d => pure d
  | none => refuse (.selectFromNonSet t)

/-- What `.` makes of an attribute that is missing; `walked` is the path up to and with it. -/
def selectMissing (walked : List Value) : Option Value → Comp Value
  | some d => pure d
  | none => do
    match ← attempt (pathNames walked) with
    | .ok names => refuse (.missingAttr names)
    | .error _ => refuse (.missingAttr [])

/-- The value at the rest of a path; `walked` is the path so far. -/
def selectRest (fallback : Option Value) (walked : List Value) (v : Value) :
    List Value → Comp Value
  | [] => pure v
  | c :: cs => do
    match ← force v with
    | .set a =>
      match ← forceName c with
      | none => selectMissing (walked ++ [c]) fallback
      | some name =>
        match (← attrs a).get? name with
        | none => selectMissing (walked ++ [c]) fallback
        | some w => selectRest fallback (walked ++ [c]) w cs
    | x => selectNonSet x.typeName fallback

/-- The value at a path, or the fallback if the path does not exist. -/
def select (v : Value) (path : List Value) (fallback : Option Value) : Comp Value :=
  selectRest fallback [] v path

end NixKernel.Comp
