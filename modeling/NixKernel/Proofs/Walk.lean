import NixKernel.Eval.Select

/-!
The walk along an attribute path. `?` and `.` go along a path each in a loop of its own; both loops
stay in step with one walk that only says how it has ended, and differ in what they make of that.
-/

namespace NixKernel.Comp

/-- How a walk along an attribute path ends. -/
inductive Walk where
  /-- It arrives at a stored value. -/
  | found (v : Value)
  /-- It comes to a value that is no set. -/
  | nonSet (t : TypeName)
  /-- An attribute is missing after these components. -/
  | missing (walked : List Value)

/-- Walks along a path from a value; `walked` is the way so far. -/
def walk (walked : List Value) (v : Value) : List Value → Comp Walk
  | [] => pure (.found v)
  | c :: cs => do
    match ← force v with
    | .set a =>
      match ← forceName c with
      | none => pure (.missing (walked ++ [c]))
      | some name =>
        match (← attrs a).get? name with
        | none => pure (.missing (walked ++ [c]))
        | some w => walk (walked ++ [c]) w cs
    | x => pure (.nonSet x.typeName)

/-- The walk has arrived. -/
def Walk.isFound : Walk → Bool
  | .found _ => true
  | _ => false

/-- What `.` makes of the end of a walk. -/
def Walk.selected (fallback : Option Value) : Walk → Comp Value
  | .found v => pure v
  | .nonSet t => selectNonSet t fallback
  | .missing walked => selectMissing walked fallback

/-- The loop of `?` stays in step with the walk. -/
theorem has_eq_walk (v : Value) (walked path : List Value) :
    has v path = walk walked v path >>= fun x => pure x.isFound := by
  induction path generalizing v walked with
  | nil => rfl
  | cons c path ih =>
    rw [has, walk, bind_assoc]
    refine congrArg _ (funext fun x => ?_)
    cases x with
    | set a =>
      simp only [bind_assoc]
      refine congrArg _ (funext fun o => ?_)
      cases o with
      | none => rfl
      | some name =>
        simp only [bind_assoc]
        refine congrArg _ (funext fun m => ?_)
        cases m.get? name with
        | none => rfl
        | some w => exact ih w _
    | _ => rfl

/-- The loop of `.` stays in step with the walk. -/
theorem selectRest_eq_walk (fallback : Option Value) (walked : List Value) (v : Value)
    (path : List Value) :
    selectRest fallback walked v path = walk walked v path >>= Walk.selected fallback := by
  induction path generalizing v walked with
  | nil => rfl
  | cons c path ih =>
    rw [selectRest, walk, bind_assoc]
    refine congrArg _ (funext fun x => ?_)
    cases x with
    | set a =>
      simp only [bind_assoc]
      refine congrArg _ (funext fun o => ?_)
      cases o with
      | none => rfl
      | some name =>
        simp only [bind_assoc]
        refine congrArg _ (funext fun m => ?_)
        cases m.get? name with
        | none => rfl
        | some w => exact ih _ w
    | _ => rfl

theorem select_eq_walk (v : Value) (path : List Value) (fallback : Option Value) :
    select v path fallback = walk [] v path >>= Walk.selected fallback :=
  selectRest_eq_walk fallback [] v path

end NixKernel.Comp
