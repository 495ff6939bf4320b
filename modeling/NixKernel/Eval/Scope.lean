import NixKernel.Eval.Force

/-!
Looking up names. The shadowing frames are asked first, then the namespaces, innermost first; a
set under construction is asked to go on before it answers.
-/

namespace NixKernel.Comp

/-- The value of a name in a set under construction. While an entry is in progress a plain
definition answers with its thunk, and a definition by path with a thunk that waits for the set. -/
def lookupBuilder (b : Addr .builder) (name : String) : Comp (Option Value) := do
  request (.build b)
  match ← perform (.builder b) with
  | none => pure none
  | some c =>
    match c.set, c.slots.lookup name with
    | some a, _ => return (← attrs a).get? name
    | none, none => pure none
    | none, some (.leaf v) => pure (some v)
    | none, some (.tree _) => return some (← newThunk .empty (.pending b name))

/-- The value of a name in one frame. -/
def lookupFrame (name : String) : Frame → Comp (Option Value)
  | .set a => return (← attrs a).get? name
  | .binding x v => pure (if name = x then some v else none)
  | .builder b => lookupBuilder b name

/-- The value of a name in the first frame that binds it. -/
def lookupFrames (name : String) : List Frame → Comp (Option Value)
  | [] => pure none
  | f :: fs => do
    match ← lookupFrame name f with
    | some v => pure (some v)
    | none => lookupFrames name fs

/-- The frames of a scope in the order in which they are asked. -/
def framesOf (env : Env) : List Frame := env.shadow ++ env.namespaces.map Frame.set

/-- The value of a name in a scope. -/
def lookup (env : Env) (name : String) : Comp Value := do
  match ← lookupFrames name (framesOf env) with
  | some v => pure v
  | none => refuse (.unbound name)

/-- The value of an attribute of a set under construction, which must be complete. -/
def lookupComplete (b : Addr .builder) (name : String) : Comp Value := do
  let c ← perform (.builder b)
  match c.bind Builder.err, c.bind Builder.set with
  | some e, _ => fail e
  | none, some a =>
    match (← attrs a).get? name with
    | some v => pure v
    | none => fail .noValue
  | none, none => refuse (.cyclicAttr name)

end NixKernel.Comp
