import NixKernel.Eval.Force

/-!
Application of functions. A function of one name binds its argument as it is; a function of a
pattern forces its argument to a set and binds the attributes that the pattern names.
-/

namespace NixKernel.Comp

/-- The least attribute of an argument that a pattern does not name. -/
def unexpected? (formals : List Formal) (args : Attrs Value) : Option String :=
  args.keys.find? fun k => !formals.any fun f => f.name == k

/-- The first parameter without a default that an argument does not have. -/
def missing? (formals : List Formal) (args : Attrs Value) : Option String :=
  (formals.find? fun f => f.fallback.isNone && (args.get? f.name).isNone).map FormalOf.name

/-- Refuses an argument that does not fit a pattern. -/
def checkArgs (strict : Bool) (param : Param) (formals : List Formal) (openEnded : Bool)
    (args : Attrs Value) : Except Cause Unit :=
  match (if strict && !openEnded then unexpected? formals args else none),
      missing? formals args with
  | some name, _ => .error (.unexpectedArg name)
  | none, some name => .error (.missingArg param.describe name)
  | none, none => .ok ()

/-- Runs the body of a function in the scope that its argument opens. -/
def enterBody (f : Addr .lambda) (env : Env) (body : Expr) : Comp Value := do
  perform (.record (.call f))
  eval env body

/-- Calls a function with an argument. -/
def call (f : Addr .lambda) (arg : Value) : Comp Value := do
  match ← perform (.lambda f) with
  | none => fail .noValue
  | some fn =>
    match fn.param with
    | .name x => enterBody f (fn.env.withShadow (.binding x arg)) fn.body
    | .pattern formals whole openEnded =>
      match ← force arg with
      | .set a =>
        ofExcept (checkArgs (← perform (.strict fn.env)) fn.param formals openEnded (← attrs a))
        enterBody f (← perform (.openScope fn.env formals whole a)) fn.body
      | v => refuse (.argumentNotSet fn.param.describe v.typeName)

/-- Applies a value, which must force to a function. -/
def apply (f arg : Value) : Comp Value := do
  match ← force f with
  | .lambda a => call a arg
  | v => refuse (.notAFunction v.typeName)

/-- Applies a value to arguments one after the other. -/
def applyAll (f : Value) : List Value → Comp Value
  | [] => pure f
  | arg :: args => do applyAll (← apply f arg) args

end NixKernel.Comp
