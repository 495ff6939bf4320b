import NixKernel.Eval.Call
import NixKernel.Eval.Construct
import NixKernel.Eval.Deep
import NixKernel.Eval.Operators
import NixKernel.Eval.Scope
import NixKernel.Eval.Select

/-!
What each expression does. Parts are evaluated from left to right, the first error ends the
evaluation but for the one form that goes on after an error, and nothing is forced unless the form
says so.
-/

namespace NixKernel.Comp

/-- Looks into a forced value. -/
def probe (p : Probe) (v : Value) : Comp Value :=
  match p, v with
  | .paramName, .lambda a => do
    let f ← ofCell (← perform (.lambda a))
    return .str f.param.describe
  | .length, .list a => return .int (.ofNat (← items a).length)
  | .length, .set a => return .int (.ofNat (← attrs a).size)
  | .index n, .list a => do
    match (← items a)[n]? with
    | some x => pure x
    | none => fail .noValue
  | .get name, .set a => return ((← attrs a).get? name).getD .null
  | .keys, .set a => do newList ((← attrs a).keys.map Value.str)
  | p, v => fail (.noProbe p v.typeName)

/-- Wraps a value into thunks. -/
def wrap (env : Env) : Nat → Value → Comp Value
  | 0, v => pure v
  | n + 1, v => do wrap env n (← newThunk env (.lit v))

/-- Evaluates expressions from left to right. -/
def evalAll (env : Env) (es : List Expr) : Comp (List Value) := es.mapM (eval env)

/-- The three-way comparison of two integers or two strings. -/
def threeWay (l r : Value) : Comp Value := do
  let (x, y) ← forceBoth l r
  match x, y with
  | .int m, .int n => pure (ordinal (compare m.toInt n.toInt))
  | .str s, .str t => pure (ordinal (Text.compare s t))
  | x, y => refuse (.incomparable x.typeName y.typeName)

/-- Forces the components of a path, which must be strings or null. -/
def forcePath (components : List Value) : Comp (List Value) :=
  components.mapM fun c => do
    let x ← force c
    let _ ← ofExcept (componentName x)
    return x

/-- Fails the first `failures` times that it is reached under this id. -/
def flaky (id : String) (failures : Nat) : Comp Unit := do
  let n ← perform (.count id)
  if n ≤ failures then fail (.flaky id n) else pure ()

/-- The value in a register. -/
def fetch (register : String) : Comp Value := do
  match ← perform (.fetch register) with
  | some v => pure v
  | none => fail (.noRegister register)

/-- What an expression does in a scope. -/
def ofExpr (env : Env) : Expr → Comp Value
  | .lit v => pure v
  | .nothing => fail .noValue
  | .raise t => fail (.raised t)
  | .toPath t => return .path ((← perform (.scriptDir env)).resolve t)
  | .list es => do newList (← es.mapM (newThunk env))
  | .eagerList es => do newList (← evalAll env es)
  | .eagerSet es => do
    newSet (.ofList (← es.mapM fun p => do return (p.1, ← eval env p.2)))
  | .attrset recursive entries => return .set (← construct env entries recursive)
  | .pending b name => lookupComplete b name
  | .var name => lookup env name
  | .letIn entries body => do eval (← letScope env entries) body
  | .withIn scope body => do
    match ← force (← eval env scope) with
    | .set a => eval (env.withNamespace a) body
    | x => refuse (.scopeNotSet x.typeName)
  | .lambda param body => return .lambda (← perform (.newLambda ⟨env, param, body⟩))
  | .call f args => do
    let f ← eval env f
    applyAll f (← evalAll env args)
  | .cond c yes no => do
    match ← force (← eval env c) with
    | .bool true => eval env yes
    | _ => eval env no
  | .unary o e => do unary o (← eval env e)
  | .binary o l r => do
    let x ← eval env l
    binary o x (← eval env r)
  | .comparison o l r => do
    let x ← eval env l
    comparison o x (← eval env r)
  | .threeWay l r => do
    let x ← eval env l
    threeWay x (← eval env r)
  | .has e path => do
    let v ← eval env e
    return .bool (← has v (← evalAll env path))
  | .select e path none => do
    let v ← eval env e
    select v (← evalAll env path) none
  | .select e path (some d) => do
    let v ← eval env e
    let components ← evalAll env path
    select v components (some (← eval env d))
  | .attrPath components => do newList (← forcePath (← evalAll env components))
  | .interpolate e => do
    match ← force (← eval env e) with
    | .str s => pure (.str s)
    | x => refuse (.notAString x.typeName)
  | .typeOf e => return .str (← typeOf (← eval env e)).text
  | .print e => return .str (← print (← eval env e))
  | .delay e => newThunk env e
  | .detach e => newThunk .empty e
  | .wrap layers e => do wrap env layers (← eval env e)
  | .orElse e other => do
    match ← attempt (eval env e) with
    | .ok v => pure v
    | .error _ => eval env other
  | .force e => do force (← eval env e)
  | .deepForce e => do deepForce (← eval env e)
  | .lazyText e => do
    let t : Tree ← perform (.view (← eval env e))
    return .str t.text
  | .lazyType e => do
    let t : TypeName ← perform (.typeName (← eval env e))
    return .str t.text
  | .isForced e => do
    match ← eval env e with
    | .thunk t => return .bool (← perform (.forced? t)).isSome
    | _ => pure (.bool true)
  | .probe p e => do probe p (← force (← eval env e))
  | .scriptDir => return .str (← perform (.scriptDir env)).text
  | .depth => return .int (.ofNat (← perform (.depth env)))
  | .trace tag e => do
    perform (.record (.tag tag))
    eval env e
  | .flaky id failures e => do
    flaky id failures
    eval env e
  | .save r e => do
    let v ← eval env e
    perform (.save r v)
    return v
  | .fetch r => fetch r

end NixKernel.Comp
