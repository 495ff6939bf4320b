import NixKernel.Store.Cells
import NixKernel.Store.View

/-!
Computations. A computation is a tree of what it does next: it ends, it acts on the store, or it
asks for something to be evaluated and goes on with the answer, be it a value or an error. How the
questions are answered is left to whoever runs the tree.
-/

namespace NixKernel

/-! ### Actions -/

/-- What a computation can do to the store at once. -/
inductive Action where
  | newThunk (env : Env) (body : Expr)
  | newList (items : List Value)
  | newSet (m : Attrs Value)
  | newLambda (f : Lambda)
  | newBuilder (env : Env) (entries : List Entry) (recursive : Bool)
  | openScope (env : Env) (formals : List Formal) (whole : Option String) (arg : Addr .set)
  /-- The elements of a list. -/
  | list (a : Addr .list)
  /-- The attributes of a set. -/
  | attrs (a : Addr .set)
  | lambda (a : Addr .lambda)
  | builder (b : Addr .builder)
  /-- The value of a thunk that has been forced. -/
  | forced? (t : Addr .thunk)
  /-- The type of a value as it is now. -/
  | typeName (v : Value)
  /-- What can be seen of a value as it is now. -/
  | view (v : Value)
  /-- Sets what is known of an attribute of a set under construction. -/
  | setSlot (b : Addr .builder) (name : String) (slot : Slot) (isNew : Bool)
  | scriptDir (env : Env)
  | strict (env : Env)
  | depth (env : Env)
  /-- Writes into the journal. -/
  | record (e : Event)
  /-- Counts an evaluation. -/
  | count (id : String)
  | save (register : String) (v : Value)
  | fetch (register : String)

/-- What an action answers. -/
@[reducible] def Action.Answer : Action → Type
  | newThunk .. => Addr .thunk
  | newList _ => Addr .list
  | newSet _ => Addr .set
  | newLambda _ => Addr .lambda
  | newBuilder .. => Addr .builder
  | openScope .. => Env
  | list _ => Option (List Value)
  | attrs _ => Option (Attrs Value)
  | lambda _ => Option Lambda
  | builder _ => Option Builder
  | forced? _ => Option Value
  | typeName _ => TypeName
  | view _ => Tree
  | setSlot .. => Unit
  | scriptDir _ => Path
  | strict _ => Bool
  | depth _ => Nat
  | record _ => Unit
  | count _ => Nat
  | save .. => Unit
  | fetch _ => Option Value

/-- The answer of an action and the store after it. -/
def Action.perform : (a : Action) → Store → a.Answer × Store
  | newThunk env body, s => s.newThunk env body
  | newList items, s => s.newList items
  | newSet m, s => s.newSet m
  | newLambda f, s => s.newLambda f
  | newBuilder env entries recursive, s => s.newBuilder env entries recursive
  | openScope env formals whole arg, s => s.openScope env formals whole arg
  | list a, s => (s.lists.get? a, s)
  | attrs a, s => (s.sets.get? a, s)
  | lambda a, s => (s.lambdas.get? a, s)
  | builder b, s => (s.builders.get? b, s)
  | forced? t, s => (s.forced? t, s)
  | typeName v, s => (s.typeName v, s)
  | view v, s => (s.view v, s)
  | setSlot b name slot isNew, s => ((), s.setSlot b name slot isNew)
  | scriptDir env, s => (s.scriptDir env, s)
  | strict env, s => (s.strict env, s)
  | depth env, s => (s.depth env, s)
  | record e, s => ((), s.record e)
  | count id, s => s.count id
  | save r v, s => ((), s.save r v)
  | fetch r, s => (s.registers.lookup r, s)

/-! ### Requests -/

/-- What a computation can ask to be evaluated. -/
inductive Request where
  /-- The value of a thunk. -/
  | force (t : Addr .thunk)
  /-- The value of an expression in a scope. -/
  | eval (env : Env) (e : Expr)
  /-- The construction of a set, as far as it can go now. -/
  | build (b : Addr .builder)
  /-- The next entry of a set under construction; answers whether there was one. -/
  | entry (b : Addr .builder)
  /-- The final assembly of a set. -/
  | assemble (b : Addr .builder)
  | equal (l r : Value)
  /-- The order of two values that are not thunks. -/
  | less (l r : Value)
  /-- The fully evaluated value inside the containers `above`, spelled out. -/
  | spell (above : List Container) (v : Value)
  /-- Everything that can be reached from a value, save through the containers `seen`. Answers the
  value and the containers that have been seen in the end. -/
  | sweep (seen : List Container) (v : Value)

/-- What a request answers when it succeeds. -/
@[reducible] def Request.Answer : Request → Type
  | force _ => Value
  | eval .. => Value
  | build _ => Unit
  | entry _ => Bool
  | assemble _ => Addr .set
  | equal .. => Bool
  | less .. => Bool
  | spell .. => Tree
  | sweep .. => Value × List Container

/-! ### Computations -/

inductive Comp (α : Type) where
  | done (r : Except Error α)
  | act (a : Action) (k : a.Answer → Comp α)
  | ask (q : Request) (k : Except Error q.Answer → Comp α)

namespace Comp

variable {α β γ : Type}

/-- Goes on after a computation has succeeded. -/
protected def bind : Comp α → (α → Comp β) → Comp β
  | done (.ok a), f => f a
  | done (.error e), _ => done (.error e)
  | act a k, f => act a fun x => (k x).bind f
  | ask q k, f => ask q fun r => (k r).bind f

instance : Monad Comp where
  pure a := done (.ok a)
  bind := Comp.bind

/-- Fails. -/
def fail (e : Error) : Comp α := done (.error e)

/-- Fails for a cause of the machine's own. -/
def refuse (c : Cause) : Comp α := done (.error (.eval c))

/-- A computation whose error is its answer. -/
def attempt : Comp α → Comp (Except Error α)
  | done r => done (.ok r)
  | act a k => act a fun x => (k x).attempt
  | ask q k => ask q fun r => (k r).attempt

/-- One action. -/
def perform (a : Action) : Comp a.Answer := act a fun x => done (.ok x)

/-- One request, whose error is the computation's. -/
def request (q : Request) : Comp q.Answer := ask q done

theorem pure_def (a : α) : (pure a : Comp α) = done (.ok a) := rfl

theorem bind_def (c : Comp α) (f : α → Comp β) : c >>= f = c.bind f := rfl

theorem bind_done (c : Comp α) : c.bind (fun a => done (.ok a)) = c := by
  induction c with
  | done r => cases r <;> rfl
  | act a k ih => exact congrArg (act a) (funext ih)
  | ask q k ih => exact congrArg (ask q) (funext ih)

theorem bind_bind (c : Comp α) (f : α → Comp β) (g : β → Comp γ) :
    (c.bind f).bind g = c.bind fun a => (f a).bind g := by
  induction c with
  | done r => cases r <;> rfl
  | act a k ih => exact congrArg (act a) (funext ih)
  | ask q k ih => exact congrArg (ask q) (funext ih)

instance : LawfulMonad Comp :=
  LawfulMonad.mk' Comp (fun c => bind_done c) (fun _ _ => rfl) bind_bind

end Comp

end NixKernel
