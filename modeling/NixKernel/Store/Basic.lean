import NixKernel.Attrs
import NixKernel.Env
import NixKernel.Expr
import NixKernel.Heap
import NixKernel.Thread

/-!
The store: the cells that values point to, the threads that evaluations run on, and the journal of
what has been run.
-/

namespace NixKernel

/-! ### Cells -/

/-- A deferred expression in its scope, or the value that came of it. -/
inductive Thunk where
  | unforced (env : Env) (body : Expr)
  | forcing (env : Env) (body : Expr)
  | forced (v : Value)

/-- A function with the scope of its definition. -/
structure Lambda where
  env : Env
  param : Param
  body : Expr

/-- What is known of an attribute while its set is under construction: a value, or definitions
inside it. -/
inductive Slot where
  | leaf (v : Value)
  | tree (entries : List Entry)

/-- A set under construction. -/
structure Builder where
  env : Env
  entries : Array Entry
  /-- The number of entries that have been taken up. -/
  next : Nat
  /-- The number of entries, or final assemblies, in progress. -/
  active : Nat
  /-- The names of the attributes known so far, in the order of their first definition. -/
  order : List String
  /-- What is known of the attributes, by name. -/
  slots : List (String × Slot)
  /-- The finished set. -/
  set : Option (Addr .set)
  /-- The error of an entry or of the assembly that has failed. -/
  err : Option Error

/-! ### The journal -/

/-- What a run leaves in the journal. -/
inductive Event where
  /-- A tag of the program. -/
  | tag (s : String)
  /-- The body of a thunk is started. -/
  | force (t : Addr .thunk)
  /-- The body of a function is started. -/
  | call (f : Addr .lambda)
  /-- An entry of a set is taken up. -/
  | entry (b : Addr .builder) (i : Nat)
  /-- The final assembly of a set is started. -/
  | assemble (b : Addr .builder)
  deriving DecidableEq

/-! ### The store -/

/-- Sets the value of a key in a list of pairs, at its place or at the end. -/
def setKey {α : Type} (key : String) (a : α) : List (String × α) → List (String × α)
  | [] => [(key, a)]
  | (k, b) :: l => if k = key then (key, a) :: l else (k, b) :: setKey key a l

/-- Sets what is known of an attribute. The name of a new one goes to the end of the order. -/
def Builder.put (c : Builder) (name : String) (slot : Slot) (isNew : Bool) : Builder :=
  { c with
    order := if isNew then c.order ++ [name] else c.order
    slots := setKey name slot c.slots }

structure Store where
  threads : Heap .thread Thread
  thunks : Heap .thunk Thunk
  lists : Heap .list (List Value)
  sets : Heap .set (Attrs Value)
  lambdas : Heap .lambda Lambda
  builders : Heap .builder Builder
  /-- How often each flaky expression has been evaluated. -/
  counters : List (String × Nat)
  registers : List (String × Value)
  /-- What has been run, the latest first. -/
  journal : List Event

namespace Store

/-- The function that names the type of its argument. -/
def typeOfLambda : Lambda := ⟨.empty, .name "x", .typeOf (.var "x")⟩

/-- The bindings of the built-in functions: the set holds itself too. -/
def builtinBindings : Attrs Value :=
  .ofList [("typeOf", .lambda .typeOf), ("builtins", .set .builtins)]

/-- The bindings of every root scope. -/
def globalBindings : Attrs Value :=
  .ofList [("true", .bool true), ("false", .bool false), ("null", .null),
    ("builtins", .set .builtins)]

/-- The name is bound in every root scope. -/
def isGlobal (name : String) : Bool := (globalBindings.get? name).isSome

/-- The store before anything has run. -/
def initial : Store where
  threads := .empty
  thunks := .empty
  lists := ⟨#[[]]⟩
  sets := ⟨#[.empty, builtinBindings, globalBindings]⟩
  lambdas := ⟨#[typeOfLambda]⟩
  builders := .empty
  counters := []
  registers := []
  journal := []

instance : Inhabited Store := ⟨initial⟩

/-! ### Reading -/

/-- The elements of a list. -/
def list (s : Store) (a : Addr .list) : List Value := (s.lists.get? a).getD []

/-- The attributes of a set. -/
def attrs (s : Store) (a : Addr .set) : Attrs Value := (s.sets.get? a).getD .empty

/-- The value of a thunk that has been forced. -/
def forced? (s : Store) (t : Addr .thunk) : Option Value :=
  match s.thunks.get? t with
  | some (.forced v) => some v
  | _ => none

/-- A forced thunk gives way to its value. -/
def resolve (s : Store) : Value → Value
  | .thunk t => (s.forced? t).getD (.thunk t)
  | v => v

/-- The type of a value as it is now. -/
def typeName (s : Store) (v : Value) : TypeName := (s.resolve v).typeName

/-- The tags in the journal, the earliest first. -/
def tags (s : Store) : List String :=
  (s.journal.filterMap fun | .tag t => some t | _ => none).reverse

/-- Writes into the journal. -/
def record (s : Store) (e : Event) : Store := { s with journal := e :: s.journal }

end Store

end NixKernel
