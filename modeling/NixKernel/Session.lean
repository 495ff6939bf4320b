import NixKernel.Eval.Expr
import NixKernel.Machine
import NixKernel.Render

/-!
Sessions. A session keeps threads, scopes, sets under construction and registers by name while it
goes through a list of steps; a step that fails leaves them as they are, save for what its
evaluation has done to the store.
-/

namespace NixKernel

/-! ### Steps -/

/-- New values for some of the settings of a thread. -/
structure ConfigChange where
  name : Option String
  scriptDir : Option String
  strict : Option Bool
  maxDepth : Option Int

def ConfigChange.apply (ch : ConfigChange) (c : Config) : Config where
  name := ch.name.getD c.name
  scriptDir := ch.scriptDir.getD c.scriptDir
  strict := ch.strict.getD c.strict
  maxDepth := ch.maxDepth.getD c.maxDepth

inductive Step where
  | newThread (thread : String) (config : Config)
  | configure (thread : String) (change : ConfigChange)
  | newScope (scope thread : String)
  /-- Adds the set that an expression evaluates to in `source` to the shadowing frames. -/
  | shadowSet (scope source : String) (e : Expr)
  | shadowBuilder (scope source builder : String)
  /-- Adds the set that an expression evaluates to in `source` to the namespaces. -/
  | addNamespace (scope source : String) (e : Expr)
  | lookup (scope name : String)
  | scopeInfo (scope : String)
  | newBuilder (builder scope : String) (entries : List Entry) (recursive : Bool)
  | build (builder : String)
  | lookupBuilder (builder name : String)
  | builtSet (builder : String)
  | builderScope (scope builder : String)
  /-- Keeps the value of an expression in a register. -/
  | define (register scope : String) (e : Expr)
  /-- Shows the value of a register. -/
  | display (register : String) (mode : Mode)

/-- What a step answers when it succeeds. -/
inductive Answer where
  | done
  | depth (n : Nat)
  | dir (p : Path)
  | info (dir : Path) (depth : Nat) (hasThread : Bool)
  /-- Whether a set is complete. -/
  | complete (b : Bool)
  /-- The complete set. -/
  | built (r : Rendering)
  | notFound
  | found (r : Rendering)
  | shown (r : Rendering)

/-- A step that fails: its error, and what it had written if it was printing. -/
structure StepError where
  error : Error
  written : Option String

/-- The outcome of a step and the tags that it left in the journal. -/
structure Reply where
  outcome : Except StepError Answer
  tags : List String

/-! ### Running -/

/-- The number of machine steps that a computation is given. -/
def Machine.budget : Nat := Nat.pow 2 60

/-- Runs a computation on a store. -/
def Comp.execute {α : Type} (c : Comp α) (s : Store) : Result α :=
  match (Machine.load c s).run Machine.budget with
  | some r => r
  | none => (.error .outOfSteps, s)

structure Session where
  store : Store
  threads : List (String × Addr .thread)
  scopes : List (String × Env)
  builders : List (String × Addr .builder)

namespace Session

/-- A session with a thread, its root scope and the empty scope. -/
def start (c : Config) : Session :=
  let (t, s) := Store.initial.newThread c
  let (env, s) := s.newEnv t
  ⟨s, [("main", t)], [("root", env), ("nil", .empty)], []⟩

/-- A scope by name. -/
def scope (x : Session) (name : String) : Env := (x.scopes.lookup name).getD .empty

/-- A thread by name. -/
def thread (x : Session) (name : String) : Addr .thread := (x.threads.lookup name).getD ⟨0⟩

/-- A set under construction by name. -/
def builder (x : Session) (name : String) : Addr .builder := (x.builders.lookup name).getD ⟨0⟩

def setScope (x : Session) (name : String) (env : Env) : Session :=
  { x with scopes := setKey name env x.scopes }

/-- Runs a computation and goes on with its answer, unless it fails. -/
def perform {α : Type} (x : Session) (c : Comp α) (k : α → Session → Session × Answer) :
    Session × Except StepError Answer :=
  match c.execute x.store with
  | (.ok a, s) =>
    let (x, answer) := k a { x with store := s }
    (x, .ok answer)
  | (.error e, s) => ({ x with store := s }, .error ⟨e, none⟩)

/-- The set that an expression evaluates to. -/
def setOf (env : Env) (e : Expr) : Comp (Addr .set) := do
  match ← Comp.force (← Comp.eval env e) with
  | .set a => pure a
  | _ => Comp.fail .notASet

/-- Shows a value; a printing mode has written nothing when the value fails. -/
def present (x : Session) (v : Value) (mode : Mode) : Session × Except StepError Answer :=
  match (Comp.render v mode).execute x.store with
  | (.ok r, s) => ({ x with store := s }, .ok (.shown r))
  | (.error e, s) =>
    ({ x with store := s }, .error ⟨e, if mode.isPrinting then some "" else none⟩)

/-- The set that a construction has led to. -/
def builtOf (x : Session) (b : String) : Option (Addr .set) :=
  (x.store.builders.get? (x.builder b)).bind Builder.set

/-- The scope in which the entries of a set are evaluated. -/
def scopeOf (x : Session) (b : String) : Env :=
  ((x.store.builders.get? (x.builder b)).map Builder.env).getD .empty

/-- Shows a value of the session as it is. -/
def rawRendering (x : Session) (v : Value) : Rendering :=
  .text (x.store.lazyText v) (x.store.typeName v) none

/-- One step. -/
def step (x : Session) : Step → Session × Except StepError Answer
  | .newThread t c =>
    let (a, s) := x.store.newThread c
    ({ x with store := s, threads := setKey t a x.threads }, .ok (.depth 0))
  | .configure t ch =>
    let s := x.store
    let threads := s.threads.modify (x.thread t) fun t => { t with config := ch.apply t.config }
    ({ x with store := { s with threads := threads } }, .ok .done)
  | .newScope e t =>
    let (env, s) := x.store.newEnv (x.thread t)
    ({ x with store := s }.setScope e env, .ok (.dir (s.scriptDir env)))
  | .shadowSet e src expr =>
    x.perform (setOf (x.scope src) expr) fun a y =>
      (y.setScope e ((x.scope src).withShadow (.set a)), .done)
  | .shadowBuilder e src b =>
    (x.setScope e ((x.scope src).withShadow (.builder (x.builder b))), .ok .done)
  | .addNamespace e src expr =>
    x.perform (setOf (x.scope src) expr) fun a y =>
      (y.setScope e ((x.scope src).withNamespace a), .done)
  | .lookup e name =>
    x.perform (Comp.lookup (x.scope e) name) fun v y => (y, .shown (y.rawRendering v))
  | .scopeInfo e =>
    let env := x.scope e
    (x, .ok (.info (x.store.scriptDir env) (x.store.depth env) env.thread.isSome))
  | .newBuilder b e entries recursive =>
    let (a, s) := x.store.newBuilder (x.scope e) entries recursive
    ({ x with store := s, builders := setKey b a x.builders }, .ok .done)
  | .build b =>
    x.perform (Comp.request (.build (x.builder b))) fun _ y =>
      (y, .complete (y.builtOf b).isSome)
  | .lookupBuilder b name =>
    x.perform (Comp.lookupBuilder (x.builder b) name) fun r y =>
      match r with
      | none => (y, .notFound)
      | some v => (y, .found (y.rawRendering v))
  | .builtSet b =>
    match x.builtOf b with
    | none => (x, .ok (.complete false))
    | some a => (x, .ok (.built (x.rawRendering (.set a))))
  | .builderScope e b => (x.setScope e (x.scopeOf b), .ok .done)
  | .define r e expr =>
    x.perform (Comp.eval (x.scope e) expr) fun v y =>
      let y := { y with store := y.store.save r v }
      (y, .shown (y.rawRendering v))
  | .display r mode =>
    match Comp.execute (Comp.fetch r) x.store with
    | (.ok v, s) => { x with store := s }.present v mode
    | (.error e, s) => ({ x with store := s }, .error ⟨e, none⟩)

/-- One step with a journal of its own. -/
def reply (x : Session) (st : Step) : Session × Reply :=
  let s := x.store
  let (x, outcome) := { x with store := { s with journal := [] } }.step st
  (x, ⟨outcome, x.store.tags⟩)

/-- Goes through the steps. -/
def run (x : Session) : List Step → List Reply
  | [] => []
  | st :: sts =>
    let (x, r) := x.reply st
    r :: x.run sts

end Session

/-- Evaluates an expression in the root scope of a new thread and shows its value. -/
def evaluate (c : Config) (e : Expr) (mode : Mode) : Reply :=
  let x := Session.start c
  let (x, outcome) :=
    match (Comp.eval (x.scope "root") e).execute x.store with
    | (.ok v, s) => { x with store := s }.present v mode
    | (.error e, s) => ({ x with store := s }, .error ⟨e, none⟩)
  ⟨outcome, x.store.tags⟩

end NixKernel
