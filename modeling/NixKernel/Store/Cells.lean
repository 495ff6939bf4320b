import NixKernel.Store.Basic

/-!
Changes of the store: new cells, the scope of a call, threads and their depth, and what is noted
while a program runs.
-/

namespace NixKernel.Store

/-! ### New cells -/

def newThunk (s : Store) (env : Env) (body : Expr) : Addr .thunk × Store :=
  (s.thunks.next, { s with thunks := s.thunks.push (.unforced env body) })

def newList (s : Store) (items : List Value) : Addr .list × Store :=
  (s.lists.next, { s with lists := s.lists.push items })

def newSet (s : Store) (m : Attrs Value) : Addr .set × Store :=
  (s.sets.next, { s with sets := s.sets.push m })

def newLambda (s : Store) (f : Lambda) : Addr .lambda × Store :=
  (s.lambdas.next, { s with lambdas := s.lambdas.push f })

/-- A new set under construction. If it is recursive, its entries are evaluated in a scope where
the set itself is the innermost frame. -/
def newBuilder (s : Store) (env : Env) (entries : List Entry) (recursive : Bool) :
    Addr .builder × Store :=
  let b := s.builders.next
  let env := if recursive then env.withShadow (.builder b) else env
  (b, { s with builders := s.builders.push ⟨env, entries.toArray, 0, 0, [], [], none, none⟩ })

/-- The bindings of a pattern: an attribute of the argument as it is stored, else a thunk of the
default in the scope of the body. -/
def bindFormals (inner : Env) (args : Attrs Value) :
    List Formal → Attrs Value × Heap .thunk Thunk → Attrs Value × Heap .thunk Thunk
  | [], acc => acc
  | f :: fs, (vars, thunks) =>
    match args.get? f.name, f.fallback with
    | some v, _ => bindFormals inner args fs (vars.insert f.name v, thunks)
    | none, some d =>
      bindFormals inner args fs
        (vars.insert f.name (.thunk thunks.next), thunks.push (.unforced inner d))
    | none, none => bindFormals inner args fs (vars, thunks)

/-- Opens the scope of the body of a pattern function. One new frame binds the formals and the
name of the whole argument, and the defaults see that frame. -/
def openScope (s : Store) (env : Env) (formals : List Formal) (whole : Option String)
    (arg : Addr .set) : Env × Store :=
  let inner := env.withShadow (.set s.sets.next)
  let (vars, thunks) := bindFormals inner (s.attrs arg) formals (.empty, s.thunks)
  let vars := match whole with
    | some x => vars.insert x (.set arg)
    | none => vars
  (inner, { s with thunks := thunks, sets := s.sets.push vars })

/-! ### Threads -/

def newThread (s : Store) (c : Config) : Addr .thread × Store :=
  (s.threads.next, { s with threads := s.threads.push ⟨c, none, 0⟩ })

/-- The root scope of a thread. -/
def newEnv (s : Store) (t : Addr .thread) : Env × Store :=
  (⟨some t, [.set .globals], []⟩, { s with threads := s.threads.modify t Thread.start })

/-- The thread of a scope. -/
def thread? (s : Store) (env : Env) : Option Thread := env.thread.bind s.threads.get?

/-- The directory against which the relative paths of a scope are resolved. -/
def scriptDir (s : Store) (env : Env) : Path :=
  match (s.thread? env).bind Thread.started with
  | some st => st.dir
  | none => .root

def strict (s : Store) (env : Env) : Bool :=
  match s.thread? env with
  | some t => t.config.strict
  | none => false

/-- The number of thunks of the thread of a scope that are being forced. -/
def depth (s : Store) (env : Env) : Nat :=
  match s.thread? env with
  | some t => t.depth
  | none => 0

/-- The thread of a scope has as many thunks being forced as it allows. -/
def atLimit (s : Store) (env : Env) : Bool :=
  match s.thread? env with
  | some t => t.limit ≤ t.depth
  | none => false

/-- Changes the depth of the thread of a scope. -/
def changeDepth (s : Store) (env : Env) (f : Nat → Nat) : Store :=
  match env.thread with
  | some a => { s with threads := s.threads.modify a fun t => { t with depth := f t.depth } }
  | none => s

/-- One more thunk of the thread of a scope is being forced. -/
def enter (s : Store) (env : Env) : Store := s.changeDepth env (· + 1)

/-- One thunk less of the thread of a scope is being forced. -/
def leave (s : Store) (env : Env) : Store := s.changeDepth env (· - 1)

/-! ### Cells that change, counters and registers -/

/-- Sets what is known of an attribute of a set under construction. -/
def setSlot (s : Store) (b : Addr .builder) (name : String) (slot : Slot) (isNew : Bool) : Store :=
  { s with builders := s.builders.modify b fun c => c.put name slot isNew }

/-- Replaces the content of a thunk. -/
def setThunk (s : Store) (t : Addr .thunk) (c : Thunk) : Store :=
  { s with thunks := s.thunks.modify t fun _ => c }

/-- Counts an evaluation. -/
def count (s : Store) (id : String) : Nat × Store :=
  let n := (s.counters.lookup id).getD 0 + 1
  (n, { s with counters := setKey id n s.counters })

/-- Keeps a value in a register. -/
def save (s : Store) (register : String) (v : Value) : Store :=
  { s with registers := setKey register v s.registers }

end NixKernel.Store
