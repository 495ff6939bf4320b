import NixKernel.Eval.Expr

/-!
How requests are answered. A request is answered at once, or it starts a computation; what is true
only while that computation runs, such as a thunk being forced, is set up when it starts and taken
down when it ends, with a value or with an error.
-/

namespace NixKernel

/-! ### Starting -/

/-- How a request starts: with its answer, or with a computation to run; and the store to go on
with. -/
inductive Start (α : Type) where
  | answer (r : Except Error α) (s : Store)
  | run (c : Comp α) (s : Store)

/-- Forcing a thunk runs its body, and then what the body yields if that is a thunk again. -/
def Store.startForce (s : Store) (t : Addr .thunk) : Start Value :=
  match s.thunks.get? t with
  | none => .answer (.error .noValue) s
  | some (.forced v) => .answer (.ok v) s
  | some (.forcing ..) => .answer (.error (.eval .cyclicThunk)) s
  | some (.unforced env body) =>
    if s.atLimit env then .answer (.error (.eval .depthLimit)) s
    else
      .run (do Comp.force (← Comp.eval env body))
        (((s.enter env).setThunk t (.forcing env body)).record (.force t))

/-- Taking up the next entry of a set under construction. -/
def Store.startEntry (s : Store) (b : Addr .builder) : Start Bool :=
  match s.builders.get? b with
  | none => .answer (.ok false) s
  | some c =>
    match c.entries[c.next]? with
    | none => .answer (.ok false) s
    | some e =>
      let s := { s with builders := s.builders.modify b fun c =>
        { c with next := c.next + 1, active := c.active + 1 } }
      .run (do Comp.define b c.env e; return true) (s.record (.entry b c.next))

/-- The final assembly of a set under construction. -/
def Store.startAssemble (s : Store) (b : Addr .builder) : Start (Addr .set) :=
  let s := { s with builders := s.builders.modify b fun c => { c with active := c.active + 1 } }
  .run (Comp.assemble b) (s.record (.assemble b))

def Request.start : (q : Request) → Store → Start q.Answer
  | .force t, s => s.startForce t
  | .eval env e, s => .run (Comp.ofExpr env e) s
  | .build b, s => .run (Comp.build b) s
  | .entry b, s => s.startEntry b
  | .assemble b, s => s.startAssemble b
  | .equal l r, s => .run (Comp.equal l r) s
  | .less l r, s => .run (Comp.less l r) s
  | .spell above v, s => .run (Comp.spell above v) s
  | .sweep seen v, s => .run (Comp.sweep seen v) s

/-! ### Ending -/

/-- A thunk keeps its value; after an error it is as it was before. -/
def Store.finishForce (s : Store) (t : Addr .thunk) (r : Except Error Value) : Store :=
  match s.thunks.get? t with
  | some (.forcing env body) =>
    let s := s.leave env
    match r with
    | .ok v => s.setThunk t (.forced v)
    | .error _ => s.setThunk t (.unforced env body)
  | _ => s

/-- An entry of a set under construction, or its assembly, is no longer in progress; `r` is what has
come of it, if that is to be kept. The slots stay, though nothing looks at them once there is a
set. -/
def Builder.leave (c : Builder) (r : Option (Except Error (Addr .set))) : Builder :=
  match r with
  | none => { c with active := c.active - 1 }
  | some (.ok a) => { c with active := c.active - 1, set := some a }
  | some (.error e) => { c with active := c.active - 1, err := some e }

def Store.finishBuilder (s : Store) (b : Addr .builder)
    (r : Option (Except Error (Addr .set))) : Store :=
  { s with builders := s.builders.modify b fun c => c.leave r }

/-- The store after the computation of a request has ended. -/
def Request.finish : (q : Request) → Except Error q.Answer → Store → Store
  | .force t, r, s => s.finishForce t r
  | .entry b, .ok _, s => s.finishBuilder b none
  | .entry b, .error e, s => s.finishBuilder b (some (.error e))
  | .assemble b, r, s => s.finishBuilder b (some r)
  | .eval .., _, s | .build _, _, s | .equal .., _, s | .less .., _, s | .spell .., _, s
  | .sweep .., _, s => s

end NixKernel
