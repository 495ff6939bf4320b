import NixKernel.Run

/-!
A machine that runs computations step by step, with the pending requests on a stack of its own.
-/

namespace NixKernel

/-- The requests that are being answered, innermost first, each with what follows it. The whole
stack takes an outcome of type `α` to one of type `ρ`. -/
inductive Stack (ρ : Type) : Type → Type 1 where
  | nil : Stack ρ ρ
  | cons {α : Type} (q : Request) (k : Except Error q.Answer → Comp α) (rest : Stack ρ α) :
      Stack ρ q.Answer

/-- A state of the machine: what it runs, the requests around it, and the store. -/
structure Machine (ρ : Type) : Type 1 where
  {α : Type}
  control : Comp α
  stack : Stack ρ α
  store : Store

namespace Machine

variable {ρ : Type}

/-- One step of a computation inside a stack: the next state, or the result. -/
def advance {α : Type} (c : Comp α) (st : Stack ρ α) (s : Store) : Machine ρ ⊕ Result ρ :=
  match c with
  | .done r =>
    match st with
    | .nil => .inr (r, s)
    | .cons q k rest => .inl ⟨k r, rest, q.finish r s⟩
  | .act a k =>
    let (x, s) := a.perform s
    .inl ⟨k x, st, s⟩
  | .ask q k =>
    match q.start s with
    | .answer r s => .inl ⟨k r, st, s⟩
    | .run c s => .inl ⟨c, .cons q k st, s⟩

/-- One step: the next state, or the result. -/
def step (m : Machine ρ) : Machine ρ ⊕ Result ρ := advance m.control m.stack m.store

/-- The result within a number of steps. -/
def run : Nat → Machine ρ → Option (Result ρ)
  | 0, _ => none
  | n + 1, m =>
    match m.step with
    | .inl m => run n m
    | .inr r => some r

/-- The state before a computation is run. -/
def load (c : Comp ρ) (s : Store) : Machine ρ := ⟨c, .nil, s⟩

end Machine

end NixKernel
