import NixKernel.Eval.Request

/-!
Running computations. A run is given a number of levels for requests inside requests; it has no
outcome if they do not suffice, and more levels never change an outcome.
-/

namespace NixKernel

/-- How a computation ends: with an answer or an error, and the store after it. -/
abbrev Result (α : Type) := Except Error α × Store

/-- Something that answers requests, or has no outcome. -/
abbrev Answerer := (q : Request) → Store → Option (Result q.Answer)

/-- Runs a computation with someone to answer its requests. -/
def Comp.runWith {α : Type} (answer : Answerer) : Comp α → Store → Option (Result α)
  | .done r, s => some (r, s)
  | .act a k, s =>
    let (x, s) := a.perform s
    (k x).runWith answer s
  | .ask q k, s =>
    match answer q s with
    | none => none
    | some (r, s) => (k r).runWith answer s

/-- The outcome of a request within a number of levels. -/
def Request.run : Nat → Answerer
  | 0, _, _ => none
  | n + 1, q, s =>
    match q.start s with
    | .answer r s => some (r, s)
    | .run c s =>
      match c.runWith (Request.run n) s with
      | none => none
      | some (r, s) => some (r, q.finish r s)

/-- The outcome of a computation within a number of levels. -/
def Comp.run {α : Type} (n : Nat) (c : Comp α) (s : Store) : Option (Result α) :=
  c.runWith (Request.run n) s

end NixKernel
