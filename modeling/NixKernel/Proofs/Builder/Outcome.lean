import NixKernel.Eval.Request

/-!
How far the construction of a set is. The set and the error of a construction are kept apart, and
the error is looked at first: a construction that has failed goes on to answer with its error, also
if a set has come of it besides.
-/

namespace NixKernel

/-- How far the construction of a set is. -/
inductive Outcome where
  | underway
  | built (a : Addr .set)
  | failed (e : Error)

namespace Builder

variable {c : Builder} {a : Addr .set} {e : Error}

/-- What a set under construction answers with when it is asked to go on. -/
def outcome (c : Builder) : Outcome :=
  match c.err, c.set with
  | some e, _ => .failed e
  | none, some a => .built a
  | none, none => .underway

theorem outcome_eq_underway : c.outcome = .underway ↔ c.err = none ∧ c.set = none := by
  unfold outcome
  split <;> simp_all

theorem outcome_eq_built : c.outcome = .built a ↔ c.err = none ∧ c.set = some a := by
  unfold outcome
  split <;> simp_all

theorem outcome_eq_failed : c.outcome = .failed e ↔ c.err = some e := by
  unfold outcome
  split <;> simp_all

theorem outcome_congr {d : Builder} (hset : c.set = d.set) (herr : c.err = d.err) :
    c.outcome = d.outcome := by
  rw [outcome, outcome, hset, herr]

theorem set_of_built (h : c.outcome = .built a) : c.set = some a := (outcome_eq_built.mp h).2

/-! ### Leaving -/

variable (c) (r : Option (Except Error (Addr .set)))

@[simp]
theorem leave_env : (c.leave r).env = c.env := by
  rcases r with _ | _ | _ <;> rfl

@[simp]
theorem leave_entries : (c.leave r).entries = c.entries := by
  rcases r with _ | _ | _ <;> rfl

@[simp]
theorem leave_next : (c.leave r).next = c.next := by
  rcases r with _ | _ | _ <;> rfl

@[simp]
theorem leave_active : (c.leave r).active = c.active - 1 := by
  rcases r with _ | _ | _ <;> rfl

@[simp]
theorem leave_order : (c.leave r).order = c.order := by
  rcases r with _ | _ | _ <;> rfl

@[simp]
theorem leave_slots : (c.leave r).slots = c.slots := by
  rcases r with _ | _ | _ <;> rfl

@[simp]
theorem leave_outcome_error (e : Error) : (c.leave (some (.error e))).outcome = .failed e := rfl

/-- After the assembly a set is settled. -/
theorem leave_outcome_ne (r : Except Error (Addr .set)) :
    (c.leave (some r)).outcome ≠ .underway := by
  cases r with
  | ok a => exact fun h => by cases (outcome_eq_underway.mp h).2
  | error e => exact fun h => by cases h

theorem leave_outcome_ok (h : c.outcome = .underway) (a : Addr .set) :
    (c.leave (some (.ok a))).outcome = .built a :=
  outcome_eq_built.mpr ⟨(outcome_eq_underway.mp h).1, rfl⟩

end Builder

end NixKernel
