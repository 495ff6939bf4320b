import NixKernel.Machine
import NixKernel.Proofs.Run

/-!
The machine and the runs agree: a computation has an outcome on the machine within some number of
steps if and only if it has that outcome within some number of levels.
-/

namespace NixKernel.Machine

variable {α ρ : Type}

/-! ### Single steps -/

section Steps

variable (n : Nat) (s : Store)

theorem run_done_nil (r : Except Error ρ) :
    run (n + 1) (⟨.done r, .nil, s⟩ : Machine ρ) = some (r, s) := rfl

theorem run_done_cons (q : Request) (r : Except Error q.Answer)
    (k : Except Error q.Answer → Comp α) (rest : Stack ρ α) :
    run (n + 1) ⟨.done r, .cons q k rest, s⟩ = run n ⟨k r, rest, q.finish r s⟩ := rfl

theorem run_act (a : Action) (k : a.Answer → Comp α) (st : Stack ρ α) :
    run (n + 1) ⟨.act a k, st, s⟩ = run n ⟨k (a.perform s).1, st, (a.perform s).2⟩ := rfl

theorem run_ask_answer {q : Request} {r : Except Error q.Answer} {s' : Store}
    (k : Except Error q.Answer → Comp α) (st : Stack ρ α) (h : q.start s = .answer r s') :
    run (n + 1) ⟨.ask q k, st, s⟩ = run n ⟨k r, st, s'⟩ := by
  simp [run, step, advance, h]

theorem run_ask_run {q : Request} {c : Comp q.Answer} {s' : Store}
    (k : Except Error q.Answer → Comp α) (st : Stack ρ α) (h : q.start s = .run c s') :
    run (n + 1) ⟨.ask q k, st, s⟩ = run n ⟨c, .cons q k st, s'⟩ := by
  simp [run, step, advance, h]

end Steps

/-! ### From levels to steps -/

/-- The machine goes from one state to another in `m` steps, whatever it is given beyond them. -/
def Reaches (m : Nat) (a b : Machine ρ) : Prop := ∀ n, run (n + m) a = run n b

theorem Reaches.refl (a : Machine ρ) : Reaches 0 a a := fun _ => rfl

theorem Reaches.step {m : Nat} {a b c : Machine ρ} (h : ∀ n, run (n + 1) a = run n b)
    (h' : Reaches m b c) : Reaches (m + 1) a c := fun n => by
  rw [← Nat.add_assoc, h, h']

theorem Reaches.trans {m n : Nat} {a b c : Machine ρ} (h : Reaches m a b) (h' : Reaches n b c) :
    Reaches (n + m) a c := fun l => by
  rw [← Nat.add_assoc, h, h']

/-- A computation with an outcome is run to its end, under every stack. -/
theorem exists_reaches {n : Nat} {c : Comp α} {s s' : Store} {r : Except Error α}
    (h : c.run n s = some (r, s')) (st : Stack ρ α) :
    ∃ m, Reaches m (⟨c, st, s⟩ : Machine ρ) ⟨.done r, st, s'⟩ := by
  induction n generalizing α c s s' with
  | zero =>
    induction c generalizing s with
    | done r' => cases h; exact ⟨0, Reaches.refl _⟩
    | act a k ih =>
      obtain ⟨m, hm⟩ := ih _ h
      exact ⟨m + 1, Reaches.step (fun n => run_act n s a k st) hm⟩
    | ask q k ih =>
      rw [Comp.run, Comp.runWith_ask] at h
      cases h
  | succ n IH =>
    induction c generalizing s with
    | done r' => cases h; exact ⟨0, Reaches.refl _⟩
    | act a k ih =>
      obtain ⟨m, hm⟩ := ih _ h
      exact ⟨m + 1, Reaches.step (fun n => run_act n s a k st) hm⟩
    | ask q k ih =>
      obtain ⟨r₁, s₁, h₁, h₂⟩ := Comp.runWith_ask_iff.mp h
      obtain ⟨m₂, hm₂⟩ := ih r₁ h₂
      rcases Request.run_succ_cases h₁ with hq | ⟨c₀, s₀, s₂, hq, hp, rfl⟩
      · exact ⟨m₂ + 1, Reaches.step (fun n => run_ask_answer n s k st hq) hm₂⟩
      · obtain ⟨m₁, hm₁⟩ := IH hp (.cons q k st)
        exact ⟨_, Reaches.step (fun n => run_ask_run n s k st hq)
          (hm₁.trans (Reaches.step (fun n => run_done_cons n s₂ q r₁ k st) hm₂))⟩

/-! ### From steps to levels -/

/-- A machine that comes to a result has first run its computation to an outcome. -/
theorem exists_run {n : Nat} {c : Comp α} {s : Store} {st : Stack ρ α} {res : Result ρ}
    (h : run n (⟨c, st, s⟩ : Machine ρ) = some res) :
    ∃ l r s' m, m ≤ n ∧ c.run l s = some (r, s') ∧
      run m (⟨.done r, st, s'⟩ : Machine ρ) = some res := by
  -- on the steps: a computation that has been called for ends earlier than the whole run
  induction n using Nat.strongRecOn generalizing α c s st with
  | ind n IH =>
    cases c with
    | done r => exact ⟨0, r, s, n, Nat.le_refl n, rfl, h⟩
    | act a k =>
      cases n with
      | zero => cases h
      | succ n =>
        rw [run_act] at h
        obtain ⟨l, r, s', m, hm, hl, hr⟩ := IH n (Nat.lt_succ_self n) h
        exact ⟨l, r, s', m, Nat.le_succ_of_le hm, hl, hr⟩
    | ask q k =>
      cases n with
      | zero => cases h
      | succ n =>
        cases hq : q.start s with
        | answer r₀ s₀ =>
          rw [run_ask_answer n s k st hq] at h
          obtain ⟨l, r, s', m, hm, hl, hr⟩ := IH n (Nat.lt_succ_self n) h
          refine ⟨l + 1, r, s', m, Nat.le_succ_of_le hm, ?_, hr⟩
          rw [Comp.run, Comp.runWith_ask, Request.run_succ, hq]
          exact Comp.run_mono (Nat.le_succ l) hl
        | run c₀ s₀ =>
          rw [run_ask_run n s k st hq] at h
          obtain ⟨l₁, r₁, s₁, m₁, hm₁, hl₁, h₁⟩ := IH n (Nat.lt_succ_self n) h
          cases m₁ with
          | zero => cases h₁
          | succ m₁ =>
            rw [run_done_cons] at h₁
            -- first the request, then what goes on with its answer
            obtain ⟨l₂, r, s', m, hm, hl₂, hr⟩ := IH m₁ (by omega) h₁
            refine ⟨max l₁ l₂ + 1, r, s', m, by omega, ?_, hr⟩
            have h₁' := Comp.run_mono (Nat.le_max_left l₁ l₂) hl₁
            rw [Comp.run] at h₁'
            rw [Comp.run, Comp.runWith_ask, Request.run_succ, hq]
            simp only [h₁', Option.map_some, Option.bind_some]
            exact Comp.run_mono (Nat.le_succ_of_le (Nat.le_max_right l₁ l₂)) hl₂

/-! ### Agreement -/

/-- The machine and the runs have the same outcomes. -/
theorem exists_run_load_iff {c : Comp ρ} {s : Store} {res : Result ρ} :
    (∃ n, (load c s).run n = some res) ↔ ∃ n, c.run n s = some res := by
  constructor
  · rintro ⟨n, h⟩
    obtain ⟨l, r, s', m, _, hl, hr⟩ := exists_run h
    cases m with
    | zero => cases hr
    | succ m =>
      rw [run_done_nil] at hr
      cases hr
      exact ⟨l, hl⟩
  · rintro ⟨n, h⟩
    obtain ⟨r, s'⟩ := res
    obtain ⟨m, hm⟩ := exists_reaches h .nil
    exact ⟨1 + m, (hm 1).trans (run_done_nil 0 s' r)⟩

end NixKernel.Machine
