import Mathlib.Logic.Relation
import NixKernel.Proofs.Later
import NixKernel.Proofs.Machine

/-!
The states that a run passes. What an expression or a body can see of the store is what is there in
some state that the machine passes, so an invariant of all these states is one that no program can
see broken. Such an invariant is proved in one of two ways: step by step, or along the runs of the
requests, where a request that has been answered is one step.
-/

namespace NixKernel

variable {α β ρ : Type}

/-! ### States on the way -/

/-- The request that is being answered, the innermost one. -/
def Stack.top? : Stack ρ α → Option Request
  | .nil => none
  | .cons q _ _ => some q

namespace Machine

/-- One state comes right after another. -/
def Leads (m m' : Machine ρ) : Prop := m.step = .inl m'

/-- One state comes after another, or is the same. -/
def Passes : Machine ρ → Machine ρ → Prop := Relation.ReflTransGen Leads

theorem Passes.refl (m : Machine ρ) : m.Passes m := Relation.ReflTransGen.refl

theorem Passes.trans {m m' m'' : Machine ρ} (h : m.Passes m') (h' : m'.Passes m'') :
    m.Passes m'' := Relation.ReflTransGen.trans h h'

theorem Passes.tail {m m' m'' : Machine ρ} (h : m.Passes m') (h' : m'.Leads m'') :
    m.Passes m'' := Relation.ReflTransGen.tail h h'

theorem Leads.passes {m m' : Machine ρ} (h : m.Leads m') : m.Passes m' := (Passes.refl m).tail h

/-- The state after a number of steps, if the run has not come to its result by then. -/
def after : Nat → Machine ρ → Option (Machine ρ)
  | 0, m => some m
  | n + 1, m =>
    match m.step with
    | .inl m => after n m
    | .inr _ => none

theorem passes_of_after (n : Nat) {m m' : Machine ρ} (h : m.after n = some m') : m.Passes m' := by
  induction n generalizing m with
  | zero => cases h; exact .refl _
  | succ n ih =>
    rw [after] at h
    split at h
    · exact (Leads.passes ‹_›).trans (ih h)
    · cases h

/-- What a step can be: a request is finished, an action is performed, or a request is answered at
once or started. -/
theorem leads_cases {P : Machine ρ → Machine ρ → Prop} {m m' : Machine ρ} (h : m.Leads m')
    (finish : ∀ {α} (q : Request) (r : Except Error q.Answer) (k : Except Error q.Answer → Comp α)
      (st : Stack ρ α) (s : Store), P ⟨.done r, .cons q k st, s⟩ ⟨k r, st, q.finish r s⟩)
    (act : ∀ {α} (a : Action) (k : a.Answer → Comp α) (st : Stack ρ α) (s : Store),
      P ⟨.act a k, st, s⟩ ⟨k (a.perform s).1, st, (a.perform s).2⟩)
    (answer : ∀ {α} (q : Request) (k : Except Error q.Answer → Comp α) (st : Stack ρ α) (s : Store)
      (r : Except Error q.Answer), q.start s = .answer r s → P ⟨.ask q k, st, s⟩ ⟨k r, st, s⟩)
    (start : ∀ {α} (q : Request) (k : Except Error q.Answer → Comp α) (st : Stack ρ α) (s : Store)
      (c : Comp q.Answer) (s' : Store), q.start s = .run c s' →
        P ⟨.ask q k, st, s⟩ ⟨c, .cons q k st, s'⟩) : P m m' := by
  obtain ⟨c, st, s⟩ := m
  cases c with
  | done r =>
    cases st with
    | nil => cases h
    | cons q k rest =>
      cases h
      exact finish q r k rest s
  | act a k =>
    cases h
    exact act a k st s
  | ask q k =>
    simp only [Leads, step, advance] at h
    cases hq : q.start s with
    | answer r s' =>
      rw [hq] at h
      cases h
      obtain rfl := Request.start_answer hq
      exact answer q k st _ r hq
    | run c s' =>
      rw [hq] at h
      cases h
      exact start q k st s c s' hq

/-! ### Step by step -/

/-- What every change of the store keeps, every state that a run passes has. -/
theorem Passes.store {P : Store → Prop} {m m' : Machine ρ} (h : m.Passes m')
    (act : ∀ (a : Action) s, P s → P (a.perform s).2)
    (start : ∀ (q : Request) s (c : Comp q.Answer) s', q.start s = .run c s' → P s → P s')
    (finish : ∀ (q : Request) (r : Except Error q.Answer) s, P s → P (q.finish r s))
    (hm : P m.store) : P m'.store := by
  induction h with
  | refl => exact hm
  | tail _ hl ih =>
    revert ih
    exact leads_cases (P := fun m m' => P m.store → P m'.store) hl
      (fun q r _ _ s => finish q r s) (fun a _ _ s => act a s) (fun _ _ _ _ _ _ h => h)
      (fun q _ _ s c s' hq => start q s c s' hq)

end Machine

/-! ### Along the runs of requests -/

section Along

variable {s s' s₁ : Store} {r : Except Error α}

/-- A computation that asks ends as what follows the answer does. -/
theorem Comp.Ends.ask {q : Request} {k : Except Error q.Answer → Comp α}
    {r₁ : Except Error q.Answer} (hq : q.Ends s r₁ s₁) (h : (k r₁).Ends s₁ r s') :
    (Comp.ask q k).Ends s r s' := by
  obtain ⟨m, hm⟩ := hq
  obtain ⟨n, hn⟩ := h
  refine ⟨max m n, ?_⟩
  rw [Comp.run, Comp.runWith_ask, Request.run_extends (Nat.le_max_left m n) q s _ hm]
  exact Comp.run_mono (Nat.le_max_right m n) hn

end Along

/-! ### Inside a stack -/

/-- To go on after a computation is to look at its outcome. -/
theorem Comp.bind_eq_attempt (c : Comp α) (f : α → Comp β) :
    c >>= f = c.attempt >>= fun r => Comp.done r >>= f := by
  induction c with
  | done r => rfl
  | act x k ih => exact congrArg (Comp.act x) (funext ih)
  | ask q k ih => exact congrArg (Comp.ask q) (funext ih)

theorem Comp.attempt_bind_done (c : Comp α) : c.attempt >>= Comp.done = c :=
  calc c.attempt >>= Comp.done = c.attempt >>= fun r => Comp.done r >>= pure := by
        simp only [bind_pure]
    _ = c >>= pure := (c.bind_eq_attempt pure).symm
    _ = c := bind_pure c

section Inside

variable {q : Request} {k : Except Error q.Answer → Comp α} {st : Stack ρ α} {s s' : Store}

theorem Machine.leads_answer {r : Except Error q.Answer} (hq : q.start s = .answer r s') :
    Leads ⟨.ask q k, st, s⟩ ⟨k r, st, s'⟩ := by
  simp only [Leads, step, advance, hq]

theorem Machine.leads_start {c : Comp q.Answer} (hq : q.start s = .run c s') :
    Leads ⟨.ask q k, st, s⟩ ⟨c, .cons q k st, s'⟩ := by
  simp only [Leads, step, advance, hq]

end Inside

/-- The machine runs a computation to its end under every stack, and goes on with what follows. -/
theorem Comp.Ends.passes {c : Comp α} {s s' : Store} {r : Except Error α} (h : c.Ends s r s')
    (f : Except Error α → Comp β) (st : Stack ρ β) :
    Machine.Passes ⟨c.attempt >>= f, st, s⟩ ⟨f r, st, s'⟩ := by
  obtain ⟨n, hn⟩ := h
  induction n generalizing α β c s s' with
  | zero =>
    induction c generalizing s with
    | done r' =>
      cases hn
      exact .refl _
    | act x k ih => exact .trans (.tail (.refl _) rfl) (ih _ hn)
    | ask q k ih =>
      rw [Comp.run, Comp.runWith_ask] at hn
      cases hn
  | succ n IH =>
    induction c generalizing s with
    | done r' =>
      cases hn
      exact .refl _
    | act x k ih => exact .trans (.tail (.refl _) rfl) (ih _ hn)
    | ask q k ih =>
      obtain ⟨r₁, s₁, h₁, h₂⟩ := Comp.runWith_ask_iff.mp hn
      have hrest := ih r₁ h₂
      rcases Request.run_succ_cases h₁ with hq | ⟨c₀, s₀, s₂, hq, h₃, rfl⟩
      · exact (Machine.leads_answer hq).passes.trans hrest
      · have hinner := IH Comp.done (.cons q (fun r => (k r).attempt >>= f) st) h₃
        rw [c₀.attempt_bind_done] at hinner
        exact (Machine.leads_start hq).passes.trans ((hinner.tail rfl).trans hrest)

/-! ### Claims -/

/-- What is claimed of a state by the innermost request, the computation and the store. -/
abbrev Machine.Claim := Option Request → {α : Type} → Comp α → Store → Prop

/-- A claim that is kept by actions, by requests that have been answered, and on the way into a
request. -/
structure Machine.Claim.Kept (Q : Machine.Claim) : Prop where
  act : ∀ {top : Option Request} {α : Type} {a : Action} {k : a.Answer → Comp α} {s : Store},
    Q top (.act a k) s → Q top (k (a.perform s).1) (a.perform s).2
  answered : ∀ {top : Option Request} {α : Type} {q : Request}
    {k : Except Error q.Answer → Comp α} {s s' : Store} {r : Except Error q.Answer},
    Q top (.ask q k) s → q.Ends s r s' → Q top (k r) s'
  inside : ∀ {top : Option Request} {α : Type} {q : Request}
    {k : Except Error q.Answer → Comp α} {s s' : Store} {c : Comp q.Answer},
    Q top (.ask q k) s → q.start s = .run c s' → Q (some q) c s'

namespace Machine

/-- A claim holds of a computation in a stack, and it held of every request around it when that was
asked; what the computation comes to is what the request comes to. -/
def Claim.All (Q : Claim) : {α : Type} → Stack ρ α → Comp α → Store → Prop
  | _, .nil, c, s => Q none c s
  | _, .cons q k rest, c, s =>
    Q (some q) c s ∧ ∃ s₀ c₀ s₁, q.start s₀ = .run c₀ s₁ ∧
      (∀ r s', c.Ends s r s' → c₀.Ends s₁ r s') ∧ Q.All rest (.ask q k) s₀

namespace Claim

variable {Q : Claim} {st : Stack ρ α} {c c' : Comp α} {s s' : Store}

theorem All.claim (h : Q.All st c s) : Q st.top? c s := by
  cases st with
  | nil => exact h
  | cons q k rest => exact h.1

/-- A computation that goes on to another one, to the same end. -/
theorem All.next (h : Q.All st c s) (hc : Q st.top? c' s')
    (he : ∀ r s'', c'.Ends s' r s'' → c.Ends s r s'') : Q.All st c' s' := by
  cases st with
  | nil => exact hc
  | cons q k rest =>
    obtain ⟨-, s₀, c₀, s₁, hq, h₀, hrest⟩ := h
    exact ⟨hc, s₀, c₀, s₁, hq, fun r s'' h' => h₀ r s'' (he r s'' h'), hrest⟩

end Claim

/-- **Passage.** A claim that is kept along the runs of the requests holds in every state that a
run passes. -/
theorem Passes.claim {Q : Claim} (hQ : Q.Kept) {m m' : Machine ρ} (h : m.Passes m')
    (hm : Q.All m.stack m.control m.store) : Q.All m'.stack m'.control m'.store := by
  induction h with
  | refl => exact hm
  | tail _ hl ih =>
    revert ih
    refine leads_cases
      (P := fun m m' => Q.All m.stack m.control m.store → Q.All m'.stack m'.control m'.store) hl
      ?_ ?_ ?_ ?_
    · -- what the request was started for has come to its end
      rintro β q r k st s ⟨-, s₀, c₀, s₁, hq, hends, hrest⟩
      have hr : q.Ends s₀ r (q.finish r s) :=
        (Request.ends_run hq).mpr ⟨s, hends r s (Comp.ends_done.mpr ⟨rfl, rfl⟩), rfl⟩
      exact hrest.next (hQ.answered hrest.claim hr) fun _ _ h' => h'.ask hr
    · intro β a k st s hall
      exact hall.next (hQ.act hall.claim) fun _ _ h' => h'
    · intro β q k st s r hq hall
      have hr : q.Ends s r s := (Request.ends_answer hq).mpr ⟨rfl, rfl⟩
      exact hall.next (hQ.answered hall.claim hr) fun _ _ h' => h'.ask hr
    · intro β q k st s c s' hq hall
      exact ⟨hQ.inside hall.claim hq, s, c, s', hq, fun _ _ h' => h', hall⟩

/-- A claim about a computation on a store holds in every state that its run passes. -/
theorem Passes.of_load {Q : Claim} (hQ : Q.Kept) {c : Comp ρ} {s : Store} {m : Machine ρ}
    (h : (load c s).Passes m) (hc : Q none c s) : Q m.stack.top? m.control m.store :=
  (h.claim hQ (by exact hc)).claim

end Machine

end NixKernel
