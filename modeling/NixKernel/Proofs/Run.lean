import NixKernel.Run

/-!
Laws of runs: a run of two computations in a row is one run after the other, and an outcome is
kept when more levels are given.
-/

namespace NixKernel

variable {α β : Type}

/-! ### Unfolding -/

section Unfold

variable (answer : Answerer) (s : Store)

theorem Comp.runWith_done (r : Except Error α) :
    (Comp.done r).runWith answer s = some (r, s) := rfl

theorem Comp.runWith_act (a : Action) (k : a.Answer → Comp α) :
    (Comp.act a k).runWith answer s =
      (k (a.perform s).1).runWith answer (a.perform s).2 := rfl

theorem Comp.runWith_ask (q : Request) (k : Except Error q.Answer → Comp α) :
    (Comp.ask q k).runWith answer s =
      (answer q s).bind fun p => (k p.1).runWith answer p.2 := by
  rw [Comp.runWith]
  cases answer q s <;> rfl

theorem Request.run_succ (n : Nat) (q : Request) :
    Request.run (n + 1) q s =
      match q.start s with
      | .answer r s => some (r, s)
      | .run c s => (c.runWith (Request.run n) s).map fun p => (p.1, q.finish p.1 p.2) := by
  rw [Request.run]
  cases q.start s with
  | answer r s => rfl
  | run c s => dsimp only; cases c.runWith (Request.run n) s <;> rfl

end Unfold

/-! ### One computation after another -/

/-- What follows the outcome of a first computation. -/
def Comp.runNext (answer : Answerer) (f : α → Comp β) : Result α → Option (Result β)
  | (.ok a, s) => (f a).runWith answer s
  | (.error e, s) => some (.error e, s)

theorem Comp.runWith_bind (answer : Answerer) (c : Comp α) (f : α → Comp β) (s : Store) :
    (c >>= f).runWith answer s = (c.runWith answer s).bind (Comp.runNext answer f) := by
  rw [Comp.bind_def]
  induction c generalizing s with
  | done r => cases r <;> rfl
  | act a k ih => exact ih _ _
  | ask q k ih =>
    rw [Comp.bind, Comp.runWith_ask, Comp.runWith_ask]
    cases answer q s with
    | none => rfl
    | some p => exact ih _ _

/-! ### Answers in a run -/

section Answers

variable {answer : Answerer} {s s' : Store}

theorem Comp.runWith_pure_ok {a b : α} :
    (pure a : Comp α).runWith answer s = some (.ok b, s') ↔ b = a ∧ s' = s := by
  rw [Comp.pure_def, Comp.runWith_done, Option.some.injEq, Prod.mk.injEq, Except.ok.injEq, eq_comm,
    @eq_comm _ s]

theorem Comp.runWith_perform_ok {a : Action} {x : a.Answer} :
    (Comp.perform a).runWith answer s = some (.ok x, s') ↔ a.perform s = (x, s') := by
  rw [Comp.perform, Comp.runWith_act, Comp.runWith_done, Option.some.injEq, Prod.mk.injEq,
    Except.ok.injEq, Prod.ext_iff]

theorem Comp.runWith_request (q : Request) :
    (Comp.request q).runWith answer s = answer q s := by
  rw [Comp.request, Comp.runWith_ask]
  cases answer q s <;> rfl

theorem Comp.runWith_attempt (c : Comp α) :
    c.attempt.runWith answer s = (c.runWith answer s).map fun p => (.ok p.1, p.2) := by
  induction c generalizing s with
  | done r => rfl
  | act a k ih => exact ih _
  | ask q k ih =>
    rw [Comp.attempt, Comp.runWith_ask, Comp.runWith_ask]
    cases answer q s with
    | none => rfl
    | some p => exact ih _

/-- A run that asks goes on with the answer. -/
theorem Comp.runWith_ask_iff {q : Request} {k : Except Error q.Answer → Comp α}
    {r : Except Error α} : (Comp.ask q k).runWith answer s = some (r, s') ↔
      ∃ r₁ s₁, answer q s = some (r₁, s₁) ∧ (k r₁).runWith answer s₁ = some (r, s') := by
  rw [Comp.runWith_ask, Option.bind_eq_some_iff]
  exact Prod.exists

/-- A run of two parts is one of both, or of a first one that fails. -/
theorem Comp.runWith_bind_iff {c : Comp α} {f : α → Comp β} {r : Except Error β} :
    (c >>= f).runWith answer s = some (r, s') ↔
      (∃ a s₁, c.runWith answer s = some (.ok a, s₁) ∧
        (f a).runWith answer s₁ = some (r, s')) ∨
      ∃ e, c.runWith answer s = some (.error e, s') ∧ r = .error e := by
  rw [Comp.runWith_bind, Option.bind_eq_some_iff]
  constructor
  · rintro ⟨⟨r₁, s₁⟩, h₁, h₂⟩
    cases r₁ with
    | ok a => exact Or.inl ⟨a, s₁, h₁, h₂⟩
    | error e =>
      cases h₂
      exact Or.inr ⟨e, h₁, rfl⟩
  · rintro (⟨a, s₁, h₁, h₂⟩ | ⟨e, h₁, rfl⟩)
    · exact ⟨(.ok a, s₁), h₁, h₂⟩
    · exact ⟨(.error e, s'), h₁, rfl⟩

/-- Only a run whose parts both succeed succeeds. -/
theorem Comp.runWith_bind_ok {c : Comp α} {f : α → Comp β} {b : β} :
    (c >>= f).runWith answer s = some (.ok b, s') ↔
      ∃ a s₁, c.runWith answer s = some (.ok a, s₁) ∧
        (f a).runWith answer s₁ = some (.ok b, s') := by
  rw [Comp.runWith_bind_iff]
  refine ⟨fun h => h.resolve_right ?_, Or.inl⟩
  rintro ⟨e, -, h⟩
  cases h

theorem Comp.runWith_ofCell_ok {o : Option α} {a : α} :
    (Comp.ofCell o).runWith answer s = some (.ok a, s') ↔ o = some a ∧ s' = s := by
  cases o with
  | none => exact ⟨fun h => (nomatch h), fun ⟨h, _⟩ => (nomatch h)⟩
  | some x => rw [Comp.ofCell, Comp.runWith_pure_ok, Option.some.injEq, eq_comm]

theorem Comp.runWith_attrs_ok {a : Addr .set} {m : Attrs Value} :
    (Comp.attrs a).runWith answer s = some (.ok m, s') ↔ s.sets.get? a = some m ∧ s' = s :=
  Comp.runWith_ofCell_ok

theorem Comp.runWith_items_ok {a : Addr .list} {xs : List Value} :
    (Comp.items a).runWith answer s = some (.ok xs, s') ↔ s.lists.get? a = some xs ∧ s' = s :=
  Comp.runWith_ofCell_ok

end Answers

/-! ### Inside a request -/

section Inside

variable {n : Nat} {q : Request} {s s' : Store} {r : Except Error q.Answer}

/-- A request that starts a computation ends as this does with one level less. -/
theorem Request.run_of_start {c : Comp q.Answer} {s₁ : Store} (hq : q.start s = .run c s₁)
    (h : q.run (n + 1) s = some (r, s')) :
    ∃ s₂, c.run n s₁ = some (r, s₂) ∧ s' = q.finish r s₂ := by
  rw [Request.run_succ, hq] at h
  obtain ⟨⟨r₂, s₂⟩, h₂, he⟩ := Option.map_eq_some_iff.mp h
  cases he
  exact ⟨s₂, h₂, rfl⟩

/-- The two ways of a request: it is answered at once, or it runs a computation of its own. -/
theorem Request.run_succ_cases (h : q.run (n + 1) s = some (r, s')) :
    q.start s = .answer r s' ∨ ∃ c s₁ s₂, q.start s = .run c s₁ ∧
      c.run n s₁ = some (r, s₂) ∧ s' = q.finish r s₂ := by
  cases hq : q.start s with
  | answer r₁ s₁ =>
    rw [Request.run_succ, hq] at h
    cases h
    exact .inl rfl
  | run c s₁ =>
    obtain ⟨s₂, h₂, hs⟩ := Request.run_of_start hq h
    exact .inr ⟨c, s₁, s₂, rfl, h₂, hs⟩

end Inside

/-! ### More levels -/

/-- One answerer gives every answer that another gives. -/
def Answerer.Extends (a b : Answerer) : Prop := ∀ q s r, b q s = some r → a q s = some r

theorem Comp.runWith_extends {a b : Answerer} (h : a.Extends b) {c : Comp α} {s : Store}
    {r : Result α} (hr : c.runWith b s = some r) : c.runWith a s = some r := by
  induction c generalizing s with
  | done r' => exact hr
  | act act k ih => exact ih _ hr
  | ask q k ih =>
    rw [Comp.runWith_ask] at hr ⊢
    obtain ⟨p, hp, hr⟩ := Option.bind_eq_some_iff.mp hr
    rw [h q s p hp]
    exact ih _ hr

theorem Request.run_extends_succ (n : Nat) :
    Answerer.Extends (Request.run (n + 1)) (Request.run n) := by
  induction n with
  | zero => intro q s r h; exact absurd h (by simp [Request.run])
  | succ n ih =>
    intro q s r h
    rw [Request.run_succ] at h ⊢
    cases hq : q.start s with
    | answer r' s' => rw [hq] at h; exact h
    | run c s' =>
      rw [hq] at h
      obtain ⟨p, hp, hr⟩ := Option.map_eq_some_iff.mp h
      exact Option.map_eq_some_iff.mpr ⟨p, Comp.runWith_extends ih hp, hr⟩

/-- More levels keep every answer. -/
theorem Request.run_extends {m n : Nat} (h : m ≤ n) :
    Answerer.Extends (Request.run n) (Request.run m) := by
  induction h with
  | refl => exact fun _ _ _ h => h
  | step _ ih => exact fun q s r hr => Request.run_extends_succ _ q s r (ih q s r hr)

/-- More levels keep every outcome. -/
theorem Comp.run_mono {m n : Nat} (h : m ≤ n) {c : Comp α} {s : Store} {r : Result α}
    (hr : c.run m s = some r) : c.run n s = some r :=
  Comp.runWith_extends (Request.run_extends h) hr

/-- Any two numbers of levels that suffice give the same outcome. -/
theorem Comp.run_unique {m n : Nat} {c : Comp α} {s : Store} {r r' : Result α}
    (h : c.run m s = some r) (h' : c.run n s = some r') : r = r' := by
  have h₁ := Comp.run_mono (Nat.le_max_left m n) h
  have h₂ := Comp.run_mono (Nat.le_max_right m n) h'
  exact Option.some.inj (h₁.symm.trans h₂)

end NixKernel
