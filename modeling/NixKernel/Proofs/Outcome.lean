import NixKernel.Proofs.Run

/-!
Outcomes without a number of levels. A computation ends with an outcome if some number of levels
suffices for it; an outcome is then unique, and it is put together from the outcomes of the parts.
-/

namespace NixKernel

variable {α β : Type}

/-- A computation ends in an outcome, given levels enough. -/
def Comp.Ends (c : Comp α) (s : Store) (r : Except Error α) (s' : Store) : Prop :=
  ∃ n, c.run n s = some (r, s')

/-- A request is answered, given levels enough. -/
def Request.Ends (q : Request) (s : Store) (r : Except Error q.Answer) (s' : Store) : Prop :=
  ∃ n, q.run n s = some (r, s')

/-! ### One outcome at most -/

theorem Comp.Ends.unique {c : Comp α} {s s₁ s₂ : Store} {r₁ r₂ : Except Error α}
    (h₁ : c.Ends s r₁ s₁) (h₂ : c.Ends s r₂ s₂) : r₁ = r₂ ∧ s₁ = s₂ := by
  obtain ⟨m, hm⟩ := h₁
  obtain ⟨n, hn⟩ := h₂
  exact Prod.mk.injEq .. ▸ Comp.run_unique hm hn

/-! ### The parts of a computation -/

section Parts

variable {s s' : Store}

@[simp] theorem Comp.ends_done {r r' : Except Error α} :
    (Comp.done r).Ends s r' s' ↔ r' = r ∧ s' = s := by
  refine ⟨fun ⟨n, h⟩ => ?_, fun ⟨hr, hs⟩ => ⟨0, by rw [hr, hs]; rfl⟩⟩
  cases h
  exact ⟨rfl, rfl⟩

@[simp] theorem Comp.ends_pure {a : α} {r : Except Error α} :
    (pure a : Comp α).Ends s r s' ↔ r = .ok a ∧ s' = s := Comp.ends_done

@[simp] theorem Comp.ends_fail {e : Error} {r : Except Error α} :
    (Comp.fail e : Comp α).Ends s r s' ↔ r = .error e ∧ s' = s := Comp.ends_done

@[simp] theorem Comp.ends_refuse {c : Cause} {r : Except Error α} :
    (Comp.refuse c : Comp α).Ends s r s' ↔ r = .error (.eval c) ∧ s' = s := Comp.ends_done

@[simp] theorem Comp.ends_perform {a : Action} {r : Except Error a.Answer} :
    (Comp.perform a).Ends s r s' ↔ r = .ok (a.perform s).1 ∧ s' = (a.perform s).2 := by
  refine ⟨fun ⟨n, h⟩ => ?_, fun ⟨hr, hs⟩ => ⟨0, by rw [hr, hs]; rfl⟩⟩
  cases h
  exact ⟨rfl, rfl⟩

theorem Comp.perform_ends (a : Action) (s : Store) :
    (Comp.perform a).Ends s (.ok (a.perform s).1) (a.perform s).2 :=
  Comp.ends_perform.mpr ⟨rfl, rfl⟩

@[simp] theorem Comp.ends_request {q : Request} {r : Except Error q.Answer} :
    (Comp.request q).Ends s r s' ↔ q.Ends s r s' := by
  have key : ∀ n, (Comp.request q).run n s = q.run n s := fun n => Comp.runWith_request q
  simp only [Comp.Ends, Request.Ends, key]

theorem Comp.ends_attrs {a : Addr .set} {m : Attrs Value} :
    (Comp.attrs a).Ends s (.ok m) s' ↔ s.sets.get? a = some m ∧ s' = s :=
  ⟨fun ⟨_, h⟩ => Comp.runWith_attrs_ok.mp h, fun h => ⟨0, Comp.runWith_attrs_ok.mpr h⟩⟩

/-- A computation and what follows it: the first one fails, or both run. -/
theorem Comp.ends_bind_iff {c : Comp α} {f : α → Comp β} {r : Except Error β} :
    (c >>= f).Ends s r s' ↔
      (∃ a s₁, c.Ends s (.ok a) s₁ ∧ (f a).Ends s₁ r s') ∨
        ∃ e, c.Ends s (.error e) s' ∧ r = .error e := by
  constructor
  · rintro ⟨n, h⟩
    rcases Comp.runWith_bind_iff.mp h with ⟨a, s₁, h₁, h₂⟩ | ⟨e, h₁, hr⟩
    · exact Or.inl ⟨a, s₁, ⟨n, h₁⟩, ⟨n, h₂⟩⟩
    · exact Or.inr ⟨e, ⟨n, h₁⟩, hr⟩
  · rintro (⟨a, s₁, ⟨m, hm⟩, ⟨n, hn⟩⟩ | ⟨e, ⟨n, hn⟩, rfl⟩)
    · refine ⟨max m n, Comp.runWith_bind_iff.mpr (Or.inl ⟨a, s₁, ?_, ?_⟩)⟩
      · exact Comp.run_mono (Nat.le_max_left m n) hm
      · exact Comp.run_mono (Nat.le_max_right m n) hn
    · exact ⟨n, Comp.runWith_bind_iff.mpr (Or.inr ⟨e, hn, rfl⟩)⟩

theorem Comp.Ends.bind {c : Comp α} {f : α → Comp β} {a : α} {s₁ : Store} {r : Except Error β}
    (h : c.Ends s (.ok a) s₁) (hf : (f a).Ends s₁ r s') : (c >>= f).Ends s r s' :=
  Comp.ends_bind_iff.mpr (Or.inl ⟨a, s₁, h, hf⟩)

theorem Comp.Ends.bind_error {c : Comp α} {f : α → Comp β} {e : Error}
    (h : c.Ends s (.error e) s') : (c >>= f).Ends s (.error e) s' :=
  Comp.ends_bind_iff.mpr (Or.inr ⟨e, h, rfl⟩)

/-- Only a computation whose parts both succeed succeeds. -/
theorem Comp.ends_bind_ok {c : Comp α} {f : α → Comp β} {b : β} :
    (c >>= f).Ends s (.ok b) s' ↔ ∃ a s₁, c.Ends s (.ok a) s₁ ∧ (f a).Ends s₁ (.ok b) s' := by
  rw [Comp.ends_bind_iff]
  refine ⟨fun h => h.resolve_right ?_, Or.inl⟩
  rintro ⟨e, -, h⟩
  cases h

/-- What follows a computation with a known answer. -/
theorem Comp.Ends.bind_iff {c : Comp α} {f : α → Comp β} {a : α} {s₁ : Store}
    {r : Except Error β} (h : c.Ends s (.ok a) s₁) :
    (c >>= f).Ends s r s' ↔ (f a).Ends s₁ r s' := by
  refine ⟨fun h' => ?_, h.bind⟩
  rcases Comp.ends_bind_iff.mp h' with ⟨a', s₁', ha, hf⟩ | ⟨e, he, -⟩
  · obtain ⟨he, rfl⟩ := h.unique ha
    cases he
    exact hf
  · cases (h.unique he).1

end Parts

/-! ### Operators -/

section Operators

variable {l r v w : Value} {s s₁ s₂ : Store} {f : Value → Value → Except Cause Value}

theorem Comp.ends_forceBoth (hl : (Comp.force l).Ends s (.ok v) s₁)
    (hr : (Comp.force r).Ends s₁ (.ok w) s₂) : (Comp.forceBoth l r).Ends s (.ok (v, w)) s₂ :=
  hl.bind (hr.bind (Comp.ends_pure.mpr ⟨rfl, rfl⟩))

/-- An operator that does not look into its operands comes to its value on what they come to. -/
theorem Comp.ends_onForced {x : Value} (h : (Comp.forceBoth l r).Ends s (.ok (v, w)) s₂)
    (hf : f v w = .ok x) : (Comp.onForced f l r).Ends s (.ok x) s₂ := by
  refine h.bind ?_
  dsimp only
  rw [hf]
  exact Comp.ends_pure.mpr ⟨rfl, rfl⟩

theorem Comp.ends_onForced_error {c : Cause} (h : (Comp.forceBoth l r).Ends s (.ok (v, w)) s₂)
    (hf : f v w = .error c) : (Comp.onForced f l r).Ends s (.error (.eval c)) s₂ := by
  refine h.bind ?_
  dsimp only
  rw [hf]
  exact Comp.ends_refuse.mpr ⟨rfl, rfl⟩

end Operators

/-- The error that a computation has ended with, if it has failed. -/
def failure? : Except Error α → Option Error
  | .ok _ => none
  | .error e => some e

theorem failure?_eq_none {r : Except Error α} (h : failure? r = none) : ∃ a, r = .ok a := by
  cases r with
  | ok a => exact ⟨a, rfl⟩
  | error e => cases h

theorem failure?_eq_some {r : Except Error α} {e : Error} (h : failure? r = some e) :
    r = .error e := by
  cases r with
  | ok a => cases h
  | error e' => cases h; rfl

/-! ### The computation of a request -/

section Requests

variable {q : Request} {s s' s₁ : Store} {r : Except Error q.Answer}

theorem Request.ends_answer {r₁ : Except Error q.Answer} (h : q.start s = .answer r₁ s₁) :
    q.Ends s r s' ↔ r = r₁ ∧ s' = s₁ := by
  constructor
  · rintro ⟨n, hn⟩
    cases n with
    | zero => cases hn
    | succ n =>
      rw [Request.run_succ, h] at hn
      cases hn
      exact ⟨rfl, rfl⟩
  · rintro ⟨rfl, rfl⟩
    exact ⟨1, by rw [Request.run_succ, h]⟩

theorem Request.ends_run {c : Comp q.Answer} (h : q.start s = .run c s₁) :
    q.Ends s r s' ↔ ∃ s₂, c.Ends s₁ r s₂ ∧ s' = q.finish r s₂ := by
  constructor
  · rintro ⟨n, hn⟩
    cases n with
    | zero => cases hn
    | succ n =>
      obtain ⟨s₂, h₂, rfl⟩ := Request.run_of_start h hn
      exact ⟨s₂, ⟨n, h₂⟩, rfl⟩
  · rintro ⟨s₂, ⟨n, hn⟩, rfl⟩
    refine ⟨n + 1, ?_⟩
    rw [Request.run_succ, h]
    dsimp only
    rw [show c.runWith (Request.run n) s₁ = _ from hn]
    rfl

end Requests

end NixKernel
