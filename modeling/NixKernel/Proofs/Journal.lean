import NixKernel.Proofs.Builder.Known

/-!
What a run records. The journal of a store tells what has been run up to then, so the journals of
the states that a run passes tell what it runs and in which order, whether it comes to an end or
not. Two computations in a row record what the first one does, and then what the second one does.
-/

namespace NixKernel

variable {α ρ σ : Type}

/-! ### Two computations in a row -/

/-- A stack that a computation is grafted onto, and what becomes of the computation that is run on
top of it. -/
structure Grafted (σ α : Type) : Type 1 where
  {β : Type}
  control : Comp α → Comp β
  stack : Stack σ β

/-- The stack with a computation to come after all that is on it. -/
def Stack.graft (f : ρ → Comp σ) : {α : Type} → Stack ρ α → Grafted σ α
  | _, .nil => ⟨(· >>= f), .nil⟩
  | _, .cons q k rest => ⟨id, .cons q (fun r => (rest.graft f).control (k r)) (rest.graft f).stack⟩

theorem Stack.graft_act (f : ρ → Comp σ) (st : Stack ρ α) (a : Action) (k : a.Answer → Comp α) :
    (st.graft f).control (.act a k) = .act a fun x => (st.graft f).control (k x) := by
  cases st <;> rfl

theorem Stack.graft_ask (f : ρ → Comp σ) (st : Stack ρ α) (q : Request)
    (k : Except Error q.Answer → Comp α) :
    (st.graft f).control (.ask q k) = .ask q fun r => (st.graft f).control (k r) := by
  cases st <;> rfl

namespace Machine

variable {f : ρ → Comp σ} {c : Comp ρ} {s s' : Store} {r : Except Error ρ}

/-- The state with a computation to come after the whole of it. -/
def graft (f : ρ → Comp σ) (m : Machine ρ) : Machine σ :=
  ⟨(m.stack.graft f).control m.control, (m.stack.graft f).stack, m.store⟩

theorem Leads.graft {m m' : Machine ρ} (h : m.Leads m') (f : ρ → Comp σ) :
    (m.graft f).Leads (m'.graft f) := by
  refine leads_cases (P := fun m m' => (m.graft f).Leads (m'.graft f)) h ?_ ?_ ?_ ?_
  · intro α q r k st s
    rfl
  · intro α a k st s
    simp only [Machine.graft, Stack.graft_act]
    rfl
  · intro α q k st s r hq
    simp only [Machine.graft, Stack.graft_ask]
    exact leads_answer hq
  · intro α q k st s c s' hq
    simp only [Machine.graft, Stack.graft_ask]
    exact leads_start hq

theorem Passes.graft {m m' : Machine ρ} (h : m.Passes m') (f : ρ → Comp σ) :
    (m.graft f).Passes (m'.graft f) := by
  induction h with
  | refl => exact .refl _
  | tail _ hl ih => exact ih.tail (hl.graft f)

/-- The run of a computation that ends comes to where it is done. -/
theorem passes_done (h : c.Ends s r s') : (load c s).Passes ⟨.done r, .nil, s'⟩ := by
  have hp := h.passes Comp.done (.nil : Stack ρ ρ)
  rwa [c.attempt_bind_done] at hp

theorem Leads.unique {m m₁ m₂ : Machine ρ} (h₁ : m.Leads m₁) (h₂ : m.Leads m₂) : m₁ = m₂ :=
  Sum.inl.inj (h₁.symm.trans h₂)

/-- A run of two computations in a row is in the first one, with the second one to come, or it is
in the second one. -/
theorem passes_bind {m : Machine σ} : (load (c >>= f) s).Passes m ↔
    (∃ m', (load c s).Passes m' ∧ m = m'.graft f) ∨
      ∃ a s₁, c.Ends s (.ok a) s₁ ∧ (load (f a) s₁).Passes m := by
  constructor
  · intro h
    induction h with
    | refl => exact .inl ⟨_, .refl _, rfl⟩
    | tail _ hl ih =>
      rcases ih with ⟨m', hp, rfl⟩ | ⟨a, s₁, ha, hp⟩
      · cases hm : m'.step with
        | inl m₁ => exact .inl ⟨m₁, hp.tail hm, hl.unique (Leads.graft hm f)⟩
        | inr res =>
          -- the first computation is done, so the step is one of the second
          obtain ⟨r, s₁⟩ := res
          have hend := hp.ends hm
          rw [step_result hm] at hl
          cases r with
          | ok a => exact .inr ⟨a, s₁, hend, Leads.passes hl⟩
          | error e => cases hl
      · exact .inr ⟨a, s₁, ha, hp.tail hl⟩
  · rintro (⟨m', hp, rfl⟩ | ⟨a, s₁, ha, hp⟩)
    · exact hp.graft f
    · exact ((passes_done ha).graft f).trans hp

/-- What follows a computation with a known answer is run after it. -/
theorem passes_next {a : ρ} {s₁ : Store} (h : c.Ends s (.ok a) s₁) (f : ρ → Comp σ) :
    (load (c >>= f) s).Passes (load (f a) s₁) := passes_bind.mpr (.inr ⟨a, s₁, h, .refl _⟩)

/-- Every state of a run that ends comes before its end. -/
theorem Passes.to_end {m : Machine ρ} (h : (load c s).Passes m) (hend : c.Ends s r s') :
    m.Passes ⟨.done r, .nil, s'⟩ := by
  have hunique : Relator.RightUnique (@Leads ρ) := fun _ _ _ => Leads.unique
  rcases Relation.ReflTransGen.total_of_right_unique hunique h (passes_done hend) with hle | hle
  · exact hle
  · -- nothing comes after the end
    rcases Relation.ReflTransGen.cases_head hle with he | ⟨_, hl, -⟩
    · exact he ▸ .refl _
    · cases hl

/-- A computation that another one goes on to has the same outcomes. -/
theorem Passes.ends_iff {d : Comp ρ} {s₁ : Store} (h : (load c s).Passes (load d s₁)) :
    c.Ends s r s' ↔ d.Ends s₁ r s' :=
  ⟨fun hc => (h.to_end hc).ends rfl, fun hd => (h.trans (passes_done hd)).ends rfl⟩

/-! ### Journals on the way -/

theorem Passes.journal {m m' : Machine ρ} (h : m.Passes m') :
    m.store.journal <:+ m'.store.journal := by
  refine h.store (P := fun s => m.store.journal <:+ s.journal) ?_ ?_ ?_ (List.suffix_refl _)
  · exact fun a s hs => hs.trans (Store.journal_law.act a s)
  · exact fun q s c s' hq hs => hs.trans (Store.journal_start hq)
  · intro q r s hs
    rwa [Request.journal_finish]

end Machine

namespace Comp

variable {c : Comp ρ} {f : ρ → Comp σ} {s : Store} {r : Except Error ρ} {events : List Event}

/-- Some state that the run of a computation passes has this journal. -/
def Records (c : Comp ρ) (s : Store) (events : List Event) : Prop :=
  ∃ m, (Machine.load c s).Passes m ∧ m.store.journal = events

theorem records_bind : (c >>= f).Records s events ↔
    c.Records s events ∨ ∃ a s₁, c.Ends s (.ok a) s₁ ∧ (f a).Records s₁ events := by
  constructor
  · rintro ⟨m, hp, rfl⟩
    rcases Machine.passes_bind.mp hp with ⟨m', hp', rfl⟩ | ⟨a, s₁, ha, hp'⟩
    · exact .inl ⟨m', hp', rfl⟩
    · exact .inr ⟨a, s₁, ha, m, hp', rfl⟩
  · rintro (⟨m', hp', rfl⟩ | ⟨a, s₁, ha, m, hp', rfl⟩)
    · exact ⟨m'.graft f, Machine.passes_bind.mpr (.inl ⟨m', hp', rfl⟩), rfl⟩
    · exact ⟨m, Machine.passes_bind.mpr (.inr ⟨a, s₁, ha, hp'⟩), rfl⟩

/-- A computation that ends in the store it began with records nothing. -/
theorem Ends.records (h : c.Ends s r s) (hr : c.Records s events) : events = s.journal := by
  obtain ⟨m, hp, rfl⟩ := hr
  exact (hp.to_end h).journal.eq_of_length_le hp.journal.length_le

/-- Two computations run in step: they record the same, and they come to the same stores. -/
structure InStep (c : Comp ρ) (d : Comp σ) (s : Store) : Prop where
  records : ∀ events, c.Records s events ↔ d.Records s events
  ends : ∀ s', (∃ r, c.Ends s r s') ↔ ∃ r, d.Ends s r s'

theorem InStep.symm {d : Comp σ} (h : c.InStep d s) : d.InStep c s :=
  ⟨fun events => (h.records events).symm, fun s' => (h.ends s').symm⟩

theorem InStep.trans {τ : Type} {d : Comp σ} {e : Comp τ} (h : c.InStep d s) (h' : d.InStep e s) :
    c.InStep e s :=
  ⟨fun events => (h.records events).trans (h'.records events),
    fun s' => (h.ends s').trans (h'.ends s')⟩

/-- What follows without any effect leaves a computation in step with itself. -/
theorem InStep.bind (hf : ∀ a s₁, c.Ends s (.ok a) s₁ → ∃ r, (f a).Ends s₁ r s₁) :
    (c >>= f).InStep c s where
  records events := by
    refine records_bind.trans (or_iff_left_of_imp ?_)
    rintro ⟨a, s₁, ha, hrec⟩
    obtain ⟨r, hr⟩ := hf a s₁ ha
    rw [hr.records hrec]
    exact ⟨_, Machine.passes_done ha, rfl⟩
  ends s' := by
    constructor
    · rintro ⟨r, hr⟩
      rcases ends_bind_iff.mp hr with ⟨a, s₁, ha, hr⟩ | ⟨e, he, -⟩
      · obtain ⟨r', hr'⟩ := hf a s₁ ha
        obtain ⟨-, rfl⟩ := hr.unique hr'
        exact ⟨_, ha⟩
      · exact ⟨_, he⟩
    · rintro ⟨r, hr⟩
      cases r with
      | ok a =>
        obtain ⟨r', hr'⟩ := hf a s' hr
        exact ⟨r', hr.bind hr'⟩
      | error e => exact ⟨_, hr.bind_error⟩

end Comp

end NixKernel
