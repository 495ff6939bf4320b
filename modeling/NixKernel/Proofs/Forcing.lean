import NixKernel.Proofs.Reachable

/-!
The life of a thunk. A thunk is forced by one activation at a time, it is in the forcing state
exactly as long as an activation of it is on the stack, and once it has a value it keeps that value
and is never run again, in the same run or in a later one.
-/

namespace NixKernel

variable {ρ σ : Type} {s s' : Store}

/-! ### What a step does to the thunks -/

/-- Binding the formals of a pattern adds only thunks of defaults that have not been forced. -/
theorem Store.get?_of_bindFormals {inner : Env} {args : Attrs Value} (fs : List Formal)
    (acc : Attrs Value × Heap .thunk Thunk) {t : Addr .thunk} {c : Thunk}
    (h : (bindFormals inner args fs acc).2.get? t = some c) :
    acc.2.get? t = some c ∨
      ∃ env body, c = .unforced env body ∧ body ∈ fs.filterMap FormalOf.fallback := by
  induction fs generalizing acc with
  | nil => exact .inl h
  | cons f fs ih =>
    obtain ⟨vars, thunks⟩ := acc
    have htail : ∀ {body : Expr}, body ∈ fs.filterMap FormalOf.fallback →
        body ∈ (f :: fs).filterMap FormalOf.fallback := fun hb => by
      obtain ⟨g, hg, hb⟩ := List.mem_filterMap.mp hb
      exact List.mem_filterMap.mpr ⟨g, List.mem_cons_of_mem _ hg, hb⟩
    have hnext : ∀ acc', (bindFormals inner args fs acc').2.get? t = some c →
        acc'.2.get? t = some c ∨
          ∃ env body, c = .unforced env body ∧ body ∈ (f :: fs).filterMap FormalOf.fallback :=
      fun acc' h => (ih acc' h).imp_right fun ⟨env, body, hc, hb⟩ => ⟨env, body, hc, htail hb⟩
    unfold bindFormals at h
    split at h
    · rename_i v _
      exact hnext (vars.insert f.name v, thunks) h
    · rename_i d _ hd
      rcases hnext _ h with h' | h'
      · rw [Heap.get?_push] at h'
        split at h'
        · exact .inr ⟨_, d, (Option.some.inj h').symm,
            List.mem_filterMap.mpr ⟨f, List.mem_cons_self, hd⟩⟩
        · exact .inl h'
      · exact .inr h'
    · exact hnext _ h

/-- The expressions that an action delays. -/
def Action.delayed : Action → List Expr
  | .newThunk _ body => [body]
  | .openScope _ formals _ _ => formals.filterMap FormalOf.fallback
  | _ => []

/-- The thunks that an action adds have not been forced. -/
theorem Store.get?_of_perform {a : Action} {t : Addr .thunk} {c : Thunk}
    (h : (a.perform s).2.thunks.get? t = some c) :
    s.thunks.get? t = some c ∨ ∃ env body, c = .unforced env body ∧ body ∈ a.delayed := by
  cases a with
  | newThunk env body =>
    simp only [Action.perform, newThunk, Heap.get?_push] at h
    split at h
    · exact .inr ⟨env, body, (Option.some.inj h).symm, List.mem_singleton.mpr rfl⟩
    · exact .inl h
  | openScope env formals whole arg => exact get?_of_bindFormals formals (.empty, s.thunks) h
  | _ => exact .inl h

/-- Forcing a thunk that has not been forced marks it and enters its thread; no other request
touches the thunks or the threads when it starts. -/
theorem Request.start_cases {q : Request} {c : Comp q.Answer} (h : q.start s = .run c s') :
    (∃ t env body, q = .force t ∧ s.thunks.get? t = some (.unforced env body) ∧
      s.atLimit env = false ∧ s'.thunks = s.thunks.modify t (fun _ => .forcing env body) ∧
      s'.threads = (s.enter env).threads) ∨
    ((∀ t, q ≠ .force t) ∧ s'.thunks = s.thunks ∧ s'.threads = s.threads) := by
  cases q with
  | force t =>
    obtain ⟨env, body, ht, hl, -, rfl⟩ := Store.startForce_run h
    refine .inl ⟨t, env, body, rfl, ht, hl, ?_, rfl⟩
    rw [Store.enter, Store.changeDepth_eq]
    rfl
  | entry b =>
    obtain ⟨d, e, -, -, -, rfl⟩ := Store.startEntry_run h
    exact .inr ⟨fun t ht => (by cases ht), rfl, rfl⟩
  | assemble b =>
    cases h
    exact .inr ⟨fun t ht => (by cases ht), rfl, rfl⟩
  | _ =>
    cases h
    exact .inr ⟨fun t ht => (by cases ht), rfl, rfl⟩

/-- The end of a forced thunk unmarks it and leaves its thread; no other request touches the thunks
or the threads when it ends. -/
theorem Request.finish_cases (q : Request) (r : Except Error q.Answer) (s : Store) :
    (∃ t env body c, q = .force t ∧ s.thunks.get? t = some (.forcing env body) ∧
      ((∃ v, c = .forced v) ∨ c = .unforced env body) ∧
      (q.finish r s).thunks = s.thunks.modify t (fun _ => c) ∧
      (q.finish r s).threads = (s.leave env).threads) ∨
    ((∀ t, q = .force t → ∀ env body, s.thunks.get? t ≠ some (.forcing env body)) ∧
      (q.finish r s).thunks = s.thunks ∧ (q.finish r s).threads = s.threads) := by
  cases q with
  | force t =>
    by_cases ht : ∃ env body, s.thunks.get? t = some (.forcing env body)
    · obtain ⟨env, body, ht⟩ := ht
      have hthunks : ∀ c, ((s.leave env).setThunk t c).thunks = s.thunks.modify t fun _ => c := by
        intro c
        rw [Store.leave, Store.changeDepth_eq]
        rfl
      rw [Request.finish, Store.finishForce_eq ht]
      cases r with
      | ok v => exact .inl ⟨t, env, body, _, rfl, ht, .inl ⟨v, rfl⟩, hthunks _, rfl⟩
      | error e => exact .inl ⟨t, env, body, _, rfl, ht, .inr rfl, hthunks _, rfl⟩
    · have hno : ∀ env body, s.thunks.get? t ≠ some (.forcing env body) :=
        fun env body h => ht ⟨env, body, h⟩
      have hs : Request.finish (.force t) r s = s := by
        simp only [Request.finish, Store.finishForce]
      refine .inr ⟨fun t' ht' => ?_, by rw [hs], by rw [hs]⟩
      cases ht'
      exact hno
  | entry b => cases r <;> exact .inr ⟨fun t ht => (by cases ht), rfl, rfl⟩
  | assemble b => cases r <;> exact .inr ⟨fun t ht => (by cases ht), rfl, rfl⟩
  | _ => exact .inr ⟨fun t ht => (by cases ht), rfl, rfl⟩

/-! ### Between runs no thunk is being forced -/

/-- The thunk is being forced. -/
def Store.Forcing (s : Store) (t : Addr .thunk) : Prop :=
  ∃ env body, s.thunks.get? t = some (.forcing env body)

/-- A thunk that is being forced after a run was being forced before it, in the same scope and for
the same body. -/
theorem Store.released_law : RunLaw fun s s' => ∀ t env body,
    s'.thunks.get? t = some (.forcing env body) → s.thunks.get? t = some (.forcing env body) where
  refl _ _ _ _ h := h
  trans h h' t env body ht := h t env body (h' t env body ht)
  act a s t env body h := by
    rcases get?_of_perform h with h | ⟨env', body', h, -⟩
    · exact h
    · cases h
  run := by
    intro q s s₁ s₂ c r hq hr ih t env body ht
    have hfinish : s₂.thunks.get? t = some (.forcing env body) ∧ q ≠ .force t := by
      rcases q.finish_cases r s₂ with ⟨t', env', body', d, rfl, ht', hd, he, -⟩ | ⟨hno, he, -⟩
      · rw [he, Heap.get?_modify] at ht
        split at ht
        · subst t'
          rw [ht', Option.map_some] at ht
          rcases hd with ⟨v, rfl⟩ | rfl <;> cases ht
        · rename_i hne
          exact ⟨ht, fun h => hne (Request.force.inj h)⟩
      · rw [he] at ht
        exact ⟨ht, fun h => hno t h env body ht⟩
    have h₁ := ih t env body hfinish.1
    rcases Request.start_cases hq with ⟨t', env', body', rfl, -, -, he, -⟩ | ⟨-, he, -⟩
    · have hne : t' ≠ t := fun h => hfinish.2 (h ▸ rfl)
      rwa [he, Heap.get?_modify, if_neg hne] at h₁
    · rwa [he] at h₁

/-- What happens at the top level adds no thunk that is being forced and takes no value away. -/
theorem Store.Proceeds.thunks (h : s.Proceeds s') :
    s'.thunks = s.thunks ∨ ∃ (α : Type) (c : Comp α) (r : Except Error α), c.Ends s r s' := by
  cases h with
  | run h => exact .inr ⟨_, _, _, h⟩
  | _ => exact .inl rfl

theorem Store.Reachable.not_forcing (h : s.Reachable) (t : Addr .thunk) : ¬ s.Forcing t := by
  refine h.induction (P := fun s => ∀ t, ¬ s.Forcing t) ?_ ?_ t
  · rintro t ⟨env, body, ht⟩
    simp [initial, Heap.get?, Heap.empty] at ht
  · rintro s s' ih hp t ⟨env, body, ht⟩
    rcases hp.thunks with he | ⟨α, c, r, hr⟩
    · exact ih t ⟨env, body, he ▸ ht⟩
    · exact ih t ⟨env, body, released_law.ends hr t env body ht⟩

/-! ### Memoised values -/

/-- No thunk has a thunk for its value. -/
def Store.Flat (s : Store) : Prop := ∀ t v, s.thunks.get? t = some (.forced v) → v.isWhnf

theorem Store.Forced.isWhnf {v w : Value} (h : s.Forced v w) (hs : s.Flat) : w.isWhnf := by
  cases v with
  | thunk t => exact hs t w (h.thunk t rfl)
  | _ => rw [← h.resolve]; rfl

theorem Store.Flat.perform (hs : s.Flat) (a : Action) : (a.perform s).2.Flat := by
  intro t v h
  rcases get?_of_perform h with h | ⟨env, body, h, -⟩
  · exact hs t v h
  · cases h

theorem Store.Flat.start (hs : s.Flat) {q : Request} {c : Comp q.Answer}
    (hq : q.start s = .run c s') : s'.Flat := by
  intro t v h
  rcases Request.start_cases hq with ⟨t', env, body, -, -, -, he, -⟩ | ⟨-, he, -⟩ <;> rw [he] at h
  · rw [Heap.get?_modify] at h
    split at h
    · obtain ⟨_, -, h⟩ := Option.map_eq_some_iff.mp h
      cases h
    · exact hs t v h
  · exact hs t v h

/-- A run leaves no thunk as the value of a thunk: what a body yields is forced in its turn. -/
theorem Store.flat_law : RunLaw fun s s' => s.Flat → s'.Flat where
  refl _ h := h
  trans h h' hs := h' (h hs)
  act a _ hs := hs.perform a
  run := by
    intro q s s₁ s₂ c r hq hr ih hs
    have hs₂ := ih (hs.start hq)
    cases q with
    | force t =>
      obtain ⟨env, body, -, -, rfl, rfl⟩ := startForce_run hq
      intro t' w h
      simp only [Request.finish, finishForce] at h
      split at h
      · rw [leave, changeDepth_eq] at h
        -- a failure leaves the thunk unforced; a success has forced what the body yields
        cases r with
        | error e =>
          simp only [setThunk, Heap.get?_modify] at h
          split at h
          · obtain ⟨_, -, h⟩ := Option.map_eq_some_iff.mp h
            cases h
          · exact hs₂ t' w h
        | ok v =>
          simp only [setThunk, Heap.get?_modify] at h
          split at h
          · obtain ⟨_, -, h⟩ := Option.map_eq_some_iff.mp h
            cases h
            obtain ⟨x, s₃, -, hx⟩ := Comp.ends_bind_ok.mp hr
            exact (Comp.force_forced hx).isWhnf hs₂
          · exact hs₂ t' w h
      · exact hs₂ t' w h
    | entry b => cases r <;> exact hs₂
    | assemble b => cases r <;> exact hs₂
    | _ => exact hs₂

theorem Store.Reachable.flat (h : s.Reachable) : s.Flat := by
  refine h.induction ?_ ?_
  · intro t v ht
    simp [initial, Heap.get?, Heap.empty] at ht
  · intro s s' ih hp
    rcases hp.thunks with he | ⟨α, c, r, hr⟩
    · exact fun t v ht => ih t v (he ▸ ht)
    · exact flat_law.ends hr ih

namespace Machine

theorem Reachable.flat {m : Machine ρ} (h : m.Reachable) : m.store.Flat := by
  obtain ⟨c, s, hs, hp⟩ := h
  refine hp.of_load (Q := fun _ _ _ s => s.Flat) ⟨?_, ?_, ?_⟩ hs.flat
  · exact fun h => h.perform _
  · exact fun h hr => Store.flat_law.ends (Comp.ends_request.mpr hr) h
  · exact fun h hq => h.start hq

/-! ### Values are kept -/

/-- A memoised value is kept in every state that follows. -/
theorem Precedes.forced {m : Machine ρ} {m' : Machine σ} (h : m.Precedes m') {t : Addr .thunk}
    {v : Value} (ht : m.store.thunks.get? t = some (.forced v)) :
    m'.store.thunks.get? t = some (.forced v) := by
  refine h.store (P := fun s => s.thunks.get? t = some (.forced v)) ?_ ?_ ?_ ?_ ht
  · exact fun a s h => Store.get?_thunks_perform a h
  · intro q s c s' hq h
    rcases Request.start_cases hq with ⟨t', env, body, -, ht', -, he, -⟩ | ⟨-, he, -⟩ <;> rw [he]
    · have hne : t' ≠ t := by rintro rfl; rw [h] at ht'; cases ht'
      rw [Heap.get?_modify, if_neg hne, h]
    · exact h
  · intro q r s h
    rcases q.finish_cases r s with ⟨t', env, body, d, -, ht', -, he, -⟩ | ⟨-, he, -⟩ <;> rw [he]
    · have hne : t' ≠ t := by rintro rfl; rw [h] at ht'; cases ht'
      rw [Heap.get?_modify, if_neg hne, h]
    · exact h
  · intro s s' hp h
    rcases hp.thunks with he | ⟨α, c, r, hr⟩
    · rw [he, h]
    · exact (Store.later_law.ends hr).forced h

end Machine

/-! ### Activations -/

/-- One for a thunk that is being forced, none for any other. -/
def Thunk.marks : Option Thunk → Nat
  | some (.forcing ..) => 1
  | _ => 0

/-- One for a request to force a thunk, none for any other. -/
def Request.activates (t : Addr .thunk) : Request → Nat
  | .force t' => if t' = t then 1 else 0
  | _ => 0

/-- The number of activations of a thunk that are running. -/
def Stack.activations (t : Addr .thunk) : {α : Type} → Stack ρ α → Nat
  | _, .nil => 0
  | _, .cons q _ rest => q.activates t + rest.activations t

theorem Store.marks_eq_one {t : Addr .thunk} :
    Thunk.marks (s.thunks.get? t) = 1 ↔ s.Forcing t := by
  unfold Store.Forcing
  constructor
  · intro h
    unfold Thunk.marks at h
    split at h
    · exact ⟨_, _, ‹_›⟩
    · cases h
  · rintro ⟨env, body, h⟩
    rw [h]
    rfl

theorem Request.activates_of_ne {q : Request} {t : Addr .thunk} (h : q ≠ .force t) :
    q.activates t = 0 := by
  cases q with
  | force t' => exact if_neg fun he => h (congrArg Request.force he)
  | _ => rfl

/-- An action marks no thunk. -/
theorem Action.marks_perform (a : Action) (s : Store) (t : Addr .thunk) :
    Thunk.marks ((a.perform s).2.thunks.get? t) = Thunk.marks (s.thunks.get? t) := by
  cases h : s.thunks.get? t with
  | some c => rw [Store.get?_thunks_perform a h]
  | none =>
    cases h' : (a.perform s).2.thunks.get? t with
    | none => rfl
    | some c =>
      rcases Store.get?_of_perform h' with h'' | ⟨env, body, rfl, -⟩
      · rw [h] at h''
        cases h''
      · rfl

/-- A request that is started marks the thunk that it forces. -/
theorem Request.marks_start {q : Request} {c : Comp q.Answer} (h : q.start s = .run c s')
    (t : Addr .thunk) : Thunk.marks (s'.thunks.get? t) =
      q.activates t + Thunk.marks (s.thunks.get? t) := by
  rcases Request.start_cases h with ⟨t', env, body, rfl, ht', -, he, -⟩ | ⟨hno, he, -⟩ <;> rw [he]
  · rw [Heap.get?_modify]
    simp only [Request.activates]
    split
    · subst t'
      rw [ht']
      rfl
    · rw [Nat.zero_add]
  · rw [Request.activates_of_ne (hno t), Nat.zero_add]

/-- A request that ends takes its mark away. -/
theorem Request.marks_finish (q : Request) (r : Except Error q.Answer) (s : Store)
    (t : Addr .thunk) (h : q.activates t ≤ Thunk.marks (s.thunks.get? t)) :
    Thunk.marks (s.thunks.get? t) =
      q.activates t + Thunk.marks ((q.finish r s).thunks.get? t) := by
  rcases q.finish_cases r s with ⟨t', env, body, d, rfl, ht', hd, he, -⟩ | ⟨hno, he, -⟩ <;> rw [he]
  · rw [Heap.get?_modify]
    simp only [Request.activates]
    split
    · subst t'
      rw [ht']
      rcases hd with ⟨v, rfl⟩ | rfl <;> rfl
    · rw [Nat.zero_add]
  · by_cases hq : q = .force t
    · subst hq
      have hm : Thunk.marks (s.thunks.get? t) = 1 := by
        have hle : Thunk.marks (s.thunks.get? t) ≤ 1 := by unfold Thunk.marks; split <;> omega
        simp only [Request.activates, if_true] at h
        omega
      obtain ⟨env, body, hf⟩ := Store.marks_eq_one.mp hm
      exact absurd hf (hno t rfl env body)
    · rw [Request.activates_of_ne hq, Nat.zero_add]

namespace Machine

/-- A thunk is marked as long as there is an activation of it, and there is never a second one. -/
theorem Reachable.activations {m : Machine ρ} (h : m.Reachable) (t : Addr .thunk) :
    m.stack.activations t = Thunk.marks (m.store.thunks.get? t) := by
  obtain ⟨c, s, hs, hp⟩ := h
  have h₀ : Thunk.marks (s.thunks.get? t) = 0 := by
    have hle : Thunk.marks (s.thunks.get? t) ≤ 1 := by unfold Thunk.marks; split <;> omega
    have hne : Thunk.marks (s.thunks.get? t) ≠ 1 := fun h =>
      hs.not_forcing t (Store.marks_eq_one.mp h)
    omega
  induction hp with
  | refl => exact h₀.symm
  | tail _ hl ih =>
    revert ih
    refine leads_cases (P := fun m m' =>
      m.stack.activations t = Thunk.marks (m.store.thunks.get? t) →
      m'.stack.activations t = Thunk.marks (m'.store.thunks.get? t)) hl ?_ ?_ ?_ ?_
    · intro α q r k st s ih
      have hf := q.marks_finish r s t (by rw [← ih]; exact Nat.le_add_right _ _)
      simp only [Stack.activations] at ih ⊢
      omega
    · intro α a k st s ih
      exact ih.trans (a.marks_perform s t).symm
    · exact fun _ _ _ _ _ _ ih => ih
    · intro α q k st s c s' hq ih
      simp only [Stack.activations]
      rw [ih, Request.marks_start hq]

/-! ### Starts and completions -/

/-- The next step starts the body of a thunk. -/
def Starts (m : Machine ρ) (t : Addr .thunk) : Prop :=
  ∃ (k : Except Error Value → Comp m.α) (c : Comp Value) (s' : Store),
    m.control = .ask (.force t) k ∧ (Request.force t).start m.store = .run c s'

/-- The next step ends an activation of a thunk with a value. -/
def Completes (m : Machine ρ) (t : Addr .thunk) : Prop :=
  ∃ (α : Type) (k : Except Error Value → Comp α) (rest : Stack ρ α) (v : Value),
    m = ⟨.done (.ok v), .cons (.force t) k rest, m.store⟩

theorem Starts.unforced {m : Machine ρ} {t : Addr .thunk} (h : m.Starts t) :
    ∃ env body, m.store.thunks.get? t = some (.unforced env body) := by
  obtain ⟨k, c, s', -, hs⟩ := h
  obtain ⟨env, body, ht, -⟩ := Store.startForce_run hs
  exact ⟨env, body, ht⟩

theorem Completes.forcing {m : Machine ρ} (hm : m.Reachable) {t : Addr .thunk}
    (h : m.Completes t) : m.store.Forcing t := by
  obtain ⟨α, k, rest, v, he⟩ := h
  have ha := hm.activations t
  rw [he] at ha
  refine Store.marks_eq_one.mp ?_
  have hle : Thunk.marks (m.store.thunks.get? t) ≤ 1 := by unfold Thunk.marks; split <;> omega
  simp only [Stack.activations, Request.activates, if_true] at ha
  omega

theorem Completes.forced {m m' : Machine ρ} (hm : m.Reachable) {t : Addr .thunk}
    (h : m.Completes t) (hl : m.Leads m') :
    ∃ v, m'.store.thunks.get? t = some (.forced v) := by
  obtain ⟨env, body, ht⟩ := h.forcing hm
  obtain ⟨α, k, rest, v, he⟩ := h
  rw [he] at hl
  cases hl
  refine ⟨v, ?_⟩
  rw [Request.finish, Store.finishForce_eq ht, Store.leave, Store.changeDepth_eq]
  simp only [Store.setThunk, Heap.get?_modify, if_true, ht, Option.map_some]

/-- A thunk that has a value is neither started nor completed. -/
theorem Reachable.idle_of_forced {m : Machine ρ} (hm : m.Reachable) {t : Addr .thunk} {v : Value}
    (ht : m.store.thunks.get? t = some (.forced v)) : ¬ m.Starts t ∧ ¬ m.Completes t := by
  constructor
  · intro h
    obtain ⟨env, body, ht'⟩ := h.unforced
    rw [ht] at ht'
    cases ht'
  · intro h
    obtain ⟨env, body, ht'⟩ := h.forcing hm
    rw [ht] at ht'
    cases ht'

end Machine

/-! ### The life of a thunk -/

/-- **The life of a thunk.** In every state that can come about: whatever is run next, and whether
it succeeds or fails, leaves every thunk as it was or forced, and none being forced that was not; a
memoised value is not a thunk, is the same in all states that follow, and its thunk is never started
again; a thunk is started only if it has not been forced and no activation of it is running, and
once an activation has completed no other one is started or completes; what forcing yields is not a
thunk, and forcing again yields it again without any effect. -/
theorem thunk_life_cycle {m : Machine ρ} (hm : m.Reachable) :
    (∀ {α : Type} (o : Comp α) (r : Except Error α) (s' : Store), o.Ends m.store r s' →
      (∀ t c, m.store.thunks.get? t = some c → ∃ c', s'.thunks.get? t = some c' ∧ c.Moves c') ∧
      ∀ t env body, s'.thunks.get? t = some (.forcing env body) →
        m.store.thunks.get? t = some (.forcing env body)) ∧
    (∀ t v, m.store.thunks.get? t = some (.forced v) → v.isWhnf ∧
      ∀ {σ : Type} (m' : Machine σ), m.Precedes m' →
        m'.store.thunks.get? t = some (.forced v) ∧ ¬ m'.Starts t) ∧
    (∀ t, m.Starts t → m.stack.activations t = 0) ∧
    (∀ t m₁, m.Completes t → m.Leads m₁ → ∀ {σ : Type} (m' : Machine σ), m₁.Precedes m' →
      ¬ m'.Starts t ∧ ¬ m'.Completes t) ∧
    (∀ v w s', (Comp.force v).Ends m.store (.ok w) s' → w.isWhnf ∧
      ∀ s'', s'.Later s'' → (Comp.force v).Ends s'' (.ok w) s'') ∧
    ∀ v n s', (Comp.typeOf v).Ends m.store (.ok n) s' → n ≠ .thunk := by
  -- used for the operation that forces and for the one that asks for the type
  have hforce : ∀ v w s', (Comp.force v).Ends m.store (.ok w) s' → s'.Forced v w ∧ w.isWhnf := by
    intro v w s' h
    have hf := Comp.force_forced h
    exact ⟨hf, hf.isWhnf (Store.flat_law.ends h hm.flat)⟩
  refine ⟨fun o r s' h => ⟨fun t c => (Store.later_law.ends h).thunk,
    Store.released_law.ends h⟩, fun t v ht => ⟨hm.flat t v ht, fun m' hp => ?_⟩, fun t h => ?_,
    fun t m₁ hc hl σ m' hp => ?_, fun v w s' h => ?_, fun v n s' h => ?_⟩
  · have hf := hp.forced ht
    exact ⟨hf, ((hp.reachable hm).idle_of_forced hf).1⟩
  · obtain ⟨env, body, ht⟩ := h.unforced
    rw [hm.activations, ht]
    rfl
  · obtain ⟨v, hv⟩ := hc.forced hm hl
    have hm₁ : m₁.Reachable := (Machine.Precedes.refl m |>.step hl).reachable hm
    exact (hp.reachable hm₁).idle_of_forced (hp.forced hv)
  · obtain ⟨hf, hw⟩ := hforce v w s' h
    exact ⟨hw, fun s'' hs => (hf.mono hs).ends⟩
  · obtain ⟨w, s₁, hw, hn⟩ := Comp.ends_bind_ok.mp h
    obtain ⟨he, -⟩ := Comp.ends_pure.mp hn
    cases he
    have hwhnf := (hforce v w s₁ hw).2
    cases w with
    | thunk t => cases hwhnf
    | _ => intro hn; cases hn

/-- A thunk whose body is a number: in the run that forces it there is a state in which its
activation completes, and after that state it is not run again. -/
theorem thunk_life_cycle_number : ∃ m m₁ : Machine Value, m.Reachable ∧ m.Completes ⟨0⟩ ∧
    m.Leads m₁ ∧ ∀ m' : Machine Value, m₁.Precedes m' → ¬ m'.Starts ⟨0⟩ ∧ ¬ m'.Completes ⟨0⟩ := by
  let s := (Store.initial.newThunk .empty (.lit (.int 1))).2
  have hs : s.Reachable :=
    Store.Reachable.step (.refl _) (.run (Comp.perform_ends (.newThunk .empty _) _))
  obtain ⟨m, m₁, hp, hc, hl⟩ : ∃ m m₁, (Machine.load (Comp.force (.thunk ⟨0⟩)) s).Passes m ∧
      m.Completes ⟨0⟩ ∧ m.Leads m₁ :=
    ⟨_, _, Machine.passes_of_after 3 rfl, ⟨_, _, _, _, rfl⟩, rfl⟩
  have hm : m.Reachable := ⟨_, s, hs, hp⟩
  exact ⟨m, m₁, hm, hc, hl, fun m' h => (thunk_life_cycle hm).2.2.2.1 ⟨0⟩ m₁ hc hl m' h⟩

end NixKernel
