import NixKernel.Proofs.Forcing

/-!
The depth of threads. The depth of a thread is the number of thunks that are being forced in its
scopes; it never exceeds the limit that was fixed when the thread got its first scope, every
computation leaves it as it was, and it is zero whenever nothing is being run.
-/

namespace NixKernel

variable {ρ : Type} {s s' : Store}

/-! ### Counting cells -/

theorem countP_modify {α : Type} (p : α → Bool) (f : α → α) {l : List α} {i : Nat} {x : α}
    (h : l[i]? = some x) : (l.modify i f).countP p + (if p x then 1 else 0) =
      l.countP p + if p (f x) then 1 else 0 := by
  induction l generalizing i with
  | nil => cases h
  | cons y l ih =>
    cases i with
    | zero =>
      cases h
      simp only [List.modify_zero_cons, List.countP_cons]
      omega
    | succ i =>
      simp only [List.modify_succ_cons, List.countP_cons]
      have := ih h
      omega

namespace Heap

variable {τ : CellSort} {α : Type}

/-- The number of cells with a property. -/
def count (p : α → Bool) (h : Heap τ α) : Nat := h.cells.countP p

theorem count_push (p : α → Bool) (h : Heap τ α) (x : α) :
    (h.push x).count p = h.count p + if p x then 1 else 0 := by
  simp [count, push, Array.countP_push]

/-- A cell that is replaced counts for what it has become, and no more for what it was. -/
theorem count_modify (p : α → Bool) {h : Heap τ α} {a : Addr τ} {x : α} (f : α → α)
    (ha : h.get? a = some x) : (h.modify a f).count p + (if p x then 1 else 0) =
      h.count p + if p (f x) then 1 else 0 := by
  simp only [count, modify, ← Array.countP_toList, Array.toList_modify]
  exact countP_modify p f (by rwa [get?, ← Array.getElem?_toList] at ha)

end Heap

/-! ### The thunks of a thread -/

/-- The thunk is being forced in a scope of the thread. -/
def Thunk.isForcingOn (a : Addr .thread) : Thunk → Bool
  | .forcing env _ => env.thread = some a
  | _ => false

theorem Thunk.isForcingOn_forcing (a : Addr .thread) (env : Env) (body : Expr) :
    (Thunk.forcing env body).isForcingOn a = decide (env.thread = some a) := rfl

/-- The number of thunks that are being forced in the scopes of a thread. -/
def Store.forcingOn (s : Store) (a : Addr .thread) : Nat := s.thunks.count (Thunk.isForcingOn a)

theorem Store.count_bindFormals (a : Addr .thread) (inner : Env) (args : Attrs Value)
    (fs : List Formal) (acc : Attrs Value × Heap .thunk Thunk) :
    (bindFormals inner args fs acc).2.count (Thunk.isForcingOn a) =
      acc.2.count (Thunk.isForcingOn a) := by
  induction fs generalizing acc with
  | nil => rfl
  | cons f fs ih =>
    obtain ⟨vars, thunks⟩ := acc
    unfold bindFormals
    split
    · exact ih _
    · exact (ih _).trans (Heap.count_push _ _ _)
    · exact ih _

theorem Action.forcingOn_perform (x : Action) (s : Store) (a : Addr .thread) :
    (x.perform s).2.forcingOn a = s.forcingOn a := by
  cases x with
  | newThunk env body => exact Heap.count_push _ _ _
  | openScope env formals whole arg => exact Store.count_bindFormals a _ _ formals _
  | _ => rfl

/-! ### Depth and count -/

/-- Every thread is as deep as it has thunks being forced, and within its limit. -/
def Store.Counted (s : Store) : Prop := ∀ a th, s.threads.get? a = some th →
  th.depth = s.forcingOn a ∧ th.depth ≤ th.limit

theorem Store.get?_changeDepth {env : Env} {f : Nat → Nat} {a : Addr .thread} {th : Thread}
    (h : (s.changeDepth env f).threads.get? a = some th) :
    ∃ th₀, s.threads.get? a = some th₀ ∧
      th = if env.thread = some a then { th₀ with depth := f th₀.depth } else th₀ := by
  unfold changeDepth at h
  split at h
  · rename_i a' ha'
    simp only [Heap.get?_modify] at h
    simp only [ha', Option.some.injEq]
    split at h
    · obtain ⟨th₀, h₀, rfl⟩ := Option.map_eq_some_iff.mp h
      exact ⟨th₀, h₀, (if_pos ‹_›).symm⟩
    · exact ⟨th, h, (if_neg ‹_›).symm⟩
  · rename_i hn
    exact ⟨th, h, by simp [hn]⟩

/-- A thunk is started only below the limit. -/
theorem Store.Counted.start (hs : s.Counted) {q : Request} {c : Comp q.Answer}
    (hq : q.start s = .run c s') : s'.Counted := by
  intro a th h
  rcases Request.start_cases hq with ⟨t, env, body, -, ht, hl, he, hth⟩ | ⟨-, he, hth⟩
  · rw [hth, enter] at h
    obtain ⟨th₀, h₀, rfl⟩ := get?_changeDepth h
    obtain ⟨hd, hle⟩ := hs a th₀ h₀
    have hcount := Heap.count_modify (Thunk.isForcingOn a) (fun _ => .forcing env body) ht
    simp only [Thunk.isForcingOn, Bool.false_eq_true, if_false, decide_eq_true_eq] at hcount
    rw [forcingOn, he, ← Nat.add_zero (Heap.count _ _), hcount]
    split
    · rename_i hthread
      have hlt : ¬ th₀.limit ≤ th₀.depth := by
        simpa [atLimit, thread?, hthread, h₀] using hl
      exact ⟨congrArg (· + 1) hd, Nat.lt_of_not_le hlt⟩
    · exact ⟨hd, hle⟩
  · rw [hth] at h
    rw [forcingOn, he]
    exact hs a th h

theorem Store.Counted.finish (hs : s.Counted) (q : Request) (r : Except Error q.Answer) :
    (q.finish r s).Counted := by
  intro a th h
  rcases q.finish_cases r s with ⟨t, env, body, d, -, ht, hd, he, hth⟩ | ⟨-, he, hth⟩
  · rw [hth, leave] at h
    obtain ⟨th₀, h₀, rfl⟩ := get?_changeDepth h
    obtain ⟨hdepth, hle⟩ := hs a th₀ h₀
    have hcount := Heap.count_modify (Thunk.isForcingOn a) (fun _ => d) ht
    have hnot : Thunk.isForcingOn a d = false := by
      rcases hd with ⟨v, rfl⟩ | rfl <;> rfl
    simp only [hnot, Thunk.isForcingOn_forcing, Bool.false_eq_true, if_false,
      decide_eq_true_eq] at hcount
    rw [forcingOn, he]
    rw [forcingOn] at hdepth
    split
    · rename_i hthread
      rw [if_pos hthread] at hcount
      refine ⟨?_, Nat.le_trans (Nat.sub_le _ _) hle⟩
      show th₀.depth - 1 = _
      omega
    · rename_i hthread
      rw [if_neg hthread] at hcount
      exact ⟨by omega, hle⟩
  · rw [hth] at h
    rw [forcingOn, he]
    exact hs a th h

theorem Store.Counted.perform (hs : s.Counted) (x : Action) : (x.perform s).2.Counted := by
  intro a th h
  rw [(Later.perform x s).threads] at h
  rw [x.forcingOn_perform]
  exact hs a th h

/-! ### Between runs -/

/-- Nothing is being forced for a thread of a store that can come about. -/
theorem Store.Reachable.forcingOn (h : s.Reachable) (a : Addr .thread) : s.forcingOn a = 0 := by
  rw [Store.forcingOn, Heap.count, Array.countP_eq_zero]
  intro c hc hf
  obtain ⟨i, hi, rfl⟩ := Array.mem_iff_getElem.mp hc
  cases hcell : s.thunks.cells[i] with
  | forcing env body =>
    exact h.not_forcing ⟨i⟩ ⟨env, body, Array.getElem?_eq_some_iff.mpr ⟨hi, hcell⟩⟩
  | _ => rw [hcell] at hf; cases hf

/-- What happens at the top level changes no depth, and adds only threads of depth zero. -/
theorem Store.Proceeds.depth (h : s.Proceeds s') {a : Addr .thread} {th : Thread}
    (ha : s'.threads.get? a = some th) :
    th.depth = 0 ∨ ∃ th₀, s.threads.get? a = some th₀ ∧ th.depth = th₀.depth := by
  cases h with
  | newThread c =>
    simp only [Store.newThread, Heap.get?_push] at ha
    split at ha
    · cases ha
      exact .inl rfl
    · exact .inr ⟨th, ha, rfl⟩
  | configure b f =>
    simp only [Heap.get?_modify] at ha
    split at ha
    · obtain ⟨th₀, h₀, rfl⟩ := Option.map_eq_some_iff.mp ha
      exact .inr ⟨th₀, h₀, rfl⟩
    · exact .inr ⟨th, ha, rfl⟩
  | newEnv b =>
    simp only [Store.newEnv, Heap.get?_modify] at ha
    split at ha
    · obtain ⟨th₀, h₀, rfl⟩ := Option.map_eq_some_iff.mp ha
      refine .inr ⟨th₀, h₀, ?_⟩
      unfold Thread.start
      split <;> rfl
    · exact .inr ⟨th, ha, rfl⟩
  | turnPage => exact .inr ⟨th, ha, rfl⟩
  | run hr =>
    rw [(later_law.ends hr).threads] at ha
    exact .inr ⟨th, ha, rfl⟩

theorem Store.Reachable.depth (h : s.Reachable) {a : Addr .thread} {th : Thread}
    (ha : s.threads.get? a = some th) : th.depth = 0 := by
  refine h.induction (P := fun s => ∀ a th, s.threads.get? a = some th → th.depth = 0)
    ?_ ?_ a th ha
  · intro a th ha
    simp [initial, Heap.get?, Heap.empty] at ha
  · intro s s' ih hp a th ha
    rcases hp.depth ha with h₀ | ⟨th₀, h₀, he⟩
    · exact h₀
    · rw [he]
      exact ih a th₀ h₀

theorem Store.Reachable.counted (h : s.Reachable) : s.Counted := by
  intro a th ha
  rw [h.depth ha, h.forcingOn]
  exact ⟨rfl, Nat.zero_le _⟩

/-! ### The limit is fixed -/

/-- The thread has been started with a limit. -/
def Store.Fixed (s : Store) (a : Addr .thread) (limit : Nat) : Prop :=
  ∃ th st, s.threads.get? a = some th ∧ th.started = some st ∧ st.limit = limit

section Fixed

variable {a : Addr .thread} {limit : Nat}

theorem Store.Fixed.changeDepth (h : s.Fixed a limit) (env : Env) (f : Nat → Nat)
    (hs : s'.threads = (s.changeDepth env f).threads) : s'.Fixed a limit := by
  obtain ⟨th, st, hth, hst, hl⟩ := h
  unfold Fixed
  rw [hs]
  unfold Store.changeDepth
  split
  · simp only [Heap.get?_modify, hth]
    split
    · exact ⟨_, st, rfl, hst, hl⟩
    · exact ⟨th, st, rfl, hst, hl⟩
  · exact ⟨th, st, hth, hst, hl⟩

theorem Store.Fixed.proceeds (h : s.Fixed a limit) (hp : s.Proceeds s') : s'.Fixed a limit := by
  obtain ⟨th, st, hth, hst, hl⟩ := h
  cases hp with
  | newThread c => exact ⟨th, st, Heap.get?_push_of_some hth, hst, hl⟩
  | configure b f =>
    simp only [Fixed, Heap.get?_modify, hth]
    split
    · exact ⟨_, st, rfl, hst, hl⟩
    · exact ⟨th, st, rfl, hst, hl⟩
  | newEnv b =>
    simp only [Fixed, newEnv, Heap.get?_modify, hth]
    split
    · exact ⟨th, st, by simp [Thread.start, hst], hst, hl⟩
    · exact ⟨th, st, rfl, hst, hl⟩
  | turnPage => exact ⟨th, st, hth, hst, hl⟩
  | run hr => exact ⟨th, st, (later_law.ends hr).threads ▸ hth, hst, hl⟩

theorem Store.Fixed.leadsTo (h : s.Fixed a limit) (hs : s.LeadsTo s') : s'.Fixed a limit := by
  induction hs with
  | refl => exact h
  | tail _ hp ih => exact ih.proceeds hp

theorem Store.Fixed.passes {m m' : Machine ρ} (h : m.store.Fixed a limit) (hm : m.Passes m') :
    m'.store.Fixed a limit := by
  refine hm.store (P := fun s => s.Fixed a limit) ?_ ?_ ?_ h
  · rintro x s ⟨th, st, hth, hst, hl⟩
    exact ⟨th, st, (Later.perform x s).threads ▸ hth, hst, hl⟩
  · intro q s c s' hq h
    rcases Request.start_cases hq with ⟨t, env, body, -, -, -, -, hth⟩ | ⟨-, -, hth⟩
    · exact h.changeDepth env _ hth
    · unfold Fixed
      rwa [hth]
  · intro q r s h
    rcases q.finish_cases r s with ⟨t, env, body, d, -, -, -, -, hth⟩ | ⟨-, -, hth⟩
    · exact h.changeDepth env _ hth
    · unfold Fixed
      rwa [hth]

/-- The first scope of a thread fixes the limit that its set-up asks for. -/
theorem Store.fixed_newEnv {th : Thread} (h : s.threads.get? a = some th)
    (hn : th.started = none) : (s.newEnv a).2.Fixed a th.config.limit := by
  refine ⟨th.start, ⟨.ofString th.config.scriptDir, th.config.limit⟩, ?_, ?_, rfl⟩
  · simp only [newEnv, Heap.get?_modify, if_true, h, Option.map_some]
  · simp only [Thread.start, hn]

end Fixed

/-! ### Depth accounting -/

/-- **Depth accounting.** In every state that a run passes, the depth of each thread is the number
of thunks that are being forced in its scopes, and it is within the limit of the thread; that limit
is the one that was set up when the thread got its first scope. Whatever is run, every thread is as
deep afterwards as before, and where runs begin and end the depth of every thread is zero. -/
theorem depth_accounting (hs : s.Reachable) (c : Comp ρ) {m : Machine ρ}
    (hm : (Machine.load c s).Passes m) :
    (∀ a th, m.store.threads.get? a = some th →
      th.depth = m.store.forcingOn a ∧ th.depth ≤ th.limit) ∧
    (∀ (s₀ : Store) (a : Addr .thread) (th₀ : Thread), s₀.threads.get? a = some th₀ →
      th₀.started = none → (s₀.newEnv a).2.LeadsTo s →
        ∃ th, m.store.threads.get? a = some th ∧ th.limit = th₀.config.limit) ∧
    (∀ {α : Type} (o : Comp α) (r : Except Error α) (s' : Store), o.Ends m.store r s' →
      s'.threads = m.store.threads) ∧
    ∀ a th, s.threads.get? a = some th → th.depth = 0 := by
  refine ⟨?_, fun s₀ a th₀ h₀ hn hl => ?_, fun o r s' h => (Store.later_law.ends h).threads,
    fun a th ha => hs.depth ha⟩
  · exact hm.store (P := Store.Counted) (fun x _ h => h.perform x) (fun _ _ _ _ hq h => h.start hq)
      (fun q r _ h => h.finish q r) hs.counted
  · obtain ⟨th, st, hth, hst, hlim⟩ := ((Store.fixed_newEnv h₀ hn).leadsTo hl).passes hm
    exact ⟨th, hth, by rw [Thread.limit, hst]; exact hlim⟩

/-- A thunk on a thread that asks for no limit of its own, in a state where it is being forced. -/
theorem depth_accounting_default : ∃ (m : Machine Value) (th : Thread),
    m.store.threads.get? ⟨0⟩ = some th ∧ m.store.forcingOn ⟨0⟩ = 1 ∧ th.depth = 1 ∧
      th.depth ≤ th.limit ∧ th.limit = 10000 := by
  let cfg : Config := ⟨"main", "/", false, 0⟩
  let s₀ := (Store.initial.newThread cfg).2
  let s := ((s₀.newEnv ⟨0⟩).2.newThunk ⟨some ⟨0⟩, [], []⟩ .depth).2
  have hrun : (s₀.newEnv ⟨0⟩).2.LeadsTo s :=
    (Store.Proceeds.run (Comp.perform_ends (.newThunk _ _) _)).leadsTo
  have hs : s.Reachable := Store.LeadsTo.trans
    ((Store.Proceeds.newThread _ cfg).leadsTo.trans (Store.Proceeds.newEnv _ _).leadsTo) hrun
  obtain ⟨m, hm, hf⟩ : ∃ m, (Machine.load (Comp.force (.thunk ⟨0⟩)) s).Passes m ∧
      m.store.forcingOn ⟨0⟩ = 1 := ⟨_, Machine.passes_of_after 1 rfl, rfl⟩
  obtain ⟨hcount, hlimit, -, -⟩ := depth_accounting hs _ hm
  obtain ⟨th, hth, hl⟩ := hlimit s₀ ⟨0⟩ ⟨cfg, none, 0⟩ rfl rfl hrun
  obtain ⟨hd, hle⟩ := hcount ⟨0⟩ th hth
  exact ⟨m, th, hth, hf, hd.trans hf, hle, hl⟩

end NixKernel
