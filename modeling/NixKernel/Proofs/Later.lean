import NixKernel.Proofs.Extends

/-!
What every run respects. A relation between the store before and the store after that is kept by
each action, and by each request once its computation keeps it, is kept by every run, whatever its
outcome. One such relation is that a store is later than another: no list, set or function has
changed, the threads are as deep as before, and the only thing that has become of an old thunk is
that it has been forced.
-/

namespace NixKernel

/-! ### Starting a request -/

/-- A request that is answered at once leaves the store as it is. -/
theorem Request.start_answer {q : Request} {s s' : Store} {r : Except Error q.Answer}
    (h : q.start s = .answer r s') : s' = s := by
  cases q with
  | force t =>
    simp only [start, Store.startForce] at h
    split at h
    case h_4 =>
      split at h
      · cases h; rfl
      · cases h
    all_goals cases h; rfl
  | entry b =>
    simp only [start, Store.startEntry] at h
    split at h
    · cases h; rfl
    · split at h
      · cases h; rfl
      · cases h
  | _ => cases h

/-- Only an unforced thunk is started, and only below the limit. -/
theorem Store.startForce_run {s s₁ : Store} {t : Addr .thunk} {c : Comp Value}
    (h : s.startForce t = .run c s₁) :
    ∃ env body, s.thunks.get? t = some (.unforced env body) ∧ s.atLimit env = false ∧
      c = (do Comp.force (← Comp.eval env body)) ∧
      s₁ = ((s.enter env).setThunk t (.forcing env body)).record (.force t) := by
  unfold startForce at h
  split at h
  case h_4 env body ht =>
    split at h
    · cases h
    · rename_i hl
      cases h
      exact ⟨env, body, ht, by simpa using hl, rfl, rfl⟩
  all_goals cases h

/-- Taking up an entry changes nothing but its builder and the journal. -/
theorem Store.startEntry_run {s s₁ : Store} {b : Addr .builder} {c : Comp Bool}
    (h : s.startEntry b = .run c s₁) :
    ∃ d e, s.builders.get? b = some d ∧ d.entries[d.next]? = some e ∧
      c = (do Comp.define b d.env e; return true) ∧
      s₁ = ({ s with builders := s.builders.modify b fun c =>
        { c with next := c.next + 1, active := c.active + 1 } } : Store).record
          (.entry b d.next) := by
  unfold startEntry at h
  split at h
  · cases h
  · rename_i d hd
    split at h
    · cases h
    · rename_i e he
      cases h
      exact ⟨d, e, hd, he, rfl, rfl⟩

/-! ### Relations that runs respect -/

/-- A relation from the store before to the store after that actions and requests respect. -/
structure RunLaw (R : Store → Store → Prop) : Prop where
  refl : ∀ s, R s s
  trans : ∀ {s s' s''}, R s s' → R s' s'' → R s s''
  act : ∀ (a : Action) s, R s (a.perform s).2
  run : ∀ {q : Request} {s s₁ s₂ : Store} {c : Comp q.Answer} {r : Except Error q.Answer},
    q.start s = .run c s₁ → c.Ends s₁ r s₂ → R s₁ s₂ → R s (q.finish r s₂)

namespace RunLaw

variable {R : Store → Store → Prop} {α : Type}

theorem runWith (h : RunLaw R) {answer : Answerer}
    (ha : ∀ {q : Request} {s s' : Store} {r}, answer q s = some (r, s') → R s s')
    {c : Comp α} {s s' : Store} {r : Except Error α}
    (hr : c.runWith answer s = some (r, s')) : R s s' := by
  induction c generalizing s with
  | done r' => cases hr; exact h.refl _
  | act a k ih => exact h.trans (h.act a s) (ih _ hr)
  | ask q k ih =>
    obtain ⟨r₁, s₁, h₁, hk⟩ := Comp.runWith_ask_iff.mp hr
    exact h.trans (ha h₁) (ih _ hk)

theorem request_run (h : RunLaw R) (n : Nat) {q : Request} {s s' : Store}
    {r : Except Error q.Answer} (hr : q.run n s = some (r, s')) : R s s' := by
  induction n generalizing q s s' with
  | zero => cases hr
  | succ n ih =>
    rcases Request.run_succ_cases hr with hq | ⟨c, s₁, s₂, hq, h₂, rfl⟩
    · rw [Request.start_answer hq]
      exact h.refl s
    · exact h.run hq ⟨n, h₂⟩ (h.runWith ih h₂)

/-- Every run respects the relation. -/
theorem ends (h : RunLaw R) {c : Comp α} {s s' : Store} {r : Except Error α}
    (hr : c.Ends s r s') : R s s' := by
  obtain ⟨n, hn⟩ := hr
  exact h.runWith (h.request_run n) hn

end RunLaw

/-! ### Later stores -/

/-- What can become of a thunk from before to after a run. -/
inductive Thunk.Moves : Thunk → Thunk → Prop
  | stay (c : Thunk) : Moves c c
  | forced (env : Env) (body : Expr) (v : Value) : Moves (.unforced env body) (.forced v)

theorem Thunk.Moves.trans {c c' c'' : Thunk} (h : c.Moves c') (h' : c'.Moves c'') :
    c.Moves c'' := by
  cases h with
  | stay => exact h'
  | forced env body v =>
    cases h'
    exact .forced env body v

/-- No list, set or function has changed, old thunks have at most been forced, and every thread is
as deep as before. -/
structure Store.Later (s s' : Store) : Prop where
  thunk : ∀ {t c}, s.thunks.get? t = some c → ∃ c', s'.thunks.get? t = some c' ∧ c.Moves c'
  list : ∀ {a xs}, s.lists.get? a = some xs → s'.lists.get? a = some xs
  set : ∀ {a m}, s.sets.get? a = some m → s'.sets.get? a = some m
  lambda : ∀ {a f}, s.lambdas.get? a = some f → s'.lambdas.get? a = some f
  threads : s'.threads = s.threads

namespace Store

variable {s s' s'' : Store}

theorem Later.refl (s : Store) : s.Later s :=
  ⟨fun ht => ⟨_, ht, .stay _⟩, id, id, id, rfl⟩

theorem Later.trans (h : s.Later s') (h' : s'.Later s'') : s.Later s'' where
  thunk ht := by
    obtain ⟨c', ht', hc⟩ := h.thunk ht
    obtain ⟨c'', ht'', hc'⟩ := h'.thunk ht'
    exact ⟨c'', ht'', hc.trans hc'⟩
  list ha := h'.list (h.list ha)
  set ha := h'.set (h.set ha)
  lambda ha := h'.lambda (h.lambda ha)
  threads := h'.threads.trans h.threads

theorem Extends.later (h : s.Extends s') : s.Later s' where
  thunk ht := ⟨_, h.thunk ht, .stay _⟩
  list ha := h.lists ▸ ha
  set := h.set
  lambda ha := h.lambdas ▸ ha
  threads := h.threads

/-- A forced thunk keeps its value for good. -/
theorem Later.forced (h : s.Later s') {t : Addr .thunk} {v : Value}
    (ht : s.thunks.get? t = some (.forced v)) : s'.thunks.get? t = some (.forced v) := by
  obtain ⟨c', ht', hc⟩ := h.thunk ht
  cases hc
  exact ht'

/-- A value that is no thunk, or a forced one, stands for the same value for good. -/
theorem Later.resolve (h : s.Later s') {v : Value}
    (hv : ∀ t, v = .thunk t → ∃ w, s.thunks.get? t = some (.forced w)) :
    s'.resolve v = s.resolve v := by
  cases v with
  | thunk t =>
    obtain ⟨w, hw⟩ := hv t rfl
    simp only [Store.resolve, Store.forced?, hw, h.forced hw]
  | _ => rfl

theorem Later.atLimit (h : s.Later s') (env : Env) : s'.atLimit env = s.atLimit env := by
  rw [Store.atLimit, Store.atLimit, thread?, thread?, h.threads]

/-- A thunk that is being forced stays so until it is finished. -/
theorem Later.forcing (h : s.Later s') {t : Addr .thunk} {env : Env} {body : Expr}
    (ht : s.thunks.get? t = some (.forcing env body)) :
    s'.thunks.get? t = some (.forcing env body) := by
  obtain ⟨c', ht', hc⟩ := h.thunk ht
  cases hc
  exact ht'

/-! ### Runs lead to later stores -/

/-- Binding the formals of a pattern only adds thunks. -/
theorem get?_bindFormals (inner : Env) (args : Attrs Value) (fs : List Formal)
    (acc : Attrs Value × Heap .thunk Thunk) {t : Addr .thunk} {c : Thunk}
    (h : acc.2.get? t = some c) : (bindFormals inner args fs acc).2.get? t = some c := by
  induction fs generalizing acc with
  | nil => exact h
  | cons f fs ih =>
    obtain ⟨vars, thunks⟩ := acc
    unfold bindFormals
    split
    · exact ih _ h
    · exact ih _ (Heap.get?_push_of_some h)
    · exact ih _ h

/-- No action changes a thunk. -/
theorem get?_thunks_perform (a : Action) {s : Store} {t : Addr .thunk} {c : Thunk}
    (h : s.thunks.get? t = some c) : (a.perform s).2.thunks.get? t = some c := by
  cases a with
  | newThunk env body => exact Heap.get?_push_of_some h
  | openScope env formals whole arg => exact get?_bindFormals _ _ formals (.empty, s.thunks) h
  | _ => exact h

theorem Later.perform (a : Action) (s : Store) : s.Later (a.perform s).2 where
  thunk ht := ⟨_, get?_thunks_perform a ht, .stay _⟩
  list := by
    intro b xs h
    cases a with
    | newList items => exact Heap.get?_push_of_some h
    | _ => exact h
  set := by
    intro b m h
    cases a with
    | newSet m => exact Heap.get?_push_of_some h
    | openScope => exact Heap.get?_push_of_some h
    | _ => exact h
  lambda := by
    intro b f h
    cases a with
    | newLambda f => exact Heap.get?_push_of_some h
    | _ => exact h
  threads := by cases a <;> rfl

/-- The thunk is forced after a value, and as it was before after an error. -/
theorem finishForce_eq {t : Addr .thunk} {env : Env} {body : Expr}
    (ht : s.thunks.get? t = some (.forcing env body)) (r : Except Error Value) :
    s.finishForce t r = (s.leave env).setThunk t
      (match r with | .ok v => .forced v | .error _ => .unforced env body) := by
  unfold finishForce
  rw [ht]
  cases r <;> rfl

theorem builders_finishForce (s : Store) (t : Addr .thunk) (r : Except Error Value) :
    (s.finishForce t r).builders = s.builders := by
  unfold finishForce
  split
  · rw [leave, changeDepth_eq]
    cases r <;> rfl
  · rfl

theorem Later.finishForce {t : Addr .thunk} {c : Comp Value} {r : Except Error Value}
    (hs : s.startForce t = .run c s') (h : s'.Later s'') : s.Later (s''.finishForce t r) := by
  obtain ⟨env, body, ht, -, -, rfl⟩ := startForce_run hs
  have hthreads := threads_leave s'' env h.threads
  rw [enter, changeDepth_eq] at h
  have hcell : s''.thunks.get? t = some (.forcing env body) := by
    refine h.forcing ?_
    simp only [record, setThunk, Heap.get?_modify, if_true, ht, Option.map_some]
  rw [finishForce_eq hcell, leave, changeDepth_eq]
  refine ⟨fun {t' d} hd => ?_, h.list, h.set, h.lambda, hthreads⟩
  simp only [setThunk, Heap.get?_modify]
  by_cases hne : t = t'
  · subst hne
    rw [ht] at hd
    cases hd
    simp only [if_true, hcell, Option.map_some]
    cases r with
    | ok v => exact ⟨_, rfl, .forced env body v⟩
    | error e => exact ⟨_, rfl, .stay _⟩
  · obtain ⟨d', hd', hm⟩ := h.thunk (t := t') (c := d) (by
      simp only [record, setThunk, Heap.get?_modify, if_neg hne, hd])
    exact ⟨d', by rw [if_neg hne, hd'], hm⟩

/-- Every run leads to a later store. -/
theorem later_law : RunLaw Later where
  refl := .refl
  trans := .trans
  act := .perform
  run := by
    intro q s s₁ s₂ c r hq _ h
    cases q with
    | force t => exact h.finishForce hq
    | entry b =>
      obtain ⟨d, e, -, -, -, rfl⟩ := startEntry_run hq
      cases r <;> exact { h with }
    | assemble b =>
      cases hq
      cases r <;> exact { h with }
    | _ => cases hq; exact h

end Store

/-! ### Forced values -/

/-- A value has been forced to `w`, or it is `w` and no thunk. -/
structure Store.Forced (s : Store) (v w : Value) : Prop where
  resolve : s.resolve v = w
  thunk : ∀ t, v = .thunk t → s.thunks.get? t = some (.forced w)

theorem Store.Forced.mono {s s' : Store} {v w : Value} (h : s.Forced v w) (hs : s.Later s') :
    s'.Forced v w where
  resolve := (hs.resolve fun t ht => ⟨w, h.thunk t ht⟩).trans h.resolve
  thunk t ht := hs.forced (h.thunk t ht)

theorem Store.forced_thunk {s : Store} {t : Addr .thunk} {w : Value}
    (h : s.thunks.get? t = some (.forced w)) : s.Forced (.thunk t) w where
  resolve := by simp only [Store.resolve, Store.forced?, h, Option.getD_some]
  thunk t' ht' := by cases ht'; exact h

/-- What a value has been forced to is what it stands for from then on. -/
theorem Comp.force_forced {v w : Value} {s s' : Store} (h : (force v).Ends s (.ok w) s') :
    s'.Forced v w := by
  cases v with
  | thunk t =>
    rw [force, ends_request] at h
    refine Store.forced_thunk ?_
    cases hq : (Request.force t).start s with
    | answer r s₁ =>
      obtain ⟨rfl, rfl⟩ := (Request.ends_answer hq).mp h
      simp only [Request.start, Store.startForce] at hq
      split at hq
      case h_2 hv => cases hq; exact hv
      case h_4 => split at hq <;> cases hq
      all_goals cases hq
    | run c s₁ =>
      obtain ⟨s₂, h₂, rfl⟩ := (Request.ends_run hq).mp h
      obtain ⟨env, body, ht, -, -, rfl⟩ := Store.startForce_run hq
      have hcell : s₂.thunks.get? t = some (.forcing env body) := by
        refine (Store.later_law.ends h₂).forcing ?_
        rw [Store.enter, Store.changeDepth_eq]
        simp only [Store.record, Store.setThunk, Heap.get?_modify, if_true, ht, Option.map_some]
      rw [Request.finish, Store.finishForce_eq hcell, Store.leave, Store.changeDepth_eq]
      simp only [Store.setThunk, Heap.get?_modify, if_true, hcell, Option.map_some]
  | _ =>
    obtain ⟨hw, rfl⟩ := ends_pure.mp h
    cases hw
    exact ⟨rfl, fun t ht => nomatch ht⟩

/-- Forcing what has been forced has no effect. -/
theorem Store.Forced.ends {s : Store} {v w : Value} (h : s.Forced v w) :
    (Comp.force v).Ends s (.ok w) s := by
  cases v with
  | thunk t =>
    have hstart : (Request.force t).start s = .answer (.ok w) s := by
      simp only [Request.start, Store.startForce, h.thunk t rfl]
    rw [Comp.force, Comp.ends_request, Request.ends_answer hstart]
    exact ⟨rfl, rfl⟩
  | _ =>
    have hw := h.resolve
    subst hw
    exact Comp.ends_pure.mpr ⟨rfl, rfl⟩

end NixKernel
