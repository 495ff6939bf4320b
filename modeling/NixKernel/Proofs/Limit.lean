import NixKernel.Proofs.Errors

/-!
Raising the limit of a thread. Nothing but the start of a thunk looks at the limit, and the error
that it gives there is passed on to the end if no expression goes on after an error. So two runs
that differ in the limit go step by step together, and the run with the lower limit either comes to
the same result or ends with the error of the limit.
-/

namespace NixKernel

variable {α ρ : Type} {s s' : Store}

/-- The error of a thread that has as many thunks being forced as it allows. -/
abbrev Error.depthLimit : Error := .eval .depthLimit

/-! ### Stores that differ in their limits -/

/-- A thread is as another one, save that it may allow more. -/
structure Thread.Raised (t t' : Thread) : Prop where
  strict : t'.config.strict = t.config.strict
  dir : t'.started.map Started.dir = t.started.map Started.dir
  depth : t'.depth = t.depth
  limit : t.limit ≤ t'.limit

/-- A store is as another one, save that its threads may allow more. -/
def Store.Raised (s s' : Store) : Prop :=
  ∃ threads, (∀ a, Option.Rel Thread.Raised (s.threads.get? a) (threads.get? a)) ∧
    s' = { s with threads := threads }

/-- What can be seen of a value does not depend on the threads. -/
theorem Store.viewWithin_threads (s : Store) (threads : Heap .thread Thread) (levels : Nat)
    (above : List Container) (v : Value) :
    Store.viewWithin { s with threads := threads } levels above v =
      s.viewWithin levels above v := by
  induction levels using Nat.strongRecOn generalizing above v with
  | ind levels ih =>
    unfold Store.viewWithin
    rw [show Store.resolve { s with threads := threads } v = s.resolve v by cases v <;> rfl]
    generalize s.resolve v = w
    cases w with
    | list a =>
      cases levels with
      | zero => rfl
      | succ n =>
        dsimp only
        split
        · rfl
        · exact congrArg Tree.list (List.map_congr_left fun x _ => ih n n.lt_succ_self _ x)
    | set a =>
      cases levels with
      | zero => rfl
      | succ n =>
        dsimp only
        split
        · rfl
        · refine congrArg Tree.set (List.map_congr_left fun p _ => ?_)
          rw [ih n n.lt_succ_self]
    | _ => rfl

namespace Store.Raised

section Reading

variable (h : s.Raised s') (env : Env)

include h

theorem journal : s'.journal = s.journal := by
  obtain ⟨threads, -, rfl⟩ := h
  rfl

theorem thread? : Option.Rel Thread.Raised (s.thread? env) (s'.thread? env) := by
  obtain ⟨threads, hrel, rfl⟩ := h
  unfold Store.thread?
  cases env.thread with
  | none => exact .none
  | some a => exact hrel a

theorem strict : s'.strict env = s.strict env := by
  unfold Store.strict
  rcases rel_cases (h.thread? env) with ⟨ht, ht'⟩ | ⟨t, t', ht, ht', hr⟩
  · rw [ht, ht']
  · rw [ht, ht']
    exact hr.strict

theorem depth : s'.depth env = s.depth env := by
  unfold Store.depth
  rcases rel_cases (h.thread? env) with ⟨ht, ht'⟩ | ⟨t, t', ht, ht', hr⟩
  · rw [ht, ht']
  · rw [ht, ht']
    exact hr.depth

theorem scriptDir : s'.scriptDir env = s.scriptDir env := by
  have hdir : ∀ (x : Store), x.scriptDir env =
      ((x.thread? env).bind fun t => t.started.map Started.dir).getD .root := by
    intro x
    unfold Store.scriptDir
    cases x.thread? env with
    | none => rfl
    | some t => cases ht : t.started <;> simp [ht]
  rw [hdir, hdir]
  rcases rel_cases (h.thread? env) with ⟨ht, ht'⟩ | ⟨t, t', ht, ht', hr⟩
  · rw [ht, ht']
  · rw [ht, ht', Option.bind_some, Option.bind_some, hr.dir]

/-- Where the higher limit is reached, the lower one is. -/
theorem atLimit (hs : s'.atLimit env = true) : s.atLimit env = true := by
  unfold Store.atLimit at hs ⊢
  rcases rel_cases (h.thread? env) with ⟨ht, ht'⟩ | ⟨t, t', ht, ht', hr⟩
  · rw [ht'] at hs
    cases hs
  · rw [ht'] at hs
    rw [ht]
    have hle := of_decide_eq_true hs
    exact decide_eq_true (Nat.le_trans hr.limit (hr.depth ▸ hle))

end Reading

/-! ### Step by step -/

theorem perform (h : s.Raised s') (a : Action) :
    (a.perform s').1 = (a.perform s).1 ∧ (a.perform s).2.Raised (a.perform s').2 := by
  cases a with
  | scriptDir env => exact ⟨h.scriptDir env, h⟩
  | strict env => exact ⟨h.strict env, h⟩
  | depth env => exact ⟨h.depth env, h⟩
  | typeName v =>
    refine ⟨?_, h⟩
    obtain ⟨threads, -, rfl⟩ := h
    cases v <;> rfl
  | view v =>
    refine ⟨?_, h⟩
    obtain ⟨threads, -, rfl⟩ := h
    exact s.viewWithin_threads threads _ _ v
  | _ =>
    obtain ⟨threads, hrel, rfl⟩ := h
    exact ⟨rfl, threads, hrel, rfl⟩

/-- The depth of a thread is changed in both stores alike. -/
theorem changeDepth (h : s.Raised s') (env : Env) (f : Nat → Nat) :
    (s.changeDepth env f).Raised (s'.changeDepth env f) := by
  obtain ⟨threads, hrel, rfl⟩ := h
  unfold Store.changeDepth
  cases env.thread with
  | none => exact ⟨threads, hrel, rfl⟩
  | some a =>
    refine ⟨_, fun b => ?_, rfl⟩
    rw [Heap.get?_modify, Heap.get?_modify]
    split
    · rcases rel_cases (hrel b) with ⟨ht, ht'⟩ | ⟨t, t', ht, ht', hr⟩
      · rw [ht, ht']
        exact .none
      · rw [ht, ht']
        exact .some ⟨hr.strict, hr.dir, congrArg f hr.depth, hr.limit⟩
    · exact hrel b

theorem setThunk (h : s.Raised s') (t : Addr .thunk) (x : Thunk) :
    (s.setThunk t x).Raised (s'.setThunk t x) := by
  obtain ⟨threads, hrel, rfl⟩ := h
  exact ⟨threads, hrel, rfl⟩

theorem record (h : s.Raised s') (e : Event) : (s.record e).Raised (s'.record e) := by
  obtain ⟨threads, hrel, rfl⟩ := h
  exact ⟨threads, hrel, rfl⟩

theorem get?_thunk (h : s.Raised s') (t : Addr .thunk) : s'.thunks.get? t = s.thunks.get? t := by
  obtain ⟨threads, -, rfl⟩ := h
  rfl

/-- A request starts alike in both stores, save that it may be refused at the lower limit only. -/
theorem start (h : s.Raised s') (q : Request) :
    (∃ r, q.start s = .answer r s ∧ q.start s' = .answer r s') ∨
    (∃ c s₁ s₁', q.start s = .run c s₁ ∧ q.start s' = .run c s₁' ∧ s₁.Raised s₁') ∨
    (q.start s = .answer (.error .depthLimit) s ∧ ∃ c s₁', q.start s' = .run c s₁') := by
  cases q with
  | force t =>
    have hcell := h.get?_thunk t
    simp only [Request.start, Store.startForce, hcell]
    split
    · exact .inl ⟨_, rfl, rfl⟩
    · exact .inl ⟨_, rfl, rfl⟩
    · exact .inl ⟨_, rfl, rfl⟩
    · rename_i env body _
      -- the one place where the limit is read
      cases hlow : s.atLimit env with
      | true =>
        cases hhigh : s'.atLimit env with
        | true => exact .inl ⟨_, rfl, rfl⟩
        | false => exact .inr (.inr ⟨rfl, _, _, rfl⟩)
      | false =>
        have hhigh : s'.atLimit env = false := by
          by_contra hne
          rw [h.atLimit env (by simpa using hne)] at hlow
          cases hlow
        rw [hhigh]
        exact .inr (.inl ⟨_, _, _, rfl, rfl, ((h.changeDepth env _).setThunk t _).record _⟩)
  | entry b =>
    obtain ⟨threads, hrel, rfl⟩ := h
    simp only [Request.start, Store.startEntry]
    split
    · exact .inl ⟨_, rfl, rfl⟩
    · split
      · exact .inl ⟨_, rfl, rfl⟩
      · exact .inr (.inl ⟨_, _, _, rfl, rfl, threads, hrel, rfl⟩)
  | assemble b =>
    obtain ⟨threads, hrel, rfl⟩ := h
    exact .inr (.inl ⟨_, _, _, rfl, rfl, threads, hrel, rfl⟩)
  | _ => exact .inr (.inl ⟨_, _, _, rfl, rfl, h⟩)

theorem finish (h : s.Raised s') (q : Request) (r : Except Error q.Answer) :
    (q.finish r s).Raised (q.finish r s') := by
  have hbuilder : ∀ b out, (s.finishBuilder b out).Raised (s'.finishBuilder b out) := by
    obtain ⟨threads, hrel, rfl⟩ := h
    exact fun b out => ⟨threads, hrel, rfl⟩
  cases q with
  | force t =>
    have hcell := h.get?_thunk t
    simp only [Request.finish, Store.finishForce, hcell]
    split
    · rename_i env body _
      cases r <;> exact (h.changeDepth env _).setThunk t _
    · exact h
  | entry b => cases r <;> exact hbuilder b _
  | assemble b => cases r <;> exact hbuilder b _
  | _ => exact h

end Store.Raised

/-! ### Whole runs -/

namespace Machine

/-- Every request that is being answered takes a step to finish. -/
theorem height_lt_of_run {n : Nat} {c : Comp α} {st : Stack ρ α} {res : Result ρ}
    (h : run n ⟨c, st, s⟩ = some res) : st.height < n := by
  induction n generalizing α c st s with
  | zero => cases h
  | succ n ih =>
    cases c with
    | done r =>
      cases st with
      | nil => exact Nat.succ_pos n
      | cons q k rest => exact Nat.succ_lt_succ (ih h)
    | act a k => exact Nat.lt_succ_of_lt (ih h)
    | ask q k =>
      cases hq : q.start s with
      | answer r s₁ =>
        rw [run_ask_answer n s k st hq] at h
        exact Nat.lt_succ_of_lt (ih h)
      | run c s₁ =>
        rw [run_ask_run n s k st hq] at h
        exact Nat.lt_succ_of_lt (Nat.lt_of_succ_lt (ih h))

end Machine

/-- The same outcome, in stores that differ in their limits. -/
def Result.Raised (p p' : Result ρ) : Prop := p'.1 = p.1 ∧ p.2.Raised p'.2

namespace Machine

/-- **Lock-step.** Two runs on stores that differ in their limits come to the same within the same
number of steps, or the one with the lower limit has ended with the error of the limit. -/
theorem run_raised {n : Nat} {c : Comp α} {st : Stack ρ α} (hc : Heeded ⟨c, st, s⟩)
    (h : s.Raised s') :
    Option.Rel Result.Raised (run n ⟨c, st, s⟩) (run n ⟨c, st, s'⟩) ∨
      ∃ s₁, run n ⟨c, st, s⟩ = some (.error .depthLimit, s₁) := by
  induction n generalizing α c st s s' with
  | zero => exact .inl .none
  | succ n ih =>
    have hnext : ∀ {m : Machine ρ}, Leads ⟨c, st, s⟩ m → m.Heeded := fun hl => hl.passes.heeded hc
    cases c with
    | done r =>
      cases st with
      | nil => exact .inl (.some ⟨rfl, h⟩)
      | cons q k rest => exact ih (hnext rfl) (h.finish q r)
    | act a k =>
      obtain ⟨ha, hs⟩ := h.perform a
      rw [run_act, run_act, ha]
      exact ih (hnext rfl) hs
    | ask q k =>
      rcases h.start q with ⟨r, hq, hq'⟩ | ⟨c, s₁, s₁', hq, hq', hs⟩ | ⟨hq, c, s₁', hq'⟩
      · rw [run_ask_answer n s k st hq, run_ask_answer n s' k st hq']
        exact ih (hnext (leads_answer hq)) h
      · rw [run_ask_run n s k st hq, run_ask_run n s' k st hq']
        exact ih (hnext (leads_start hq)) hs
      · -- only the lower limit is reached: its run takes the shortest way out
        have hl := hc.refused hq
        obtain ⟨s₂, hs₂⟩ := (hnext hl).unwind
        rw [hl.reaches, run_ask_run n s' k st hq']
        by_cases hn : st.height < n
        · obtain ⟨i, rfl⟩ := Nat.exists_eq_add_of_lt hn
          refine .inr ⟨s₂, ?_⟩
          rw [show st.height + i + 1 = (i + 1) + st.height by omega, hs₂, run_done_nil]
        · have hlow : run n ⟨.done (.error .depthLimit), st, s⟩ = none :=
            Option.eq_none_iff_forall_ne_some.mpr fun _ h => hn (height_lt_of_run h)
          have hhigh : run n ⟨c, .cons q k st, s₁'⟩ = none :=
            Option.eq_none_iff_forall_ne_some.mpr fun _ h =>
              hn (Nat.lt_of_succ_lt (height_lt_of_run h))
          rw [hlow, hhigh]
          exact .inl .none

end Machine

section Comp

variable {c : Comp α} (hc : c.Fairly .plain) (hs : s.Propagates)

include hc hs

/-- What is left in the store passes on every error, also when a run is given up. -/
theorem Comp.execute_propagates : (c.execute s).2.Propagates := by
  unfold Comp.execute
  split
  · rename_i res hres
    exact (hc s hs).propagates hs (Machine.exists_run_load_iff.mp ⟨_, hres⟩)
  · exact hs

variable (h : s.Raised s')

include h

/-- A run that does not end with the error of the limit comes to the same with a higher limit. -/
theorem Comp.Ends.raised {r : Except Error α} {s₁ : Store} (hr : c.Ends s r s₁)
    (hne : r ≠ .error .depthLimit) : ∃ s₁', c.Ends s' r s₁' ∧ s₁.Raised s₁' := by
  obtain ⟨n, hn⟩ := Machine.exists_run_load_iff.mpr hr
  rcases Machine.run_raised (n := n) (Machine.heeded_load hc hs) h with hrel | ⟨s₂, hs₂⟩
  · rcases rel_cases hrel with ⟨hnone, -⟩ | ⟨p, p', hp, hp', hpp⟩
    · cases hn.symm.trans hnone
    · cases hn.symm.trans hp
      obtain ⟨r', s₁'⟩ := p'
      obtain ⟨rfl, hs₁⟩ := hpp
      exact ⟨s₁', Machine.exists_run_load_iff.mp ⟨n, hp'⟩, hs₁⟩
  · cases hn.symm.trans hs₂
    exact absurd rfl hne

theorem Comp.execute_raised :
    (c.execute s).1 = .error .depthLimit ∨ Result.Raised (c.execute s) (c.execute s') := by
  unfold Comp.execute
  rcases Machine.run_raised (n := Machine.budget) (Machine.heeded_load hc hs) h with
    hrel | ⟨s₂, hs₂⟩
  · rcases rel_cases hrel with ⟨hnone, hnone'⟩ | ⟨p, p', hp, hp', hpp⟩
    · rw [Machine.load, hnone, Machine.load, hnone']
      exact .inr ⟨rfl, h⟩
    · rw [Machine.load, hp, Machine.load, hp']
      exact .inr hpp
  · rw [Machine.load, hs₂]
    exact .inl rfl

end Comp

theorem Store.Raised.tags (h : s.Raised s') : s'.tags = s.tags := by
  rw [Store.tags, h.journal, Store.tags]

namespace Session

/-- The store of a new session. -/
theorem start_arises (c : Config) : (start c).store.Arises :=
  .newEnv (.newThread .initial c) _

/-- New threads that differ in their limits. -/
theorem start_raised {c : Config} {depth : Int}
    (h : c.limit ≤ Config.limit { c with maxDepth := depth }) :
    (start c).store.Raised (start { c with maxDepth := depth }).store := by
  have hnew : Thread.Raised (Thread.start ⟨c, none, 0⟩)
      (Thread.start ⟨{ c with maxDepth := depth }, none, 0⟩) := ⟨rfl, rfl, rfl, h⟩
  refine ⟨_, fun a => ?_, rfl⟩
  simp only [start, Store.newThread, Store.newEnv, Store.initial, Heap.get?_modify, Heap.get?_push]
  split <;> split
  · exact .some hnew
  · exact .none
  · exact .some ⟨rfl, rfl, rfl, h⟩
  · exact .none

theorem present_raised {x x' : Session} (hx : x.store.Propagates)
    (h : x.store.Raised x'.store) (v : Value) (mode : Mode) :
    (∃ w, (x.present v mode).2 = .error ⟨.depthLimit, w⟩) ∨
      ((x'.present v mode).2 = (x.present v mode).2 ∧
        (x.present v mode).1.store.Raised (x'.present v mode).1.store) := by
  have hrender := Comp.execute_raised (Rules.plain_permits.render v mode) hx h
  unfold present
  generalize (Comp.render v mode).execute x.store = p, (Comp.render v mode).execute x'.store = p'
    at hrender ⊢
  obtain ⟨r, s⟩ := p
  obtain ⟨r', s'⟩ := p'
  rcases hrender with hr | ⟨hr, hs⟩
  · cases hr
    exact .inl ⟨_, rfl⟩
  · cases hr
    cases r with
    | ok a => exact .inr ⟨rfl, hs⟩
    | error e => exact .inr ⟨rfl, hs⟩

end Session

theorem evaluate_raised {c : Config} {depth : Int}
    (h : c.limit ≤ Config.limit { c with maxDepth := depth }) {e : Expr} (he : e.Propagates)
    (mode : Mode) :
    (∃ w, (evaluate c e mode).outcome = .error ⟨.depthLimit, w⟩) ∨
      evaluate { c with maxDepth := depth } e mode = evaluate c e mode := by
  have hfair := Rules.plain_permits.eval ((Session.start c).scope "root") he
  have hstart := (Session.start_arises c).rested.propagates
  have heval := Comp.execute_raised hfair hstart (Session.start_raised h)
  have hafter := Comp.execute_propagates hfair hstart
  unfold evaluate
  dsimp only
  rw [show (Session.start { c with maxDepth := depth }).scope "root" =
    (Session.start c).scope "root" from rfl]
  generalize (Comp.eval _ e).execute (Session.start c).store = p, (Comp.eval _ e).execute
    (Session.start { c with maxDepth := depth }).store = p' at heval hafter ⊢
  obtain ⟨r, s⟩ := p
  obtain ⟨r', s'⟩ := p'
  -- the limit may be met in the evaluation or when the value is shown
  rcases heval with hr | ⟨hr, hs⟩
  · cases hr
    exact .inl ⟨_, rfl⟩
  · cases hr
    cases r with
    | error e =>
      refine .inr ?_
      rw [hs.tags]
    | ok v =>
      dsimp only
      have hstores : Store.Raised { Session.start c with store := s }.store
          { Session.start { c with maxDepth := depth } with store := s' }.store := hs
      rcases Session.present_raised hafter hstores v mode with hlimit | ⟨hsame, hs'⟩
      · exact .inl hlimit
      · refine .inr ?_
        rw [hsame, hs'.tags]

/-- **Raising the limit is safe.** An expression that does not go on after an error is evaluated in
a new thread and its value is shown, in any mode. If that does not end with the error of the limit,
it comes to the same with every higher limit, be it a value or an error, and the same thunks,
functions and entries are run in the same order. This goes for runs of any length, and for those
that are given up after the usual number of steps. -/
theorem limit_raised (c : Config) (depth : Int)
    (h : c.limit ≤ Config.limit { c with maxDepth := depth }) (e : Expr) (he : e.Propagates)
    (mode : Mode) :
    (∀ r s, (Operation.evalRender ((Session.start c).scope "root") e mode).comp.Ends
        (Session.start c).store r s → r ≠ .error .depthLimit →
      ∃ s', (Operation.evalRender ((Session.start { c with maxDepth := depth }).scope "root") e
        mode).comp.Ends (Session.start { c with maxDepth := depth }).store r s' ∧
        s'.journal = s.journal) ∧
    ((∃ w, (evaluate c e mode).outcome = .error ⟨.depthLimit, w⟩) ∨
      evaluate { c with maxDepth := depth } e mode = evaluate c e mode) := by
  refine ⟨fun r s hr hne => ?_, evaluate_raised h he mode⟩
  have hfair := Operation.Brings.fair
    (o := .evalRender ((Session.start c).scope "root") e mode) he
  obtain ⟨s', hs', hraised⟩ := hr.raised hfair (Session.start_arises c).rested.propagates
    (Session.start_raised h) hne
  exact ⟨s', hs', hraised.journal⟩

/-- A thunk inside a thunk needs a limit of two: one is not enough, and five come to the same. -/
theorem limit_raised_nested :
    (∃ w, (evaluate ⟨"", "/", false, 1⟩
      (.force (.delay (.force (.delay (.lit .null))))) .full).outcome = .error ⟨.depthLimit, w⟩) ∧
    Config.limit ⟨"", "/", false, 2⟩ ≤ Config.limit ⟨"", "/", false, 5⟩ ∧
    evaluate ⟨"", "/", false, 5⟩ (.force (.delay (.force (.delay (.lit .null))))) .full =
      evaluate ⟨"", "/", false, 2⟩ (.force (.delay (.force (.delay (.lit .null))))) .full := by
  have hle : Config.limit ⟨"", "/", false, 2⟩ ≤ Config.limit ⟨"", "/", false, 5⟩ := by decide
  have hok : (evaluate ⟨"", "/", false, 2⟩ (.force (.delay (.force (.delay (.lit .null)))))
      .full).outcome.toOption.isSome = true := by decide +kernel
  refine ⟨⟨none, rfl⟩, hle, (limit_raised ⟨"", "/", false, 2⟩ 5 hle _
    (Expr.propagates_of_passesOn 5 rfl) .full).2.resolve_left ?_⟩
  rintro ⟨w, hw⟩
  rw [hw] at hok
  cases hok

end NixKernel
