import NixKernel.Proofs.Passage
import NixKernel.Session

/-!
The stores that can come about. Threads are made, set up and given scopes, and computations are run
to an end, with a value or with an error; whatever a session does to its store is made of these.
-/

namespace NixKernel

namespace Store

/-- One thing that happens to a store at the top level. -/
inductive Proceeds : Store → Store → Prop
  | newThread (s : Store) (c : Config) : Proceeds s (s.newThread c).2
  | configure (s : Store) (a : Addr .thread) (f : Config → Config) :
      Proceeds s { s with threads := s.threads.modify a fun t => { t with config := f t.config } }
  | newEnv (s : Store) (a : Addr .thread) : Proceeds s (s.newEnv a).2
  /-- A new journal is begun. -/
  | turnPage (s : Store) : Proceeds s { s with journal := [] }
  | run {α : Type} {s s' : Store} {c : Comp α} {r : Except Error α} (h : c.Ends s r s') :
      Proceeds s s'

/-- One store comes about from another. -/
def LeadsTo : Store → Store → Prop := Relation.ReflTransGen Proceeds

/-- The store can come about. -/
def Reachable (s : Store) : Prop := initial.LeadsTo s

variable {s s' s'' : Store}

theorem LeadsTo.refl (s : Store) : s.LeadsTo s := Relation.ReflTransGen.refl

theorem LeadsTo.trans (h : s.LeadsTo s') (h' : s'.LeadsTo s'') : s.LeadsTo s'' :=
  Relation.ReflTransGen.trans h h'

theorem Proceeds.leadsTo (h : s.Proceeds s') : s.LeadsTo s' := Relation.ReflTransGen.single h

theorem Reachable.step (h : s.Reachable) (h' : s.Proceeds s') : s'.Reachable :=
  h.trans h'.leadsTo

/-- What the first store has and everything that happens keeps, every store has. -/
theorem Reachable.induction {P : Store → Prop} (h : s.Reachable) (h₀ : P initial)
    (hstep : ∀ {s s'}, P s → s.Proceeds s' → P s') : P s := by
  induction h with
  | refl => exact h₀
  | tail _ h' ih => exact hstep ih h'

end Store

/-! ### States that can come about -/

namespace Machine

variable {ρ σ : Type}

/-- The state is passed by some run on a store that can come about. -/
def Reachable (m : Machine ρ) : Prop :=
  ∃ (c : Comp ρ) (s : Store), s.Reachable ∧ (load c s).Passes m

/-- One state comes before another: in the same run, or in an earlier one. -/
inductive Precedes : {ρ σ : Type} → Machine ρ → Machine σ → Prop
  | refl {ρ : Type} (m : Machine ρ) : Precedes m m
  | step {ρ σ : Type} {m : Machine ρ} {m' m'' : Machine σ} (h : Precedes m m')
      (h' : m'.Leads m'') : Precedes m m''
  /-- A run has come to its result, and another one begins. -/
  | next {ρ σ τ : Type} {m : Machine ρ} {m' : Machine σ} {r : Except Error σ} {s s' : Store}
      (h : Precedes m m') (hr : m'.step = .inr (r, s)) (hs : s.LeadsTo s') (c : Comp τ) :
      Precedes m (load c s')

/-- Only a computation that is done, with nothing around it, gives the result. -/
theorem step_result {m : Machine ρ} {r : Except Error ρ} {s : Store}
    (h : m.step = .inr (r, s)) : m = ⟨.done r, .nil, s⟩ := by
  obtain ⟨c, st, s₀⟩ := m
  cases c with
  | done r₀ =>
    cases st with
    | nil => cases h; rfl
    | cons q k rest => cases h
  | act a k => cases h
  | ask q k =>
    simp only [Machine.step, advance] at h
    split at h <;> cases h

/-- What the first state has, every step keeps, and everything at the top level keeps, every later
state has. -/
theorem Precedes.store {P : Store → Prop} {m : Machine ρ} {m' : Machine σ} (h : m.Precedes m')
    (act : ∀ (a : Action) s, P s → P (a.perform s).2)
    (start : ∀ (q : Request) s (c : Comp q.Answer) s', q.start s = .run c s' → P s → P s')
    (finish : ∀ (q : Request) (r : Except Error q.Answer) s, P s → P (q.finish r s))
    (proceeds : ∀ {s s' : Store}, s.Proceeds s' → P s → P s')
    (hm : P m.store) : P m'.store := by
  induction h with
  | refl => exact hm
  | step _ h' ih => exact h'.passes.store act start finish (ih hm)
  | next _ hr hs _ ih =>
    have hP := ih hm
    rw [step_result hr] at hP
    induction hs with
    | refl => exact hP
    | tail _ h' ih' => exact proceeds h' ih'

/-- The result that a passed state gives is the outcome of the run. -/
theorem Passes.ends {c : Comp ρ} {s s' : Store} {r : Except Error ρ} {m : Machine ρ}
    (h : (load c s).Passes m) (hr : m.step = .inr (r, s')) : c.Ends s r s' := by
  refine exists_run_load_iff.mp ?_
  generalize load c s = m₀ at h ⊢
  induction h using Relation.ReflTransGen.head_induction_on with
  | refl => exact ⟨1, by simp only [Machine.run, hr]⟩
  | head hl _ ih =>
    obtain ⟨n, hn⟩ := ih
    exact ⟨n + 1, by simp only [Machine.run, show Machine.step _ = _ from hl, hn]⟩

/-- What comes after a state that can come about can come about. -/
theorem Precedes.reachable {m : Machine ρ} {m' : Machine σ} (h : m.Precedes m')
    (hm : m.Reachable) : m'.Reachable := by
  induction h with
  | refl => exact hm
  | step _ h' ih =>
    obtain ⟨c, s, hs, hp⟩ := ih hm
    exact ⟨c, s, hs, hp.tail h'⟩
  | next _ hr hs c ih =>
    obtain ⟨c₀, s₀, hs₀, hp⟩ := ih hm
    exact ⟨c, _, (hs₀.step (.run (hp.ends hr))).trans hs, .refl _⟩

end Machine

/-! ### Sessions -/

/-- A computation that is executed is run to its end, or given up without effect. -/
theorem Comp.execute_leadsTo {α : Type} (c : Comp α) (s : Store) :
    s.LeadsTo (c.execute s).2 := by
  unfold Comp.execute
  split
  · rename_i p hp
    obtain ⟨r, s'⟩ := p
    have hends : c.Ends s r s' := Machine.exists_run_load_iff.mp ⟨_, hp⟩
    exact (Store.Proceeds.run hends).leadsTo
  · exact .refl s

namespace Session

theorem perform_leadsTo {α : Type} (x : Session) (c : Comp α)
    (k : α → Session → Session × Answer)
    (hk : ∀ (a : α) (y : Session), y.store.LeadsTo (k a y).1.store) :
    x.store.LeadsTo (x.perform c k).1.store := by
  have h := c.execute_leadsTo x.store
  unfold perform
  split
  · rename_i a s he
    rw [he] at h
    exact h.trans (hk a { x with store := s })
  · rename_i he
    rw [he] at h
    exact h

theorem present_leadsTo (x : Session) (v : Value) (mode : Mode) :
    x.store.LeadsTo (x.present v mode).1.store := by
  have h := (Comp.render v mode).execute_leadsTo x.store
  unfold present
  split <;> rename_i he <;> rw [he] at h <;> exact h

/-- An action alone is a run. -/
theorem action_leadsTo (a : Action) (s : Store) : s.LeadsTo (a.perform s).2 :=
  (Store.Proceeds.run (Comp.perform_ends a s)).leadsTo

theorem step_leadsTo (x : Session) (st : Step) : x.store.LeadsTo (x.step st).1.store := by
  cases st with
  | newThread t c => exact (Store.Proceeds.newThread x.store c).leadsTo
  | configure t ch => exact (Store.Proceeds.configure x.store (x.thread t) ch.apply).leadsTo
  | newScope e t => exact (Store.Proceeds.newEnv x.store (x.thread t)).leadsTo
  | shadowSet e src expr => exact x.perform_leadsTo _ _ fun _ y => .refl y.store
  | shadowBuilder e src b => exact .refl _
  | addNamespace e src expr => exact x.perform_leadsTo _ _ fun _ y => .refl y.store
  | lookup e name => exact x.perform_leadsTo _ _ fun _ y => .refl y.store
  | scopeInfo e => exact .refl _
  | newBuilder b e entries recursive =>
    exact action_leadsTo (.newBuilder (x.scope e) entries recursive) x.store
  | build b => exact x.perform_leadsTo _ _ fun _ y => .refl y.store
  | lookupBuilder b name =>
    exact x.perform_leadsTo _ _ fun r y => by cases r <;> exact .refl y.store
  | builtSet b =>
    simp only [step]
    split <;> exact .refl _
  | builderScope e b => exact .refl _
  | define r e expr => exact x.perform_leadsTo _ _ fun v y => action_leadsTo (.save r v) y.store
  | display r mode =>
    have h := (Comp.fetch r).execute_leadsTo x.store
    simp only [step]
    split
    · rename_i v s he
      rw [he] at h
      exact h.trans (present_leadsTo { x with store := s } v mode)
    · rename_i he
      rw [he] at h
      exact h

theorem reply_leadsTo (x : Session) (st : Step) : x.store.LeadsTo (x.reply st).1.store :=
  (Store.Proceeds.turnPage x.store).leadsTo.trans
    (step_leadsTo { x with store := { x.store with journal := [] } } st)

/-- **Sessions.** Whatever the steps of a session are, its store can come about. -/
theorem reachable (c : Config) (sts : List Step) :
    (sts.foldl (fun x st => (x.reply st).1) (start c)).store.Reachable := by
  have hstart : (start c).store.Reachable :=
    (Store.Proceeds.newThread _ c).leadsTo.trans (Store.Proceeds.newEnv _ _).leadsTo
  generalize start c = x at hstart
  induction sts generalizing x with
  | nil => exact hstart
  | cons st sts ih => exact ih _ (hstart.trans (x.reply_leadsTo st))

end Session

end NixKernel
