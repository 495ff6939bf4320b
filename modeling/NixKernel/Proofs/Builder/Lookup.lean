import NixKernel.Proofs.Builder.Built

/-!
What a set under construction answers. While an entry is in progress, a name is answered from what
is known so far: a plain definition with its thunk, and entries that have been collected with a
thunk that waits for the finished set. The finished set agrees with the answer, as long as no
expression goes on after an error, and unless an entry that was in progress goes on to define the
name: what was answered as not bound is bound then, and a plain definition that was answered has
become part of a larger set.
-/

namespace NixKernel

variable {α ρ : Type} {s s' s₀ s₁ : Store} {b : Addr .builder} {name : String} {a : Addr .set}

/-! ### What becomes known on the way -/

namespace Machine

variable {m m' : Machine ρ}

/-- The next step sets what is known of an attribute. -/
def Defines (m : Machine ρ) (b : Addr .builder) (name : String) : Prop :=
  ∃ x isNew k, m.control = .act (.setSlot b name x isNew) k

/-- On the way from one state to another an attribute is defined. -/
def DefinesUntil (m m' : Machine ρ) (b : Addr .builder) (name : String) : Prop :=
  ∃ m₁, m.Passes m₁ ∧ m₁.Passes m' ∧ m₁.Defines b name

theorem Leads.store_act (h : m.Leads m') {x : Action} {k : x.Answer → Comp m.α}
    (hc : m.control = .act x k) : m'.store = (x.perform m.store).2 := by
  rw [Leads, step, hc] at h
  cases h
  rfl

/-- What a step does to what is known of an attribute. -/
theorem Leads.known_cases (h : m.Leads m') (b : Addr .builder) (name : String) :
    m'.store.known b name = m.store.known b name ∨
    ∃ x isNew k, m.control = .act (.setSlot b name x isNew) k ∧
      m'.store = m.store.setSlot b name x isNew := by
  refine leads_cases (P := fun m m' => m'.store.known b name = m.store.known b name ∨
    ∃ x isNew k, m.control = .act (.setSlot b name x isNew) k ∧
      m'.store = m.store.setSlot b name x isNew) h ?_ ?_ ?_ ?_
  · exact fun q r k st s => .inl (Store.known_finish q r s b name)
  · intro β y k st s
    by_cases hy : ∃ x isNew, y = .setSlot b name x isNew
    · obtain ⟨x, isNew, rfl⟩ := hy
      exact .inr ⟨x, isNew, k, rfl, rfl⟩
    · exact .inl (Store.known_perform (fun x isNew hx => hy ⟨x, isNew, hx⟩) s)
  · exact fun _ _ _ _ _ _ => .inl rfl
  · exact fun q k st s c s' hq => .inl (Store.known_start hq b name)

theorem Leads.known (h : m.Leads m') (hno : ¬ m.Defines b name) :
    m'.store.known b name = m.store.known b name :=
  (h.known_cases b name).resolve_right fun ⟨x, isNew, k, hc, _⟩ => hno ⟨x, isNew, k, hc⟩

/-- What is known of an attribute changes only when it is defined. -/
theorem Passes.known (h : m.Passes m') (hno : ¬ m.DefinesUntil m' b name) :
    m'.store.known b name = m.store.known b name := by
  induction h with
  | refl => rfl
  | tail hp hl ih =>
    refine (hl.known fun hd => hno ⟨_, hp, hl.passes, hd⟩).trans (ih fun h => hno ?_)
    obtain ⟨m₁, h₁, h₂, hd⟩ := h
    exact ⟨m₁, h₁, h₂.tail hl, hd⟩

/-- What is known of an attribute is replaced, never taken away. -/
theorem Leads.known_some (h : m.Leads m') {x : Slot} (hk : m.store.known b name = some x) :
    ∃ y, m'.store.known b name = some y := by
  rcases h.known_cases b name with hsame | ⟨y, isNew, k, -, hs⟩
  · exact ⟨x, hsame.trans hk⟩
  · obtain ⟨d, hb, -⟩ := Option.bind_eq_some_iff.mp hk
    exact ⟨y, hs ▸ Store.known_setSlot_self hb y⟩

theorem Passes.known_some (h : m.Passes m') {x : Slot} (hk : m.store.known b name = some x) :
    ∃ y, m'.store.known b name = some y := by
  induction h with
  | refl => exact ⟨x, hk⟩
  | tail _ hl ih =>
    obtain ⟨y, hy⟩ := ih
    exact hl.known_some hy

theorem Passes.sets (h : m.Passes m') {x : Attrs Value} (ha : m.store.sets.get? a = some x) :
    m'.store.sets.get? a = some x :=
  h.store (P := fun s => s.sets.get? a = some x) (fun y s h => (Store.Later.perform y s).set h)
    (fun _ _ _ _ hq h => Store.sets_start hq ▸ h) (fun q r s h => Store.sets_finish q r s ▸ h) ha

end Machine

/-- Entries that have been collected for a name stay collected. -/
theorem Comp.Orderly.known_tree {m m' : Machine ρ} (hl : m.Leads m')
    (h : m.control.Orderly m.stack.top? m.store) {es : List Entry}
    (hk : m.store.known b name = some (.tree es)) :
    ∃ es', m'.store.known b name = some (.tree es') := by
  rcases hl.known_cases b name with hsame | ⟨y, isNew, k, hc, hs⟩
  · exact ⟨es, hsame.trans hk⟩
  · rw [hc] at h
    rcases h.behaves.act_cases with hp | ⟨b', name', y', isNew', -, hy, -, hopen⟩
    · exact hp.elim
    · cases hy
      cases y with
      | leaf v => cases hk.symm.trans (hopen.leaf v rfl)
      | tree es' =>
        obtain ⟨d, hb, -⟩ := Option.bind_eq_some_iff.mp hk
        exact ⟨es', hs ▸ Store.known_setSlot_self hb _⟩

/-! ### Attributes of the finished set -/

/-- An attribute of the set that has come of a construction. -/
def Store.attribute? (s : Store) (b : Addr .builder) (name : String) : Option Value :=
  (s.built? b).bind fun a => (s.attrs a).get? name

theorem Store.attribute?_eq_some {v : Value} : s.attribute? b name = some v ↔
    ∃ a m, s.built? b = some a ∧ s.sets.get? a = some m ∧ m.get? name = some v := by
  refine Option.bind_eq_some_iff.trans (exists_congr fun a => ?_)
  rw [Store.attrs]
  cases s.sets.get? a with
  | none => simp [Attrs.get?_empty]
  | some m => simp

theorem Store.attribute?_start {q : Request} {c : Comp q.Answer} (hq : q.start s = .run c s')
    (b : Addr .builder) (name : String) : s'.attribute? b name = s.attribute? b name := by
  simp only [Store.attribute?, Store.built?_start hq, Store.attrs, Store.sets_start hq]

/-- A finished set keeps its attributes. -/
theorem Comp.Orderly.attribute? {m m' : Machine ρ} {v : Value} (hl : m.Leads m')
    (h : m.control.Orderly m.stack.top? m.store) (hv : m.store.attribute? b name = some v) :
    m'.store.attribute? b name = some v := by
  obtain ⟨a, x, ha, hx, hv⟩ := Store.attribute?_eq_some.mp hv
  obtain ⟨d, hb, hd⟩ := Store.built?_eq_some.mp ha
  obtain ⟨d', hb', hset, herr⟩ :=
    Comp.Orderly.sticky hl h hb (by rw [hd]; exact fun h => by cases h)
  exact Store.attribute?_eq_some.mpr ⟨a, x,
    Store.built?_eq_some.mpr ⟨d', hb', (Builder.outcome_congr hset herr).trans hd⟩,
    hl.passes.sets hx, hv⟩

/-- A complete set answers with its attribute. -/
theorem Comp.ends_lookupComplete {v : Value} :
    (Comp.lookupComplete b name).Ends s (.ok v) s' ↔ s.attribute? b name = some v ∧ s' = s := by
  rw [Comp.lookupComplete, (Comp.perform_ends (.builder b) s).bind_iff, Store.attribute?,
    Store.built?]
  simp only [Action.perform]
  cases s.builders.get? b with
  | none => simp
  | some d =>
    cases hd : d.outcome with
    | underway =>
      obtain ⟨herr, hset⟩ := Builder.outcome_eq_underway.mp hd
      simp [herr, hset, hd, Outcome.set?]
    | failed e => simp [Builder.outcome_eq_failed.mp hd, hd, Outcome.set?]
    | built a =>
      obtain ⟨herr, hset⟩ := Builder.outcome_eq_built.mp hd
      simp only [herr, hset, hd, Option.bind_some, Outcome.set?, Store.attrs]
      constructor
      · intro h
        obtain ⟨x, s₁, h₁, h₂⟩ := Comp.ends_bind_ok.mp h
        obtain ⟨hx, rfl⟩ := Comp.ends_attrs.mp h₁
        rw [hx, Option.getD_some]
        cases hv : x.get? name with
        | none => simp [hv] at h₂
        | some w => simpa [hv, eq_comm] using h₂
      · rintro ⟨hv, rfl⟩
        cases hx : s'.sets.get? a with
        | none =>
          rw [hx] at hv
          cases hv
        | some x =>
          rw [hx, Option.getD_some] at hv
          refine (Comp.ends_attrs.mpr ⟨hx, rfl⟩).bind ?_
          rw [hv]
          exact Comp.ends_pure.mpr ⟨rfl, rfl⟩

/-! ### Thunks that wait for an attribute -/

/-- A finished set keeps its attributes when a value is forced. -/
theorem Comp.force_attribute? {v w : Value} {r : Except Error Value} (hs : s.Propagates)
    (h : (Comp.force w).Ends s r s') (hv : s.attribute? b name = some v) :
    s'.attribute? b name = some v := by
  obtain ⟨a, x, ha, hx, hv⟩ := Store.attribute?_eq_some.mp hv
  obtain ⟨d, hb, hd⟩ := Store.built?_eq_some.mp ha
  have hturn : s.Turn (failure? r) s' := by
    cases w with
    | thunk t =>
      exact Request.Legal.turn (q := .force t) ⟨hs, trivial, trivial⟩ (Comp.ends_request.mp h)
    | _ =>
      obtain ⟨-, rfl⟩ := Comp.ends_pure.mp h
      exact .refl _ _
  have hb' := hturn.settled hb (by rw [hd]; exact fun h => by cases h)
  exact Store.attribute?_eq_some.mpr
    ⟨a, x, Store.built?_eq_some.mpr ⟨d, hb', hd⟩, (Store.later_law.ends h).set hx, hv⟩

/-- The body of a thunk that waits for an attribute. -/
theorem Comp.ends_pending (env : Env) {u : Value} :
    (do Comp.force (← Comp.eval env (.pending b name))).Ends s (.ok u) s' ↔
      ∃ w, s.attribute? b name = some w ∧ (Comp.force w).Ends s (.ok u) s' := by
  have heval : ∀ {w s₁}, (Comp.eval env (.pending b name)).Ends s (.ok w) s₁ ↔
      s.attribute? b name = some w ∧ s₁ = s := fun {w s₁} => by
    rw [← Comp.ends_lookupComplete, Comp.eval, Comp.ends_request, Request.ends_run rfl]
    exact ⟨fun ⟨_, h, hs⟩ => hs ▸ h, fun h => ⟨s₁, h, rfl⟩⟩
  rw [Comp.ends_bind_ok]
  constructor
  · rintro ⟨w, s₁, h₁, h₂⟩
    obtain ⟨hw, rfl⟩ := heval.mp h₁
    exact ⟨w, hw, h₂⟩
  · rintro ⟨w, hw, h⟩
    exact ⟨w, s, heval.mpr ⟨hw, rfl⟩, h⟩

/-- A thunk that waits for an attribute: it has not been forced, or to the attribute. -/
def Store.Awaits (s : Store) (t : Addr .thunk) (b : Addr .builder) (name : String) : Prop :=
  s.thunks.get? t = some (.unforced .empty (.pending b name)) ∨
  s.thunks.get? t = some (.forcing .empty (.pending b name)) ∨
  ∃ u, s.thunks.get? t = some (.forced u) ∧ s.attribute? b name = some u

/-- A computation in a stack comes to what the request was started for. -/
theorem Machine.Passes.started {Q : Machine.Claim} (hQ : Q.Kept) {c : Comp ρ} {q : Request}
    {r : Except Error q.Answer} {k : Except Error q.Answer → Comp α} {st : Stack ρ α}
    (h : (load c s₀).Passes ⟨.done r, .cons q k st, s⟩) (hc : Q none c s₀) :
    ∃ s₁ c₁ s₂, Q st.top? (.ask q k) s₁ ∧ q.start s₁ = .run c₁ s₂ ∧ c₁.Ends s₂ r s := by
  obtain ⟨-, s₁, c₁, s₂, hq, hends, hrest⟩ := h.claim hQ hc
  exact ⟨s₁, c₁, s₂, hrest.claim, hq, hends r s (Comp.ends_done.mpr ⟨rfl, rfl⟩)⟩

theorem Store.Awaits.of_same {t : Addr .thunk} (h : s.Awaits t b name)
    (hcell : ∀ {x}, s.thunks.get? t = some x → s'.thunks.get? t = some x)
    (hattr : ∀ {v}, s.attribute? b name = some v → s'.attribute? b name = some v) :
    s'.Awaits t b name := by
  rcases h with h | h | ⟨u, h, hu⟩
  · exact .inl (hcell h)
  · exact .inr (.inl (hcell h))
  · exact .inr (.inr ⟨u, hcell h, hattr hu⟩)

/-- What a waiting thunk has been forced to is the attribute, if that is a set. -/
theorem Store.Awaits.finish {t : Addr .thunk} {c : Comp ρ} {r : Except Error Value}
    {k : Except Error Value → Comp α} {st : Stack ρ α} (h : s.Awaits t b name)
    (hc : Comp.Sound s₀ none c s₀)
    (hm : (Machine.load c s₀).Passes ⟨.done r, .cons (.force t) k st, s⟩)
    (hset : ∀ v, s.attribute? b name = some v → ∃ a, v = .set a)
    (hattr : ∀ {v}, s.attribute? b name = some v →
      (s.finishForce t r).attribute? b name = some v) : (s.finishForce t r).Awaits t b name := by
  obtain ⟨s₁, c₁, s₂, hsound, hq, hends⟩ :=
    Machine.Passes.started (q := .force t) (Comp.Sound.kept s₀) hm hc
  obtain ⟨env, body, ht₁, -, rfl, hs₂⟩ := Store.startForce_run hq
  have ht : s.thunks.get? t = some (.forcing env body) := by
    refine (Store.later_law.ends hends).forcing ?_
    rw [hs₂, Store.enter, Store.changeDepth_eq]
    simp only [Store.record, Store.setThunk, Heap.get?_modify, if_true, ht₁, Option.map_some]
  have hcell : ∀ x, ((s.leave env).setThunk t x).thunks.get? t = some x := fun x => by
    rw [Store.leave, Store.changeDepth_eq]
    simp only [Store.setThunk, Heap.get?_modify, if_true, ht, Option.map_some]
  -- the body that has been run is the one that looks the attribute up
  obtain ⟨rfl, rfl⟩ : env = .empty ∧ body = .pending b name := by
    rcases h with h | h | ⟨u, h, -⟩ <;> cases ht.symm.trans h
    exact ⟨rfl, rfl⟩
  rw [Store.finishForce_eq ht] at hattr ⊢
  cases r with
  | error e => exact .inl (hcell _)
  | ok u =>
    obtain ⟨w, hw, hforce⟩ := (Comp.ends_pending .empty).mp hends
    have hw' := Comp.force_attribute? (hsound.propagates.start hq) hforce hw
    obtain ⟨a, rfl⟩ := hset w hw'
    obtain ⟨hu, -⟩ := Comp.ends_pure.mp hforce
    cases hu
    exact .inr (.inr ⟨_, hcell _, hattr hw'⟩)

/-- A thunk that waits for an attribute goes on to wait, if the attribute is a set. -/
theorem Machine.Leads.awaits {c : Comp ρ} {m m' : Machine ρ} {t : Addr .thunk}
    (hc : Comp.Sound s₀ none c s₀) (hl : m.Leads m')
    (hm : (load c s₀).Passes m) (ho : m.control.Orderly m.stack.top? m.store)
    (hset : ∀ v, m.store.attribute? b name = some v → ∃ a, v = .set a)
    (h : m.store.Awaits t b name) : m'.store.Awaits t b name := by
  have hattr : ∀ {v}, m.store.attribute? b name = some v → m'.store.attribute? b name = some v :=
    fun hv => ho.attribute? hl hv
  clear ho
  revert hm hset h hattr
  -- only the start and the end of a forcing of this very thunk touch its cell
  refine leads_cases (P := fun m m' => (load c s₀).Passes m →
    (∀ v, m.store.attribute? b name = some v → ∃ a, v = .set a) → m.store.Awaits t b name →
    (∀ {v}, m.store.attribute? b name = some v → m'.store.attribute? b name = some v) →
    m'.store.Awaits t b name) hl ?_ ?_ ?_ ?_
  · intro β q r k st s hm hset h hattr
    by_cases hq : q = .force t
    · subst hq
      exact h.finish hc hm hset hattr
    · refine h.of_same (fun {x} hx => ?_) hattr
      rcases q.finish_cases r s with ⟨t', env, body, y, rfl, -, -, he, -⟩ | ⟨-, he, -⟩
      · have hne : t' ≠ t := fun h => hq (h ▸ rfl)
        dsimp only
        rw [he, Heap.get?_modify, if_neg hne, hx]
      · dsimp only
        rw [he, hx]
  · exact fun x k st s _ _ h hattr => h.of_same (Store.get?_thunks_perform x) hattr
  · exact fun _ _ _ _ _ _ _ _ h _ => h
  · intro β q k st s c' s' hq _ _ h hattr
    rcases Request.start_cases hq with ⟨t', env, body, -, ht', -, he, -⟩ | ⟨-, he, -⟩
    · by_cases htt : t' = t
      · subst htt
        rcases h with h | h | ⟨u, h, -⟩ <;> cases ht'.symm.trans h
        refine .inr (.inl ?_)
        dsimp only
        rw [he, Heap.get?_modify_self ht']
      · refine h.of_same (fun {x} hx => ?_) hattr
        dsimp only
        rw [he, Heap.get?_modify, if_neg htt, hx]
    · refine h.of_same (fun {x} hx => ?_) hattr
      dsimp only
      rw [he, hx]

/-- Forcing a thunk that waits for an attribute yields it, if it is a set and the thunk is not being
forced. -/
theorem Store.Awaits.force {t : Addr .thunk} (h : s.Awaits t b name)
    (hv : s.attribute? b name = some (.set a)) (ht : ¬ s.Forcing t) :
    ∃ s', (Comp.force (.thunk t)).Ends s (.ok (.set a)) s' := by
  rcases h with h | h | ⟨u, h, hu⟩
  · have hstart : (Request.force t).start s = .run
        (do Comp.force (← Comp.eval .empty (.pending b name)))
        (((s.enter .empty).setThunk t (.forcing .empty (.pending b name))).record (.force t)) := by
      simp only [Request.start, Store.startForce, h]
      exact if_neg (by simp [Store.atLimit, Store.thread?, Env.empty])
    have hbody := (Comp.ends_pending .empty).mpr
      ⟨.set a, (Store.attribute?_start hstart b name).trans hv, Comp.ends_pure.mpr ⟨rfl, rfl⟩⟩
    exact ⟨_, Comp.ends_request.mpr ((Request.ends_run hstart).mpr ⟨_, hbody, rfl⟩)⟩
  · exact absurd ⟨_, _, h⟩ ht
  · cases hv.symm.trans hu
    exact ⟨s, (Store.forced_thunk h).ends⟩

/-! ### Answers -/

/-- What a set answers for a name: an attribute of the finished set, or what is known so far. -/
theorem Comp.lookupBuilder_cases {d : Builder} {o : Option Value} (hs : s.Propagates)
    (hb : s.builders.get? b = some d)
    (h : (Comp.lookupBuilder b name).Ends s (.ok o) s') :
    (∃ a x, s'.built? b = some a ∧ s'.sets.get? a = some x ∧ o = x.get? name) ∨
    (s'.built? b = none ∧ ((s'.known b name = none ∧ o = none) ∨
      (∃ v, s'.known b name = some (.leaf v) ∧ o = some v) ∨
      ∃ es t, s'.known b name = some (.tree es) ∧ o = some (.thunk t) ∧ s'.Awaits t b name)) := by
  obtain ⟨u, s₁, h₁, h₂⟩ := ends_bind_ok.mp h
  obtain ⟨d₁, hb₁, -⟩ := (Store.ages_law.ends h₁).builder hb
  replace h₂ := (Comp.perform_ends (.builder b) s₁).bind_iff.mp h₂
  simp only [Action.perform, hb₁] at h₂
  -- a set that is not finished yet answers from its slots
  have hopen : d₁.set = none → s₁.built? b = none := by
    intro hd
    rw [Store.built?, hb₁, Option.bind_some]
    cases hd₁ : d₁.outcome with
    | built a => cases hd.symm.trans (Builder.set_of_built hd₁)
    | _ => rfl
  split at h₂
  · rename_i a hset
    obtain ⟨x, s₂, h₃, h₄⟩ := ends_bind_ok.mp h₂
    obtain ⟨hx, rfl⟩ := Comp.ends_attrs.mp h₃
    obtain ⟨ho, rfl⟩ := Comp.ends_pure.mp h₄
    have herr : d₁.err = none := Request.build_err hs hb (Comp.ends_request.mp h₁) hb₁
    exact .inl ⟨a, x, Store.built?_eq_some.mpr
      ⟨d₁, hb₁, Builder.outcome_eq_built.mpr ⟨herr, hset⟩⟩, hx, Except.ok.inj ho⟩
  · rename_i hset hk
    obtain ⟨ho, rfl⟩ := Comp.ends_pure.mp h₂
    exact .inr ⟨hopen hset, .inl ⟨(Store.known_eq hb₁).trans hk, Except.ok.inj ho⟩⟩
  · rename_i v hset hk
    obtain ⟨ho, rfl⟩ := Comp.ends_pure.mp h₂
    exact .inr ⟨hopen hset, .inr (.inl ⟨v, (Store.known_eq hb₁).trans hk, Except.ok.inj ho⟩)⟩
  · rename_i es hset hk
    obtain ⟨w, s₂, h₃, h₄⟩ := ends_bind_ok.mp h₂
    obtain ⟨ho, rfl⟩ := Comp.ends_pure.mp h₄
    obtain ⟨t, s₃, h₅, h₆⟩ := ends_bind_ok.mp h₃
    obtain ⟨ht, rfl⟩ := Comp.ends_perform.mp h₅
    obtain ⟨hw, rfl⟩ := Comp.ends_pure.mp h₆
    cases ho
    cases hw
    cases ht
    exact .inr ⟨hopen hset, .inr (.inr ⟨es, _, (Store.known_eq hb₁).trans hk, rfl,
      .inl (Heap.get?_push_next _ _)⟩)⟩

section Passage

variable {calls : List Call} {m m' : Machine Unit} (hs : s₀.Rested)
  (hc : ∀ c ∈ calls, c.All Expr.Propagates) (hm : (Machine.load (.callAll calls) s₀).Passes m)

include hs hc hm

/-- Nothing is defined in a finished set. -/
theorem Machine.Passes.not_defines (ha : m.store.built? b = some a) : ¬ m.Defines b name := by
  rintro ⟨x, isNew, k, hcontrol⟩
  have ho := hm.sound hs hc
  rw [hcontrol] at ho
  rcases ho.behaves.act_cases with hp | ⟨b', name', y, isNew', -, hx, hb, -⟩
  · exact hp
  · cases hx
    cases hb.built?.symm.trans ha

/-- What has been defined in a set is known when it is finished. -/
theorem Machine.Passes.known_of_defines (hd : m.Defines b name) (hm' : m.Passes m')
    (ha : m'.store.built? b = some a) : ∃ x, m'.store.known b name = some x := by
  rcases hm'.cases_head with rfl | ⟨m₁, hl, h₁⟩
  · exact absurd hd (hm.not_defines hs hc ha)
  · obtain ⟨x, isNew, k, hcontrol⟩ := hd
    have ho := hm.sound hs hc
    rw [hcontrol] at ho
    rcases ho.behaves.act_cases with hp | ⟨b', name', y, isNew', -, hx, ⟨d, hb, -⟩, -⟩
    · exact hp.elim
    · cases hx
      have hk : m₁.store.known b name = some x := by
        rw [hl.store_act hcontrol]
        exact Store.known_setSlot_self hb x
      exact Machine.Passes.known_some h₁ hk

/-- A finished set stays the same set. -/
theorem Machine.Passes.built? (hm' : m.Passes m') (ha : m.store.built? b = some a) :
    m'.store.built? b = some a := by
  obtain ⟨d, hb, hd⟩ := Store.built?_eq_some.mp ha
  obtain ⟨d', hb', hset, herr⟩ :=
    hm.settled hs hc hm' hb (by rw [hd]; exact fun h => by cases h)
  exact Store.built?_eq_some.mpr ⟨d', hb', (Builder.outcome_congr hset herr).trans hd⟩

/-- A set is finished only after the states in which it is not. -/
theorem Machine.Passes.of_open (hn : m.store.built? b = none)
    (hm' : (load (.callAll calls) s₀).Passes m') (ha : m'.store.built? b = some a) :
    m.Passes m' := by
  refine (Relation.ReflTransGen.total_of_right_unique ?_ hm hm').resolve_right fun h => ?_
  · intro m₀ m₁ m₂ h₁ h₂
    exact Sum.inl.inj (h₁.symm.trans h₂)
  · cases hn.symm.trans (hm'.built? hs hc h ha)

/-- If a set is not finished in some state, then whenever it is, it is what is known of it. -/
theorem Machine.Passes.faithful_of_open (hn : m.store.built? b = none)
    (hm' : (load (.callAll calls) s₀).Passes m') : m'.store.Faithful b := by
  refine hm'.faithful hs hc ?_
  cases ha : s₀.built? b with
  | none => rfl
  | some a => cases hn.symm.trans ((Passes.refl (load (.callAll calls) s₀)).built? hs hc hm ha)

/-- A thunk that waits for entries collected for a name goes on to wait. -/
theorem Machine.Passes.awaits {t : Addr .thunk} {es : List Entry} (hm' : m.Passes m')
    (hn : m.store.built? b = none) (hk : m.store.known b name = some (.tree es))
    (ht : m.store.Awaits t b name) :
    (∃ es', m'.store.known b name = some (.tree es')) ∧ m'.store.Awaits t b name := by
  induction hm' with
  | refl => exact ⟨⟨es, hk⟩, ht⟩
  | tail hp hl ih =>
    obtain ⟨⟨es', hk'⟩, ht'⟩ := ih
    have ho := ((hm.trans hp).sound hs hc).toOrderly
    refine ⟨ho.known_tree hl hk',
      hl.awaits (Comp.callAll_sound hs hc) (hm.trans hp) ho (fun v hv => ?_) ht'⟩
    obtain ⟨a, ha, hv⟩ := Option.bind_eq_some_iff.mp hv
    obtain ⟨v', hv', hset⟩ := (hm.faithful_of_open hs hc hn (hm.trans hp)).get?_of_some ha hk'
    cases hv.symm.trans hv'
    exact hset

end Passage

/-- **Answers during construction.** No expression goes on after an error, neither in the store nor
in what is called, so no entry passes over the error of another one. A set under construction is
asked for a name, anywhere in a sequence of calls, and it answers without an error; later it is
finished. If the name was answered as not bound, it is not an attribute of the finished set, unless
it has been defined in between, and only then. If it was answered with a value, it is an attribute
of the finished set, and forcing the value comes to the same as forcing the attribute, unless the
answer was a plain definition and the name has been defined again in between. -/
theorem lookup_consistent {calls : List Call} {f : Except Error (Option Value) → Comp α}
    {st : Stack Unit α} {d : Builder} {o : Option Value} {m : Machine Unit} (hs : s₀.Arises)
    (hc : ∀ c ∈ calls, c.All Expr.Propagates)
    (hm : (Machine.load (.callAll calls) s₀).Passes
      ⟨(Comp.lookupBuilder b name).attempt >>= f, st, s⟩)
    (hb : s.builders.get? b = some d) (ho : (Comp.lookupBuilder b name).Ends s (.ok o) s₁)
    (hm' : Machine.Passes ⟨f (.ok o), st, s₁⟩ m) (ha : m.store.built? b = some a) :
    (o = none → ((m.store.attrs a).get? name = none ↔
      ¬ Machine.DefinesUntil ⟨f (.ok o), st, s₁⟩ m b name)) ∧
    ∀ v, o = some v →
      (∀ u, s₁.known b name = some (.leaf u) →
        ¬ Machine.DefinesUntil ⟨f (.ok o), st, s₁⟩ m b name) →
      ∃ w, (m.store.attrs a).get? name = some w ∧
        ((∀ t, v = .thunk t → ¬ m.store.Forcing t) → ∀ r,
          (∃ s', (Comp.force v).Ends m.store r s') ↔ ∃ s', (Comp.force w).Ends m.store r s') := by
  replace hs := hs.rested
  have hm₁ := hm.trans (ho.passes f st)
  rcases Comp.lookupBuilder_cases (hm.sound hs hc).propagates hb ho with
    ⟨a', x, ha', hx, rfl⟩ | ⟨hn, hknown⟩
  · -- the set was finished already
    cases ha.symm.trans (hm₁.built? hs hc hm' ha')
    rw [Store.attrs, hm'.sets hx, Option.getD_some]
    refine ⟨fun hnone => iff_of_true hnone ?_, fun v hv _ => ⟨v, hv, fun _ _ => .rfl⟩⟩
    rintro ⟨m₂, h₁, -, hd⟩
    exact (hm₁.trans h₁).not_defines hs hc (hm₁.built? hs hc h₁ ha') hd
  · have hfaithful := hm₁.faithful_of_open hs hc hn (hm₁.trans hm')
    rcases hknown with ⟨hk, rfl⟩ | ⟨v, hk, rfl⟩ | ⟨es, t, hk, rfl, ht⟩
    · -- not bound
      refine ⟨fun _ => ⟨fun hnone => ?_, fun hno => ?_⟩, fun v hv => ?_⟩
      · rintro ⟨m₂, h₁, h₂, hd⟩
        obtain ⟨y, hy⟩ := (hm₁.trans h₁).known_of_defines hs hc hd h₂ ha
        obtain ⟨w, hw, -⟩ := hfaithful.get?_of_some ha hy
        cases hnone.symm.trans hw
      · exact hfaithful.get?_of_none ha ((hm'.known hno).trans hk)
      · cases hv
    · -- a plain definition
      refine ⟨fun hv => ?_, fun v' hv hno => ?_⟩
      · cases hv
      · obtain ⟨w, hw, rfl⟩ := hfaithful.get?_of_some ha ((hm'.known (hno v hk)).trans hk)
        cases hv
        exact ⟨_, hw, fun _ _ => .rfl⟩
    · -- entries that have been collected
      obtain ⟨⟨es', hk'⟩, ht'⟩ := hm₁.awaits hs hc hm' hn hk ht
      obtain ⟨w, hw, a', rfl⟩ := hfaithful.get?_of_some ha hk'
      have hattr : m.store.attribute? b name = some (.set a') :=
        Option.bind_eq_some_iff.mpr ⟨a, ha, hw⟩
      refine ⟨fun hv => ?_, fun v hv _ => ⟨_, hw, fun hfree r => ?_⟩⟩
      · cases hv
      · cases hv
        obtain ⟨s', hs'⟩ := ht'.force hattr (hfree t rfl)
        constructor
        · rintro ⟨s'', h⟩
          exact ⟨m.store, Comp.ends_pure.mpr ⟨(h.unique hs').1, rfl⟩⟩
        · rintro ⟨s'', h⟩
          obtain ⟨rfl, -⟩ := Comp.ends_pure.mp h
          exact ⟨s', hs'⟩

/-- The innermost frame is asked first, and the scope around it if it does not bind the name. -/
theorem Comp.lookup_withShadow (env : Env) (f : Frame) (name : String) :
    Comp.lookup (env.withShadow f) name = (do
      match ← Comp.lookupFrame name f with
      | some v => pure v
      | none => Comp.lookup env name) := by
  rw [Comp.lookup, show Comp.framesOf (env.withShadow f) = f :: Comp.framesOf env from rfl,
    Comp.lookupFrames, bind_assoc]
  refine congrArg _ (funext fun o => ?_)
  cases o with
  | some v => rfl
  | none => rfl

theorem Comp.lookup_eq_attempt (env : Env) (b : Addr .builder) (name : String) :
    ∃ f, Comp.lookup (env.withShadow (.builder b)) name =
      (Comp.lookupBuilder b name).attempt >>= f := by
  rw [Comp.lookup_withShadow, Comp.lookupFrame, Comp.bind_eq_attempt]
  exact ⟨_, rfl⟩

/-- The entries `p.x = 1` and `${...} = 2`, where the second name looks at the type of `p` without
forcing it. -/
def Entry.pendingPair : List Entry :=
  [⟨[.string "p", .string "x"], .lit (.int 1)⟩, ⟨[.lazyType (.var "p")], .lit (.int 2)⟩]

/-- In a recursive set of these entries, the second name looks at `p` while the set is under
construction. While it is evaluated, `p` is answered with a thunk; when the set is finished, the
thunk and the attribute `p` come to the same. -/
theorem lookup_consistent_pending : ∃ (s₀ s s₁ : Store)
    (f : Except Error (Option Value) → Comp Value) (st : Stack Unit Value) (v w : Value)
    (m : Machine Unit) (a : Addr .set), s₀.Arises ∧
    (Machine.load (.callAll [.build ⟨0⟩]) s₀).Passes
      ⟨(Comp.lookupBuilder ⟨0⟩ "p").attempt >>= f, st, s⟩ ∧
    (Comp.lookupBuilder ⟨0⟩ "p").Ends s (.ok (some v)) s₁ ∧ s₁.built? ⟨0⟩ = none ∧
    Machine.Passes ⟨f (.ok (some v)), st, s₁⟩ m ∧ m.store.built? ⟨0⟩ = some a ∧
    (m.store.attrs a).get? "p" = some w ∧
    ∀ r, (∃ s', (Comp.force v).Ends m.store r s') ↔ ∃ s', (Comp.force w).Ends m.store r s' := by
  have hs : (Store.underway Entry.pendingPair).Arises := Store.arises_underway 4 rfl
  have hc := Call.propagates_build ⟨0⟩
  have hask : ∃ (st : Stack Unit Value) (s s₁ : Store) (d : Builder) (es : List Entry),
      Machine.after 11 (Machine.load (.callAll [.build ⟨0⟩]) (Store.underway Entry.pendingPair)) =
        some ⟨Comp.lookup (Env.empty.withShadow (.builder ⟨0⟩)) "p", st, s⟩ ∧
      s.builders.get? ⟨0⟩ = some d ∧
      (Comp.lookupBuilder ⟨0⟩ "p").run 3 s = some (.ok (some (.thunk ⟨0⟩)), s₁) ∧
      s₁.built? ⟨0⟩ = none ∧ s₁.known ⟨0⟩ "p" = some (.tree es) :=
    ⟨_, _, _, _, _, rfl, rfl, rfl, rfl, rfl⟩
  obtain ⟨st, s, s₁, d, es, hafter, hb, hrun, hn, hk⟩ := hask
  obtain ⟨f, hf⟩ : ∃ f, Comp.lookup (Env.empty.withShadow (.builder ⟨0⟩)) "p" =
      (Comp.lookupBuilder ⟨0⟩ "p").attempt >>= f := Comp.lookup_eq_attempt .empty ⟨0⟩ "p"
  rw [hf] at hafter
  have hm := Machine.passes_of_after 11 hafter
  have ho : (Comp.lookupBuilder ⟨0⟩ "p").Ends s (.ok (some (.thunk ⟨0⟩))) s₁ := ⟨3, hrun⟩
  have hend : (Machine.after 47 (Machine.load (.callAll [.build ⟨0⟩])
      (Store.underway Entry.pendingPair))).map (fun m =>
      (m.store.built? ⟨0⟩, Thunk.marks (m.store.thunks.get? ⟨0⟩))) = some (some ⟨4⟩, 0) := by
    decide +kernel
  obtain ⟨m, hlast, hfacts⟩ := Option.map_eq_some_iff.mp hend
  obtain ⟨ha, hmarks⟩ := Prod.mk.inj hfacts
  have hm' := (hm.trans (ho.passes f st)).of_open hs.rested hc hn
    (Machine.passes_of_after 47 hlast) ha
  obtain ⟨w, hw, hforce⟩ := (lookup_consistent hs hc hm hb ho hm' ha).2 (.thunk ⟨0⟩) rfl
    fun u hu => by
    cases hk.symm.trans hu
  refine ⟨_, s, s₁, f, st, .thunk ⟨0⟩, w, m, ⟨4⟩, hs, hm, ho, hn, hm', ha, hw, ?_⟩
  refine hforce fun t ht hforcing => ?_
  cases ht
  cases hmarks.symm.trans (Store.marks_eq_one.mpr hforcing)

/-- The set that a value is. -/
def Value.set? : Value → Option (Addr .set)
  | .set a => some a
  | _ => none

theorem Value.set?_eq_some {v : Value} : v.set? = some a ↔ v = .set a := by
  cases v with
  | set a' => simp [Value.set?]
  | _ => simp [Value.set?]

/-- The entries `k = { q = 1; }` and `${...}.x = 2`, where the second name looks at `k` and comes to
`"k"`. -/
def Entry.mergedPair : List Entry :=
  [⟨[.string "k"], .eagerSet [("q", .lit (.int 1))]⟩,
    ⟨[.cond (.comparison .eq (.save "r" (.var "k")) (.lit .null)) (.lit (.str "z"))
      (.lit (.str "k")), .string "x"], .lit (.int 2)⟩]

/-- In a recursive set of these entries, the second name is not known to be `k` before it has been
evaluated. While it is evaluated, `k` is answered with the thunk of `{ q = 1; }`, which stays
what it is; the attribute `k` of the finished set has an attribute `x` too. -/
theorem lookup_inconsistent_merged : ∃ (s₀ s s₁ : Store)
    (f : Except Error (Option Value) → Comp Value) (st : Stack Unit Value) (v w : Value)
    (m : Machine Unit) (a c d : Addr .set), s₀.Arises ∧
    (Machine.load (.callAll [.build ⟨0⟩]) s₀).Passes
      ⟨(Comp.lookupBuilder ⟨0⟩ "k").attempt >>= f, st, s⟩ ∧
    (Comp.lookupBuilder ⟨0⟩ "k").Ends s (.ok (some v)) s₁ ∧ s₁.built? ⟨0⟩ = none ∧
    Machine.Passes ⟨f (.ok (some v)), st, s₁⟩ m ∧ m.store.built? ⟨0⟩ = some a ∧
    (m.store.attrs a).get? "k" = some w ∧
    (Comp.force v).Ends m.store (.ok (.set c)) m.store ∧
    (Comp.force w).Ends m.store (.ok (.set d)) m.store ∧
    (m.store.attrs c).keys = ["q"] ∧ (m.store.attrs d).keys = ["q", "x"] := by
  have hs : (Store.underway Entry.mergedPair).Arises := Store.arises_underway 6 rfl
  have hcalls := Call.propagates_build ⟨0⟩
  have hask : ∃ (st : Stack Unit Value) (s s₁ : Store),
      Machine.after 14 (Machine.load (.callAll [.build ⟨0⟩]) (Store.underway Entry.mergedPair)) =
        some ⟨Comp.lookup (Env.empty.withShadow (.builder ⟨0⟩)) "k", st, s⟩ ∧
      (Comp.lookupBuilder ⟨0⟩ "k").run 3 s = some (.ok (some (.thunk ⟨0⟩)), s₁) ∧
      s₁.built? ⟨0⟩ = none := ⟨_, _, _, rfl, rfl, rfl⟩
  obtain ⟨st, s, s₁, hafter, hrun, hn⟩ := hask
  obtain ⟨f, hf⟩ : ∃ f, Comp.lookup (Env.empty.withShadow (.builder ⟨0⟩)) "k" =
      (Comp.lookupBuilder ⟨0⟩ "k").attempt >>= f := Comp.lookup_eq_attempt .empty ⟨0⟩ "k"
  rw [hf] at hafter
  have hm := Machine.passes_of_after 14 hafter
  have ho : (Comp.lookupBuilder ⟨0⟩ "k").Ends s (.ok (some (.thunk ⟨0⟩))) s₁ := ⟨3, hrun⟩
  have hend : (Machine.after 72 (Machine.load (.callAll [.build ⟨0⟩])
      (Store.underway Entry.mergedPair))).map (fun m =>
      (m.store.built? ⟨0⟩, ((m.store.attrs ⟨5⟩).get? "k").bind Value.set?,
        (m.store.forced? ⟨0⟩).bind Value.set?,
        (m.store.attrs ⟨3⟩).keys, (m.store.attrs ⟨4⟩).keys)) =
      some (some ⟨5⟩, some ⟨4⟩, some ⟨3⟩, ["q"], ["q", "x"]) := by
    decide +kernel
  obtain ⟨m, hlast, hfacts⟩ := Option.map_eq_some_iff.mp hend
  obtain ⟨ha, hfacts⟩ := Prod.mk.inj hfacts
  obtain ⟨hk, hfacts⟩ := Prod.mk.inj hfacts
  obtain ⟨hv, hfacts⟩ := Prod.mk.inj hfacts
  obtain ⟨hc, hd⟩ := Prod.mk.inj hfacts
  obtain ⟨w, hw, hwset⟩ := Option.bind_eq_some_iff.mp hk
  obtain ⟨u, hu, huset⟩ := Option.bind_eq_some_iff.mp hv
  rw [Value.set?_eq_some] at hwset huset
  subst hwset huset
  have hm' := (hm.trans (ho.passes f st)).of_open hs.rested hcalls hn
    (Machine.passes_of_after 72 hlast) ha
  exact ⟨_, s, s₁, f, st, .thunk ⟨0⟩, .set ⟨4⟩, m, ⟨5⟩, ⟨3⟩, ⟨4⟩, hs, hm, ho, hn, hm', ha, hw,
    (Store.forced_thunk (Store.forced?_eq_some.mp hu)).ends, Comp.ends_pure.mpr ⟨rfl, rfl⟩, hc, hd⟩

end NixKernel
