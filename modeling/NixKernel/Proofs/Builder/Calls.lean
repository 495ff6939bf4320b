import NixKernel.Proofs.Builder.Proper
import NixKernel.Proofs.Builder.Works
import NixKernel.Proofs.Reachable

/-!
Sequences of calls. From outside a set under construction is asked to go on, or for a name, or
something is evaluated; whatever comes of a call, the next one is made. If no expression goes on
after an error, then in every state that such a sequence passes, however deep inside, the sets under
construction are in order: one with an entry in progress is not built, and if it has failed then its
error is on the way out.
-/

namespace NixKernel

variable {α β ρ : Type} {s s' s'' s₀ : Store} {b : Addr .builder}

/-! ### Calls -/

/-- A call from outside. -/
inductive Call where
  | build (b : Addr .builder)
  | lookup (b : Addr .builder) (name : String)
  | eval (env : Env) (e : Expr)

/-- What a call runs. -/
def Call.comp : Call → Comp Unit
  | .build b => Comp.request (.build b)
  | .lookup b name => discard (Comp.lookupBuilder b name)
  | .eval env e => discard (Comp.eval env e)

/-- All expressions that a call brings in have a property. -/
def Call.All (P : Expr → Prop) : Call → Prop
  | .eval _ e => P e
  | _ => True

theorem Call.propagates_build (b : Addr .builder) :
    ∀ c ∈ [Call.build b], c.All Expr.Propagates := by
  intro c hc
  cases List.mem_singleton.mp hc
  trivial

/-- Calls one after the other, whatever comes of them. -/
def Comp.callAll : List Call → Comp Unit
  | [] => pure ()
  | c :: cs => do
    let _ ← c.comp.attempt
    callAll cs

theorem Rules.Permits.callFrom {R : Rules} {P : Expr → Prop} (h : R.Permits P) {c : Call}
    (hc : c.All P) : Comp.Fairly R c.comp := by
  cases c with
  | build b => exact h.request (q := .build b) trivial
  | lookup b name => exact (h.lookupBuilder b name).bind fun _ => .pure _
  | eval env e => exact (h.eval env hc).bind fun _ => .pure _

theorem Comp.callAll_fair {R : Rules} {P : Expr → Prop} (h : R.Permits P) (hR : R.catches)
    {calls : List Call} (hc : ∀ c ∈ calls, c.All P) (hs : R.holds s) :
    (callAll calls).Fair R s := by
  induction calls generalizing s with
  | nil => trivial
  | cons c calls ih =>
    exact Fair.attempt_bind hR (h.callFrom (hc c List.mem_cons_self) s hs) hs fun _ _ hs' =>
      ih (fun c hc' => hc c (List.mem_cons_of_mem _ hc')) hs'

/-- At the top level the next call is made whatever comes of the one before it. -/
def Rules.top : Rules := { Rules.plain with catches := True }

theorem Rules.top_permits : Rules.top.Permits Expr.Propagates :=
  { Rules.plain_permits with orElse := fun _ => trivial }

namespace Comp

/-- A computation keeps to the rules of the request that it is run for, or it has failed. At the top
level it may go on after an error. -/
def Behaves : Option Request → Comp α → Store → Prop
  | none, c, s => Rules.top.holds s ∧ c.Fair .top s
  | some q, c, s => ((Rules.frame q).holds s ∧ c.Fair (.frame q) s) ∨ ∃ e, c = .done (.error e)

section Behaves

variable {top : Option Request}

/-- An action leaves sets under construction alone, or sets a slot of the set of its entry. -/
theorem Behaves.act_cases {a : Action} {k : a.Answer → Comp α}
    (h : (Comp.act a k).Behaves top s) :
    a.Plain Expr.Propagates ∨ ∃ b name x isNew, top = some (.entry b) ∧
      a = .setSlot b name x isNew ∧ s.InProgress b ∧ s.Open b name x isNew := by
  cases top with
  | none => exact .inl h.2.1
  | some q =>
    rcases h with ⟨hs, ha, -⟩ | ⟨e, he⟩
    · refine (Rules.frame_act ha).imp_right ?_
      rintro ⟨b, name, x, isNew, rfl, rfl, ho, -⟩
      exact ⟨b, name, x, isNew, rfl, rfl, hs.1, ho⟩
    · cases he

theorem Behaves.act {a : Action} {k : a.Answer → Comp α} (h : (Comp.act a k).Behaves top s) :
    (k (a.perform s).1).Behaves top (a.perform s).2 := by
  cases top with
  | none =>
    obtain ⟨hs, ha, hk⟩ := h
    have hs' : (a.perform s).2.Propagates := Store.All.perform hs (Action.Plain.brings ha)
    exact ⟨hs', hk hs'⟩
  | some q =>
    rcases h with ⟨hs, ha, hk⟩ | ⟨e, he⟩
    · have hs' := (Rules.frame_turn hs ha).2
      exact .inl ⟨hs', hk hs'⟩
    · cases he

theorem Behaves.legal {q : Request} {k : Except Error q.Answer → Comp α}
    (h : (Comp.ask q k).Behaves top s) : q.Legal s := by
  cases top with
  | none => exact Request.Plain.legal h.2.1 h.1
  | some q' =>
    rcases h with ⟨hs, hq, -⟩ | ⟨e, he⟩
    · exact Rules.frame_ask hs hq
    · cases he

theorem Behaves.answered {q : Request} {k : Except Error q.Answer → Comp α}
    {r : Except Error q.Answer} (h : (Comp.ask q k).Behaves top s) (hr : q.Ends s r s') :
    (k r).Behaves top s' ∧ (top = none ∨ ∀ e, r = .error e → k r = .done (.error e)) := by
  have hlegal := h.legal
  have hs' := hlegal.kept hr
  cases top with
  | none =>
    refine ⟨⟨hs', ?_⟩, .inl rfl⟩
    cases r with
    | ok x => exact h.2.2.1 x s' hr hs'
    | error e =>
      rcases h.2.2.2 e s' hr with hk | ⟨-, hk⟩
      · rw [hk]
        trivial
      · exact hk hs'
  | some q' =>
    rcases h with ⟨hs, -, hok, herr⟩ | ⟨e, he⟩
    · cases r with
      | ok x =>
        have hholds := Rules.frame_keep hs (hlegal.turn hr) hs'
        exact ⟨.inl ⟨hholds, hok x s' hr hholds⟩, .inr fun e he => (by cases he)⟩
      | error e =>
        have hk := (herr e s' hr).resolve_right fun h => Rules.frame_not_catches h.1
        exact ⟨.inr ⟨e, hk⟩, .inr fun e' he => by cases he; exact hk⟩
    · cases he

theorem Behaves.turn {a : Action} {k : a.Answer → Comp α} (h : (Comp.act a k).Behaves top s) :
    s.Turn none (a.perform s).2 := by
  rcases h.act_cases with ha | ⟨b, name, x, isNew, -, rfl, hb, -⟩
  · exact ha.turn s
  · exact .setSlot hb name x isNew

theorem Behaves.works {a : Action} {k : a.Answer → Comp α} (h : (Comp.act a k).Behaves top s) :
    s.Works (a.perform s).2 := by
  rcases h.act_cases with ha | ⟨b, name, x, isNew, -, rfl, -, -⟩
  · exact ha.works s
  · exact .setSlot s b name x isNew

theorem Behaves.brings {a : Action} {k : a.Answer → Comp α} (h : (Comp.act a k).Behaves top s) :
    a.Brings Expr.Propagates := by
  cases top with
  | none => exact Action.Plain.brings h.2.1
  | some q =>
    rcases h with ⟨-, ha, -⟩ | ⟨e, he⟩
    · exact Rules.frame_brings ha
    · cases he

/-- Sets under construction stay proper. -/
theorem Behaves.proper {a : Action} {k : a.Answer → Comp α} (h : (Comp.act a k).Behaves top s)
    (hs : s.ProperAt b) : (a.perform s).2.ProperAt b := by
  refine hs.perform ?_
  rintro name x isNew rfl
  rcases h.act_cases with hp | ⟨b', name', x', isNew', -, hx, -, hopen⟩
  · exact hp.elim
  · cases hx
    exact hopen.isNew

end Behaves

end Comp

/-! ### Order -/

/-- The sets under construction are in order, inside a request or at the top level. -/
structure Comp.Orderly (top : Option Request) (c : Comp α) (s : Store) : Prop where
  behaves : c.Behaves top s
  flight : ∀ {b d e}, s.builders.get? b = some d → d.outcome = .failed e → 0 < d.active →
    c = .done (.error e)
  built : ∀ {b d a}, s.builders.get? b = some d → d.outcome = .built a → d.active = 0
  inside : ∀ {b}, top = some (.entry b) ∨ top = some (.assemble b) →
    ∃ d, s.builders.get? b = some d ∧ 0 < d.active
  outside : top = none → ∀ {b d}, s.builders.get? b = some d → d.active = 0

namespace Comp.Orderly

variable {top : Option Request} {c : Comp α}

/-- While something goes on, a set with an entry in progress is under way. -/
theorem underway {d : Builder} (h : c.Orderly top s) (hc : ∀ r, c ≠ .done r)
    (hb : s.builders.get? b = some d) (ha : 0 < d.active) : d.outcome = .underway := by
  cases hd : d.outcome with
  | underway => rfl
  | built a =>
    have := h.built hb hd
    omega
  | failed e => exact absurd (h.flight hb hd ha) (hc _)

/-- The order after something has been done or answered. -/
theorem turn {o : Option Error} {c' : Comp α} (h : c.Orderly top s) (hc : ∀ r, c ≠ .done r)
    (ht : s.Turn o s') (hb : c'.Behaves top s')
    (ho : top = none ∨ ∀ e, o = some e → c' = .done (.error e)) : c'.Orderly top s' := by
  -- an entry that is in progress now was in progress before
  have hold : ∀ {b d'}, s'.builders.get? b = some d' → 0 < d'.active →
      ∃ d, s.builders.get? b = some d ∧ d.outcome = .underway ∧ d.active = d'.active := by
    intro b d' hb' ha
    cases hb : s.builders.get? b with
    | none =>
      have := ht.fresh hb' hb
      omega
    | some d =>
      obtain ⟨d₁, hb₁, hages⟩ := ht.builder hb
      cases hb'.symm.trans hb₁
      exact ⟨d, rfl, h.underway hc hb (hages.active ▸ ha), hages.active.symm⟩
  refine ⟨hb, fun {b d' e} hb' hd' ha => ?_, fun {b d' a} hb' hd' => ?_, fun {b} htop => ?_,
    fun htop b d' hb' => ?_⟩
  · obtain ⟨d, hb, hd, hact⟩ := hold hb' ha
    rcases ht.outcome hb hb' hd with h₁ | ⟨-, a, h₁⟩ | ⟨e', he', h₁⟩
    · rw [hd'] at h₁; cases h₁
    · rw [hd'] at h₁; cases h₁
    · cases hd'.symm.trans h₁
      rcases ho with htop | ho
      · have := h.outside htop hb
        omega
      · exact ho e he'
  · by_contra ha
    obtain ⟨d, hb, hd, hact⟩ := hold hb' (Nat.pos_of_ne_zero ha)
    rcases ht.outcome hb hb' hd with h₁ | ⟨h₀, -⟩ | ⟨e', -, h₁⟩
    · rw [hd'] at h₁; cases h₁
    · omega
    · rw [hd'] at h₁; cases h₁
  · obtain ⟨d, hb, ha⟩ := h.inside htop
    obtain ⟨d', hb', hages⟩ := ht.builder hb
    exact ⟨d', hb', hages.active ▸ ha⟩
  · by_contra ha
    obtain ⟨d, hb, -, hact⟩ := hold hb' (Nat.pos_of_ne_zero ha)
    have := h.outside htop hb
    omega

theorem act {a : Action} {k : a.Answer → Comp α} (h : (Comp.act a k).Orderly top s) :
    (k (a.perform s).1).Orderly top (a.perform s).2 :=
  h.turn (fun _ h => by cases h) h.behaves.turn h.behaves.act (.inr fun _ he => by cases he)

theorem answered {q : Request} {k : Except Error q.Answer → Comp α} {r : Except Error q.Answer}
    (h : (Comp.ask q k).Orderly top s) (hr : q.Ends s r s') : (k r).Orderly top s' := by
  obtain ⟨hk, he⟩ := h.behaves.answered hr
  refine h.turn (fun _ h => by cases h) (h.behaves.legal.turn hr) hk
    (he.imp_right fun he e ho => ?_)
  cases r with
  | ok x => cases ho
  | error e' =>
    cases ho
    exact he _ rfl

/-- The order inside a request that has been started. -/
theorem start {q : Request} {k : Except Error q.Answer → Comp α} {c : Comp q.Answer}
    (h : (Comp.ask q k).Orderly top s) (hq : q.start s = .run c s') : c.Orderly (some q) s' := by
  have hunder : ∀ {b d}, s.builders.get? b = some d → 0 < d.active → d.outcome = .underway :=
    fun hb ha => h.underway (fun _ h => by cases h) hb ha
  -- the sets that were in progress still are, and the one that is entered is so now
  have hget : (∀ {b d'}, s'.builders.get? b = some d' → 0 < d'.active → d'.outcome = .underway) ∧
      ∀ {b}, q = .entry b ∨ q = .assemble b → ∃ d, s'.builders.get? b = some d ∧ 0 < d.active := by
    rcases h.behaves.legal.enters hq with ⟨b, f, hqb, ⟨d, hb, hd⟩, hs, hf⟩ | ⟨hp, hs⟩
    · refine ⟨fun {b' d'} hb' ha => ?_, fun {b'} hqb' => ?_⟩
      · rw [hs, Heap.get?_modify] at hb'
        split at hb'
        · subst b'
          rw [hb] at hb'
          cases hb'
          exact (hf d).1.trans hd
        · exact hunder hb' ha
      · have hbb : b' = b := by
          rcases hqb with rfl | rfl <;> rcases hqb' with h | h <;> cases h <;> rfl
        subst b'
        refine ⟨f d, ?_, (hf d).2 ▸ Nat.succ_pos _⟩
        rw [hs, Heap.get?_modify_self hb]
    · refine ⟨fun hb ha => hunder (hs ▸ hb) ha, fun hqb => ?_⟩
      rcases hqb with rfl | rfl <;> exact hp.elim
  refine ⟨.inl (h.behaves.legal.start_fair hq), fun hb hd ha => ?_, fun {b d a} hb hd => ?_,
    fun htop => hget.2 (htop.imp Option.some.inj Option.some.inj), fun htop => by cases htop⟩
  · rw [hget.1 hb ha] at hd; cases hd
  · by_contra ha
    rw [hget.1 hb (Nat.pos_of_ne_zero ha)] at hd; cases hd

/-- Only the error that the set has failed with comes out of an entry or the assembly. -/
theorem finish {q : Request} {r : Except Error q.Answer} {d : Builder}
    (h : (Comp.done r).Orderly (some q) s) (hb : s.builders.get? b = some d)
    (hd : d.outcome ≠ .underway) :
    ∃ d', (q.finish r s).builders.get? b = some d' ∧ d'.set = d.set ∧ d'.err = d.err := by
  have hfailed : q = .entry b ∨ q = .assemble b → ∃ e, d.outcome = .failed e ∧ r = .error e := by
    intro hq
    obtain ⟨d', hb', ha⟩ := h.inside (hq.imp (congrArg some) (congrArg some))
    cases hb.symm.trans hb'
    cases hd' : d.outcome with
    | underway => exact absurd hd' hd
    | built a =>
      have := h.built hb hd'
      omega
    | failed e => exact ⟨e, rfl, by injection h.flight hb hd' ha⟩
  -- if the set itself is left, then with the error that it has failed with already
  have hleave : ∀ {b' out}, (b' = b → ∃ e, d.outcome = .failed e ∧ out = some (.error e)) →
      ∃ d', (s.finishBuilder b' out).builders.get? b = some d' ∧ d'.set = d.set ∧
        d'.err = d.err := by
    intro b' out hout
    rw [Store.finishBuilder, Heap.get?_modify]
    split
    · obtain ⟨e, he, rfl⟩ := hout ‹_›
      rw [hb]
      exact ⟨_, rfl, rfl, (Builder.outcome_eq_failed.mp he).symm⟩
    · exact ⟨d, hb, rfl, rfl⟩
  cases q with
  | entry b' =>
    cases r with
    | ok x =>
      refine hleave fun hbb => ?_
      obtain ⟨e, -, he⟩ := hfailed (.inl (hbb ▸ rfl))
      cases he
    | error e =>
      refine hleave fun hbb => ?_
      obtain ⟨e', he', he⟩ := hfailed (.inl (hbb ▸ rfl))
      cases he
      exact ⟨e, he', rfl⟩
  | assemble b' =>
    refine hleave fun hbb => ?_
    obtain ⟨e, he, hr⟩ := hfailed (.inr (hbb ▸ rfl))
    exact ⟨e, he, congrArg some hr⟩
  | force t => exact ⟨d, (s.builders_finishForce t r).symm ▸ hb, rfl, rfl⟩
  | _ => exact ⟨d, hb, rfl, rfl⟩

/-- What has come of a set is not changed by a step. -/
theorem sticky {m m' : Machine ρ} {d : Builder} (hl : m.Leads m')
    (h : m.control.Orderly m.stack.top? m.store) (hb : m.store.builders.get? b = some d)
    (hd : d.outcome ≠ .underway) :
    ∃ d', m'.store.builders.get? b = some d' ∧ d'.set = d.set ∧ d'.err = d.err := by
  revert h hb
  refine Machine.leads_cases (P := fun m m' => m.control.Orderly m.stack.top? m.store →
    m.store.builders.get? b = some d →
      ∃ d', m'.store.builders.get? b = some d' ∧ d'.set = d.set ∧ d'.err = d.err) hl ?_ ?_ ?_ ?_
  · exact fun q r k st s h hb => h.finish hb hd
  · exact fun a k st s h hb => ⟨d, h.behaves.turn.settled hb hd, rfl, rfl⟩
  · exact fun q k st s r hq h hb => ⟨d, hb, rfl, rfl⟩
  · intro β q k st s c s' hq h hb
    rcases h.behaves.legal.enters hq with ⟨b', f, -, ⟨d', hb', hd'⟩, hs, -⟩ | ⟨-, hs⟩
    · have hne : b' ≠ b := by
        rintro rfl
        cases hb.symm.trans hb'
        exact hd hd'
      rw [hs, Heap.get?_modify, if_neg hne]
      exact ⟨d, hb, rfl, rfl⟩
    · exact ⟨d, hs ▸ hb, rfl, rfl⟩

end Comp.Orderly

/-! ### The past of a state -/

/-- What has been noted since the calls began: the entries of each set that have been taken up, and
its assembly at most once. What was settled then is as it was. -/
structure Store.Past (s₀ s : Store) : Prop extends s₀.Notes s where
  assembled : ∀ b, s.assemblies b = s₀.assemblies b ∨ (s.assemblies b = s₀.assemblies b + 1 ∧
    ∃ d, s.builders.get? b = some d ∧ (d.outcome = .underway → 0 < d.active))
  settled : ∀ {b d}, s₀.builders.get? b = some d → d.outcome ≠ .underway →
    s.builders.get? b = some d ∧ s.assemblies b = s₀.assemblies b

namespace Store.Past

theorem refl (s : Store) : s.Past s :=
  ⟨(Works.refl s).toNotes, fun _ => .inl rfl, fun hb _ => ⟨hb, rfl⟩⟩

theorem turn {o : Option Error} (h : s₀.Past s) (hw : s.Works s') (ht : s.Turn o s') :
    s₀.Past s' where
  toNotes := h.toNotes.trans hw.toNotes
  assembled b := by
    rcases h.assembled b with h₁ | ⟨h₁, d, hb, hd⟩
    · refine (hw.assembled b).imp (·.trans h₁) fun ⟨h₂, _, d', hb', hd', _⟩ =>
        ⟨by rw [h₂, h₁], d', hb', fun hu => absurd hu hd'⟩
    · rcases hw.assembled b with h₂ | ⟨-, hold, -⟩
      · obtain ⟨d', hb', hages⟩ := ht.builder hb
        refine .inr ⟨h₂.trans h₁, d', hb', fun hd' => hages.active ▸ hd ?_⟩
        by_contra hne
        cases (ht.settled hb hne).symm.trans hb'
        exact hne hd'
      · obtain ⟨hu, ha⟩ := hold d hb
        have := hd hu
        omega
  settled {b d} hb hd := by
    obtain ⟨hb₁, h₁⟩ := h.settled hb hd
    refine ⟨ht.settled hb₁ hd, ((hw.assembled b).resolve_right fun ⟨_, hold, _⟩ => ?_).trans h₁⟩
    exact hd (hold d hb₁).1

/-- The start of a request is noted. -/
theorem start {q : Request} {c : Comp q.Answer} (h : s₀.Past s) (hl : q.Legal s)
    (hq : q.start s = .run c s') : s₀.Past s' := by
  -- a set that is entered is under way, so it has not been settled
  have hmodify : ∀ {b f}, (∃ d, s.builders.get? b = some d ∧ d.outcome = .underway) →
      (∀ d : Builder, (f d).active = d.active + 1) → s'.builders = s.builders.modify b f →
      (∀ {b' d}, s.builders.get? b' = some d → d.outcome ≠ .underway →
        b ≠ b' ∧ s'.builders.get? b' = some d) ∧
      ∀ {b' d}, s.builders.get? b' = some d → (d.outcome = .underway → 0 < d.active) →
        ∃ d', s'.builders.get? b' = some d' ∧ (d'.outcome = .underway → 0 < d'.active) := by
    rintro b f ⟨d, hb, hd⟩ hf hs
    refine ⟨fun {b' d'} hb' hd' => ?_, fun {b' d'} hb' hd' => ?_⟩
    · have hne : b ≠ b' := by
        rintro rfl
        cases hb.symm.trans hb'
        exact hd' hd
      exact ⟨hne, by rw [hs, Heap.get?_modify, if_neg hne, hb']⟩
    · rw [hs, Heap.get?_modify, hb']
      split
      · exact ⟨f d', rfl, fun _ => hf d' ▸ Nat.succ_pos _⟩
      · exact ⟨d', rfl, hd'⟩
  rcases Request.start_builders hq with ⟨b, d, e, rfl, hb, -, hs, hj⟩ | ⟨b, rfl, hs, hj⟩ |
    ⟨-, hs, hj⟩
  · obtain ⟨hset, hmore⟩ := hmodify hl.due (fun _ => rfl) hs
    have hsame : ∀ b', s'.assemblies b' = s.assemblies b' :=
      fun b' => Store.assemblies_cons hj fun h => by cases h
    refine ⟨h.toNotes.trans (Store.works_startEntry hb hs hj).toNotes, fun b' => ?_,
      fun hb₀ hd₀ => ?_⟩
    · rw [hsame]
      exact (h.assembled b').imp_right fun ⟨h₁, d', hb', hd'⟩ => ⟨h₁, hmore hb' hd'⟩
    · obtain ⟨hb₁, h₁⟩ := h.settled hb₀ hd₀
      exact ⟨(hset hb₁ hd₀).2, (hsame _).trans h₁⟩
  · obtain ⟨d, hb, hd, ha, -⟩ := hl.due
    obtain ⟨hset, hmore⟩ := hmodify ⟨d, hb, hd⟩ (fun _ => rfl) hs
    have hsame : ∀ {b'}, b ≠ b' → s'.assemblies b' = s.assemblies b' :=
      fun hne => Store.assemblies_cons hj fun h => hne (by injection h)
    refine ⟨h.toNotes.trans (.of_eq (.inr ⟨_, hj, fun _ _ h => by cases h⟩)
      (Store.nextOf_modify hs fun _ => rfl)), fun b' => ?_, fun hb₀ hd₀ => ?_⟩
    · by_cases hbb : b = b'
      · subst b'
        refine .inr ⟨?_, { d with active := d.active + 1 }, ?_, fun _ => Nat.succ_pos _⟩
        · rw [Store.assemblies_cons_self hj, (h.assembled b).resolve_right]
          rintro ⟨-, d', hb', hd'⟩
          cases hb.symm.trans hb'
          have := hd' hd
          omega
        · rw [hs, Heap.get?_modify_self hb]
      · rw [hsame hbb]
        exact (h.assembled b').imp_right fun ⟨h₁, d', hb', hd'⟩ => ⟨h₁, hmore hb' hd'⟩
    · obtain ⟨hb₁, h₁⟩ := h.settled hb₀ hd₀
      obtain ⟨hne, hb'⟩ := hset hb₁ hd₀
      exact ⟨hb', (hsame hne).trans h₁⟩
  · refine h.turn (.of_eq (hj.imp_right fun ⟨t, hj⟩ => ⟨_, hj, fun b => ⟨fun h => (by cases h),
      fun i h => (by cases h)⟩⟩) fun b => ?_) (Store.Turn.of_eq hs none)
    rw [Store.nextOf, hs, Store.nextOf]

end Store.Past

/-! ### Stores between runs -/

/-- No entry of any set is in progress. -/
def Store.Idle (s : Store) : Prop := ∀ b d, s.builders.get? b = some d → d.active = 0

/-- Between runs no entry is in progress. -/
theorem Store.Reachable.idle (h : s.Reachable) : s.Idle := by
  refine h.induction (fun b d hb => ?_) fun {s s'} hs hp => ?_
  · simp [initial, Heap.get?, Heap.empty] at hb
  · cases hp with
    | run hr =>
      have hages := ages_law.ends hr
      intro b d' hb'
      cases hb : s.builders.get? b with
      | none => exact hages.fresh hb' hb
      | some d =>
        obtain ⟨d₁, hb₁, hd⟩ := hages.builder hb
        cases hb'.symm.trans hb₁
        exact hd.active.trans (hs b d hb)
    | _ => exact hs

/-- The stores that can come about if no expression goes on after an error: threads are made, set up
and given scopes, and whatever is run is plain and brings in no such expression. -/
inductive Store.Arises : Store → Prop
  | initial : Store.initial.Arises
  | newThread {s : Store} (h : s.Arises) (c : Config) : (s.newThread c).2.Arises
  | configure {s : Store} (h : s.Arises) (a : Addr .thread) (f : Config → Config) :
      Store.Arises
        { s with threads := s.threads.modify a fun t => { t with config := f t.config } }
  | newEnv {s : Store} (h : s.Arises) (a : Addr .thread) : (s.newEnv a).2.Arises
  | turnPage {s : Store} (h : s.Arises) : Store.Arises { s with journal := [] }
  | run {α : Type} {s s' : Store} {c : Comp α} {r : Except Error α} (h : s.Arises)
      (hc : c.Fair .top s) (hr : c.Ends s r s') : s'.Arises

/-- No entry is in progress, no expression in the store goes on after an error, and all sets under
construction are proper. -/
structure Store.Rested (s : Store) : Prop where
  idle : s.Idle
  propagates : s.Propagates
  proper : ∀ b, s.ProperAt b

/-- What is run at the top level keeps sets under construction proper. -/
theorem Comp.Fair.rested {c : Comp α} {r : Except Error α} (hc : c.Fair .top s)
    (hs : s.Propagates) (hr : c.Ends s r s') :
    s'.Propagates ∧ ∀ b, s.ProperAt b → s'.ProperAt b := by
  have hwithin : c.Fair (.within Expr.Propagates) s :=
    hc.mono id Action.Plain.brings Request.Plain.brings id
  refine ⟨hwithin.all Expr.propagates_hereditary hs hr, fun b => ?_⟩
  refine Comp.Fair.proper (fun hs ha => ⟨Store.All.perform hs (Action.Plain.brings ha), ?_⟩)
    (fun hs hq hr => ?_) hc hs hr
  · rintro b name x isNew rfl
    exact ha.elim
  · have hlegal := Request.Plain.legal hq hs
    exact ⟨hlegal, fun _ => hlegal.kept hr⟩

namespace Store.Arises

theorem reachable (h : s.Arises) : s.Reachable := by
  induction h with
  | initial => exact .refl _
  | newThread _ c ih => exact ih.step (.newThread _ c)
  | configure _ a f ih => exact ih.step (.configure _ a f)
  | newEnv _ a ih => exact ih.step (.newEnv _ a)
  | turnPage _ ih => exact ih.step (.turnPage _)
  | run _ _ hr ih => exact ih.step (.run hr)

/-- **Between runs all sets under construction are proper**, if no expression goes on after an
error. -/
theorem rested (h : s.Arises) : s.Rested := by
  suffices hs : s.Propagates ∧ ∀ b, s.ProperAt b from ⟨h.reachable.idle, hs.1, hs.2⟩
  induction h with
  | initial =>
    refine ⟨initial_all (Expr.propagates_of_passesOn 2 rfl), fun b d hb => ?_⟩
    simp [Store.initial, Heap.get?, Heap.empty] at hb
  | newThread _ _ ih => exact ⟨⟨⟨ih.1.thunk, ih.1.lambda⟩, ih.1.entries, ih.1.slots⟩, ih.2⟩
  | configure _ _ _ ih => exact ⟨⟨⟨ih.1.thunk, ih.1.lambda⟩, ih.1.entries, ih.1.slots⟩, ih.2⟩
  | newEnv _ _ ih => exact ⟨⟨⟨ih.1.thunk, ih.1.lambda⟩, ih.1.entries, ih.1.slots⟩, ih.2⟩
  | turnPage _ ih => exact ⟨⟨⟨ih.1.thunk, ih.1.lambda⟩, ih.1.entries, ih.1.slots⟩, ih.2⟩
  | run _ hc hr ih =>
    obtain ⟨hs, hproper⟩ := hc.rested ih.1 hr
    exact ⟨hs, fun b => hproper b (ih.2 b)⟩

/-- A set under construction is begun. -/
theorem newBuilder (h : s.Arises) (env : Env) {entries : List Entry} (recursive : Bool)
    (he : ∀ e ∈ entries, e.All Expr.Propagates) : (s.newBuilder env entries recursive).2.Arises :=
  .run h
    (Rules.top_permits.perform (a := .newBuilder env entries recursive) he s h.rested.propagates)
    (Comp.perform_ends (.newBuilder env entries recursive) s)

end Store.Arises

/-- The initial store with a new recursive set under construction, in the empty scope. -/
def Store.underway (entries : List Entry) : Store :=
  (Store.initial.newBuilder .empty entries true).2

theorem Store.arises_underway (n : Nat) {entries : List Entry}
    (h : (entries.all fun e => e.parts.all (Expr.passesOn n)) = true) :
    (Store.underway entries).Arises :=
  Store.Arises.initial.newBuilder .empty true (Entry.propagates_of_passesOn n h)

/-! ### All states that calls pass -/

/-- What holds in every state that calls pass, if no expression goes on after an error: order, and
what has been noted since the calls began. -/
structure Comp.Sound (s₀ : Store) (top : Option Request) (c : Comp α) (s : Store) : Prop
    extends c.Orderly top s where
  past : s₀.Past s
  propagates : s.Propagates
  proper : ∀ b, s.ProperAt b

theorem Comp.Sound.kept (s₀ : Store) :
    Machine.Claim.Kept fun top {_} c s => Comp.Sound s₀ top c s where
  act h := {
    toOrderly := h.toOrderly.act
    past := h.past.turn h.behaves.works h.behaves.turn
    propagates := h.propagates.perform h.behaves.brings
    proper := fun b => h.behaves.proper (h.proper b) }
  answered h hr := {
    toOrderly := h.toOrderly.answered hr
    past := h.past.turn (h.behaves.legal.works hr) (h.behaves.legal.turn hr)
    propagates := h.behaves.legal.kept hr
    proper := fun b => h.behaves.legal.proper hr (h.proper b) }
  inside h hq := {
    toOrderly := h.toOrderly.start hq
    past := h.past.start h.behaves.legal hq
    propagates := h.propagates.start hq
    proper := fun b => (h.proper b).start hq }

section Calls

variable {calls : List Call} (hs : s.Rested) (hc : ∀ c ∈ calls, c.All Expr.Propagates)

include hs hc

theorem Comp.callAll_sound : Comp.Sound s none (callAll calls) s where
  behaves := ⟨hs.propagates, callAll_fair Rules.top_permits trivial hc hs.propagates⟩
  flight hb _ ha := by
    rw [hs.idle _ _ hb] at ha
    cases ha
  built hb _ := hs.idle _ _ hb
  inside h := by rcases h with h | h <;> cases h
  outside _ _ _ hb := hs.idle _ _ hb
  past := .refl s
  propagates := hs.propagates
  proper := hs.proper

namespace Machine.Passes

variable {m m' : Machine Unit} (h : (load (.callAll calls) s).Passes m)

include h

/-- **In every state that calls pass** the sets under construction are in order. -/
theorem sound : Comp.Sound s m.stack.top? m.control m.store :=
  h.of_load (Comp.Sound.kept s) (Comp.callAll_sound hs hc)

/-- What has come of a set stays so in all that follows. -/
theorem settled (h' : m.Passes m') {d : Builder} (hb : m.store.builders.get? b = some d)
    (hd : d.outcome ≠ .underway) :
    ∃ d', m'.store.builders.get? b = some d' ∧ d'.set = d.set ∧ d'.err = d.err := by
  induction h' with
  | refl => exact ⟨d, hb, rfl, rfl⟩
  | tail hp hl ih =>
    obtain ⟨d₁, hb₁, hset₁, herr₁⟩ := ih
    have hd₁ : d₁.outcome ≠ .underway := by rwa [Builder.outcome_congr hset₁ herr₁]
    have horderly := ((h.trans hp).sound hs hc).toOrderly
    obtain ⟨d₂, hb₂, hset₂, herr₂⟩ := Comp.Orderly.sticky hl horderly hb₁ hd₁
    exact ⟨d₂, hb₂, hset₂.trans hset₁, herr₂.trans herr₁⟩

end Machine.Passes

end Calls

/-- A set under construction keeps its scope and its entries. -/
theorem Machine.Passes.builder {m m' : Machine ρ} (h : m.Passes m') {d : Builder}
    (hb : m.store.builders.get? b = some d) :
    ∃ d', m'.store.builders.get? b = some d' ∧ d'.env = d.env ∧ d'.entries = d.entries := by
  refine h.store (P := fun s => ∃ d', s.builders.get? b = some d' ∧ d'.env = d.env ∧
    d'.entries = d.entries) ?_ ?_ ?_ ⟨d, hb, rfl, rfl⟩
  · rintro a s ⟨d', hb', henv, hentries⟩
    obtain ⟨d'', hb'', hages⟩ := (Store.Ages.perform a s).builder hb'
    exact ⟨d'', hb'', hages.env.trans henv, hages.entries.trans hentries⟩
  · rintro q s c s' hq ⟨d', hb', henv, hentries⟩
    obtain ⟨f, hf, hcell⟩ := Request.start_cells hq
    have hkeeps := (hcell b d').1
    exact ⟨f b d', by rw [hf, hb']; rfl, hkeeps.env.trans henv, hkeeps.entries.trans hentries⟩
  · rintro q r s ⟨d', hb', henv, hentries⟩
    obtain ⟨f, hf, hcell⟩ := q.finish_cells r s
    have hkeeps := (hcell b d').1
    exact ⟨f b d', by rw [hf, hb']; rfl, hkeeps.env.trans henv, hkeeps.entries.trans hentries⟩

end NixKernel
