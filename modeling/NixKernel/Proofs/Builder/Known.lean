import NixKernel.Proofs.Builder.Settled
import NixKernel.Proofs.Forcing

/-!
What is known of an attribute is not lost. An entry that is in progress may have read what is known
of an attribute long before it adds to it; but entries collected for a name stay collected, and a
plain definition stays as it is while its value is being forced, because whoever would add to it
would have to force it too.
-/

namespace NixKernel

variable {α : Type} {s s' s'' : Store} {b : Addr .builder} {name : String}

namespace Store

/-! ### What is kept -/

/-- Between two stores an expression has been evaluated as a name, to `o`. -/
def Evaluates (s s' : Store) (env : Env) (e : Expr) (o : Option String) : Prop :=
  ∃ s₁ s₂, s.journal <:+ s₁.journal ∧ s₂.journal <:+ s'.journal ∧
    (Comp.eval env e >>= Comp.forceName).Ends s₁ (.ok o) s₂

/-- Between two stores an entry of a set has been taken up to its end: its first name has been
evaluated, and if there is more in its path, that has been collected under the name. -/
def TakenUp (s s' : Store) (b : Addr .builder) (env : Env) (e : Entry) : Prop :=
  ∃ component rest o, e.path = component :: rest ∧ s.Evaluates s' env component o ∧
    ∀ name, o = some name → rest ≠ [] →
      ∃ es, s'.known b name = some (.tree es) ∧ ⟨rest, e.value⟩ ∈ es

/-- What every run keeps that succeeds. -/
structure Firm (s s' : Store) : Prop where
  later : s.Later s'
  ages : s.Ages s'
  journal : s.journal <:+ s'.journal
  /-- A plain definition stays while its value is being forced. -/
  locked : ∀ {b name t}, s.known b name = some (.leaf (.thunk t)) → s.Forcing t →
    s'.known b name = some (.leaf (.thunk t))
  /-- Entries that have been collected stay collected. -/
  grows : ∀ {b name es}, s.known b name = some (.tree es) →
    ∃ es', s'.known b name = some (.tree es') ∧ es ⊆ es'
  taken : ∀ {b d i e}, s.builders.get? b = some d → d.entries[i]? = some e → d.next ≤ i →
    i < s'.nextOf b → s.TakenUp s' b d.env e

theorem TakenUp.mono {s₀ s₁ : Store} {env : Env} {e : Entry} (h : s.TakenUp s' b env e)
    (h₀ : s₀.journal <:+ s.journal) (h₁ : s'.journal <:+ s₁.journal)
    (hg : ∀ {name es}, s'.known b name = some (.tree es) →
      ∃ es', s₁.known b name = some (.tree es') ∧ es ⊆ es') : s₀.TakenUp s₁ b env e := by
  obtain ⟨component, rest, o, hp, ⟨t₁, t₂, ht₁, ht₂, hends⟩, hknown⟩ := h
  refine ⟨component, rest, o, hp, ⟨t₁, t₂, h₀.trans ht₁, ht₂.trans h₁, hends⟩,
    fun name ho hr => ?_⟩
  obtain ⟨es, hes, hmem⟩ := hknown name ho hr
  obtain ⟨es', hes', hsub⟩ := hg hes
  exact ⟨es', hes', hsub hmem⟩

theorem Later.forcing_of (h : s.Later s') {t : Addr .thunk} (ht : s.Forcing t) : s'.Forcing t := by
  obtain ⟨env, body, ht⟩ := ht
  exact ⟨env, body, h.forcing ht⟩

theorem Firm.of_same (later : s.Later s') (ages : s.Ages s') (journal : s.journal <:+ s'.journal)
    (hknown : ∀ b name, s'.known b name = s.known b name)
    (hnext : ∀ b, s'.nextOf b = s.nextOf b) : s.Firm s' where
  later := later
  ages := ages
  journal := journal
  locked h _ := (hknown _ _).trans h
  grows h := ⟨_, (hknown _ _).trans h, List.Subset.refl _⟩
  taken {b d i e} hb _ hi hlt := by
    rw [hnext, nextOf_eq hb] at hlt
    omega

theorem Firm.refl (s : Store) : s.Firm s :=
  .of_same (.refl s) (.refl s) (List.suffix_refl _) (fun _ _ => rfl) fun _ => rfl

theorem Firm.trans (h : s.Firm s') (h' : s'.Firm s'') : s.Firm s'' where
  later := h.later.trans h'.later
  ages := h.ages.trans h'.ages
  journal := h.journal.trans h'.journal
  locked hk ht := h'.locked (h.locked hk ht) (h.later.forcing_of ht)
  grows hk := by
    obtain ⟨es', hk', hsub⟩ := h.grows hk
    obtain ⟨es'', hk'', hsub'⟩ := h'.grows hk'
    exact ⟨es'', hk'', List.Subset.trans hsub hsub'⟩
  taken {b d i e} hb he hi hlt := by
    obtain ⟨d', hb', hages⟩ := h.ages.builder hb
    by_cases hlt' : i < s'.nextOf b
    · exact (h.taken hb he hi hlt').mono (List.suffix_refl _) h'.journal h'.grows
    · rw [nextOf_eq hb'] at hlt'
      have htaken := h'.taken hb' (hages.entries ▸ he) (Nat.le_of_not_lt hlt') hlt
      rw [hages.env] at htaken
      exact htaken.mono h.journal (List.suffix_refl _) fun h => ⟨_, h, List.Subset.refl _⟩

theorem journal_start {q : Request} {c : Comp q.Answer} (hq : q.start s = .run c s') :
    s.journal <:+ s'.journal := by
  rcases Request.start_builders hq with ⟨b, d, e, -, -, -, -, hj⟩ | ⟨b, -, -, hj⟩ | ⟨-, -, hj⟩
  · exact hj ▸ List.suffix_cons _ _
  · exact hj ▸ List.suffix_cons _ _
  · rcases hj with hj | ⟨t, hj⟩
    · exact hj ▸ List.suffix_refl _
    · exact hj ▸ List.suffix_cons _ _

/-- The journal only grows. -/
theorem journal_law : RunLaw fun s s' => s.journal <:+ s'.journal where
  refl s := List.suffix_refl _
  trans := List.IsSuffix.trans
  act a s := by
    cases a with
    | record e => exact List.suffix_cons e s.journal
    | _ => exact List.suffix_refl _
  run {q s s₁ s₂ c r} hq _ h := by
    rw [Request.journal_finish]
    exact (journal_start hq).trans h

/-- What is known of one attribute is set: it was not a plain definition that is being forced, and
what had been collected stays. -/
theorem Firm.setSlot (s : Store) (b : Addr .builder) {x : Slot} (isNew : Bool)
    (hleaf : ∀ t, s.known b name = some (.leaf (.thunk t)) → ¬ s.Forcing t)
    (htree : ∀ es, s.known b name = some (.tree es) → ∃ es', x = .tree es' ∧ es ⊆ es') :
    s.Firm (s.setSlot b name x isNew) where
  later := .perform (.setSlot b name x isNew) s
  ages := .perform (.setSlot b name x isNew) s
  journal := List.suffix_refl _
  locked {b' k t} hk ht := by
    rw [known_setSlot_ne, hk]
    rintro rfl rfl
    exact hleaf t hk ht
  grows {b' k es} hk := by
    by_cases hbk : b = b' ∧ name = k
    · obtain ⟨rfl, rfl⟩ := hbk
      obtain ⟨es', rfl, hsub⟩ := htree es hk
      obtain ⟨d, hb, -⟩ := Option.bind_eq_some_iff.mp hk
      exact ⟨es', known_setSlot_self hb _, hsub⟩
    · refine ⟨es, ?_, List.Subset.refl _⟩
      rw [known_setSlot_ne (fun hb hk => hbk ⟨hb, hk⟩), hk]
  taken {b' d i e} hb _ hi hlt := by
    have hnext := Action.nextOf_perform (.setSlot b name x isNew) s b'
    rw [nextOf_eq hb] at hnext
    exact absurd (hnext ▸ hlt) (Nat.not_lt.mpr hi)

end Store

theorem Action.Plain.firm {P : Expr → Prop} {a : Action} (ha : a.Plain P) (s : Store) :
    s.Firm (a.perform s).2 := by
  have hslot : ∀ b name x isNew, a ≠ .setSlot b name x isNew := by
    rintro b name x isNew rfl
    exact ha
  exact .of_same (.perform a s) (.perform a s) (Store.journal_law.act a s)
    (fun b name => Store.known_perform (hslot b name) s) (a.nextOf_perform s)

/-! ### Every request -/

/-- A thunk that is forced is being forced from the start. -/
theorem Request.start_forcing {t : Addr .thunk} {c : Comp Value}
    (hq : (Request.force t).start s = .run c s') : s'.Forcing t := by
  rcases Request.start_cases hq with ⟨t', env, body, ht', ht, -, hs, -⟩ | ⟨hne, -⟩
  · cases ht'
    exact ⟨env, body, by rw [hs, Heap.get?_modify_self ht]⟩
  · exact absurd rfl (hne t)

theorem Store.Forcing.start {q : Request} {c : Comp q.Answer} {t : Addr .thunk} (h : s.Forcing t)
    (hq : q.start s = .run c s') : s'.Forcing t := by
  obtain ⟨env, body, ht⟩ := h
  rcases Request.start_cases hq with ⟨t', env', body', -, ht', -, hs, -⟩ | ⟨-, hs, -⟩
  · refine ⟨env, body, ?_⟩
    rw [hs, Heap.get?_modify, if_neg, ht]
    rintro rfl
    cases ht.symm.trans ht'
  · exact ⟨env, body, hs ▸ ht⟩

/-- Only an entry takes up entries when it starts. -/
theorem Store.nextOf_start {q : Request} {c : Comp q.Answer} (hentry : ∀ b, q ≠ .entry b)
    (hq : q.start s = .run c s') (b : Addr .builder) : s'.nextOf b = s.nextOf b := by
  rcases Request.start_builders hq with ⟨b', d, e, hq, -⟩ | ⟨b', -, hs, -⟩ | ⟨-, hs, -⟩
  · exact absurd hq (hentry b')
  · exact Store.nextOf_modify hs (fun _ => rfl) b
  · rw [Store.nextOf, hs, Store.nextOf]

/-- What is kept inside a request is kept from its start to its end, if the entry that it takes up
itself is taken up to its end. -/
theorem Store.Firm.around {s₁ s₂ : Store} {q : Request} {c : Comp q.Answer} {x : q.Answer}
    (h : s₁.Firm s₂) (hq : q.start s = .run c s₁) (hends : c.Ends s₁ (.ok x) s₂)
    (hfirst : ∀ {b d i e}, s.builders.get? b = some d → d.entries[i]? = some e → d.next ≤ i →
      i < s₁.nextOf b → s₁.TakenUp s₂ b d.env e) : s.Firm (q.finish (.ok x) s₂) where
  later := Store.later_law.run hq hends h.later
  ages := Store.ages_law.run hq hends h.ages
  journal := Store.journal_law.run hq hends h.journal
  locked {b name t} hk ht := by
    rw [Store.known_finish]
    exact h.locked ((Store.known_start hq b name).trans hk) (ht.start hq)
  grows {b name es} hk := by
    rw [Store.known_finish]
    exact h.grows ((Store.known_start hq b name).trans hk)
  taken {b d i e} hb he hi hlt := by
    have hend : ∀ {env}, s₁.TakenUp s₂ b env e → s.TakenUp (q.finish (.ok x) s₂) b env e :=
      fun ht => ht.mono (Store.journal_start hq)
        (Request.journal_finish q (.ok x) s₂ ▸ List.suffix_refl _)
        fun hk => ⟨_, (Store.known_finish q (.ok x) s₂ _ _).trans hk, List.Subset.refl _⟩
    rw [Store.nextOf_finish] at hlt
    -- an entry is taken up by the request itself or inside it
    by_cases hlt' : i < s₁.nextOf b
    · exact hend (hfirst hb he hi hlt')
    · obtain ⟨f, hf, hcell⟩ := Request.start_cells hq
      have hkeeps := (hcell b d).1
      have hb₁ : s₁.builders.get? b = some (f b d) := by rw [hf, hb]; rfl
      rw [Store.nextOf_eq hb₁] at hlt'
      have htaken := h.taken hb₁ (hkeeps.entries ▸ he) (Nat.le_of_not_lt hlt') hlt
      exact hend (hkeeps.env ▸ htaken)

/-- What is collected is added to what had been. -/
theorem Comp.collect_firm {n : Nat} {old es : List Entry} (hk : s.known b name = some (.tree old))
    (hr : (Comp.collect b name es).run n s = some (.ok (), s')) :
    s.Firm s' ∧ ∃ es', s'.known b name = some (.tree es') ∧ es ⊆ es' := by
  obtain ⟨o, s₁, h₁, h₂⟩ := Comp.runWith_bind_ok.mp hr
  obtain ⟨ho, rfl⟩ := Comp.ends_slot.mp ⟨n, h₁⟩
  replace ho : o = s₁.known b name := Except.ok.inj ho
  rw [ho, hk] at h₂
  obtain ⟨d, hb, -⟩ := Option.bind_eq_some_iff.mp hk
  cases h₂
  refine ⟨.setSlot s₁ b false (fun t ht => ?_) fun es' hes' => ⟨_, rfl, ?_⟩,
    _, Store.known_setSlot_self hb _, List.subset_append_right _ _⟩
  · rw [hk] at ht; cases ht
  · cases hk.symm.trans hes'
    exact List.subset_append_left _ _

/-- What is kept by all requests within a number of levels. -/
structure Firms (n : Nat) : Prop where
  firm : ∀ {q : Request} {s s' : Store} {x : q.Answer}, q.Legal s →
    q.run n s = some (.ok x, s') → s.Firm s'

namespace Firms

variable {n : Nat} {env : Env} {es : List Entry} (h : Firms n)

include h

/-- What is kept by the computation of a request that sets no slot. -/
theorem fair {q : Request} {c : Comp α} {x : α} (hq : ∀ b, q ≠ .entry b)
    (hc : c.Fair (.frame q) s) (hs : (Rules.frame q).holds s)
    (hr : c.run n s = some (.ok x, s')) : s.Firm s' := by
  refine Comp.Fair.law (R := .frame q) (T := fun s o s' => o = none → s.Firm s')
    (fun s _ _ => .refl s) (fun h₁ h₂ ho => (h₁ rfl).trans (h₂ ho))
    (fun h => absurd h Rules.frame_not_catches)
    (fun hs ha => ⟨fun _ => ?_, (Rules.frame_turn hs ha).2⟩)
    (fun {s q' r s'} hs hq' hr => ?_) hc hs hr rfl
  · rcases Rules.frame_act ha with ha | ⟨b, -, -, -, rfl, -⟩
    · exact ha.firm _
    · exact absurd rfl (hq b)
  · have hlegal := Rules.frame_ask hs hq'
    cases r with
    | ok x => exact ⟨fun _ => h.firm hlegal hr,
        fun _ => Rules.frame_keep hs (hlegal.turn ⟨n, hr⟩) (hlegal.kept ⟨n, hr⟩)⟩
    | error e =>
      refine ⟨fun ho => (by cases ho), fun ho => ?_⟩
      exact absurd (ho.resolve_left fun h => by cases h) Rules.frame_not_catches

theorem plain {c : Comp α} {x : α} (hc : c.Fair .plain s) (hs : s.Propagates)
    (hr : c.run n s = some (.ok x, s')) : s.Firm s' :=
  h.fair (q := .sweep [] .null) nofun hc hs hr

/-- What is forced is locked until it has been forced. -/
theorem takeApart {v : Value} (hs : s.Propagates)
    (hr : (Comp.takeApart name v).run n s = some (.ok es, s')) :
    s.Firm s' ∧ (∀ {b k}, s.known b k = some (.leaf v) → s'.known b k = some (.leaf v)) ∧
      ∀ t, v = .thunk t → ¬ s'.Forcing t := by
  refine ⟨h.plain (Rules.plain_permits.takeApart name v s hs) hs hr, ?_⟩
  obtain ⟨w, s₁, h₁, h₂⟩ := Comp.runWith_bind_ok.mp hr
  have hs' : s' = s₁ := by
    cases w with
    | set a =>
      obtain ⟨m, s₂, h₃, h₄⟩ := Comp.runWith_bind_ok.mp h₂
      obtain ⟨-, rfl⟩ := Comp.runWith_attrs_ok.mp h₃
      exact (Comp.runWith_pure_ok.mp h₄).2
    | _ => cases h₂
  subst hs'
  refine ⟨fun {b k} hk => ?_, fun t ht => ?_⟩
  · cases v with
    | thunk t =>
      rw [Comp.force, Comp.runWith_request] at h₁
      cases n with
      | zero => cases h₁
      | succ n =>
        rcases Request.run_succ_cases h₁ with hq | ⟨c, s₁, s₂, hq, h₃, rfl⟩
        · obtain rfl := Request.start_answer hq
          exact hk
        · -- while its thunk is being forced, a leaf is locked
          have hs₁ : s₁.Propagates := hs.start hq
          have hfair := Rules.plain_permits.start (q := .force t) trivial
            (fun b h => by cases h) (fun t env body _ ht => hs.thunk ht) hq s₁ hs₁
          have hfirm := h.plain hfair hs₁ (Comp.run_mono (Nat.le_succ n) h₃)
          rw [Store.known_finish]
          exact hfirm.locked ((Store.known_start hq b k).trans hk) (Request.start_forcing hq)
    | _ =>
      obtain ⟨-, rfl⟩ := Comp.runWith_pure_ok.mp h₁
      exact hk
  · subst ht
    rintro ⟨env, body, ht⟩
    have hforced := Comp.force_forced (v := .thunk t) ⟨n, h₁⟩
    cases ht.symm.trans (hforced.thunk t rfl)

theorem merge {old new : Slot} (hs : s.Propagates) (hk : s.known b name = some old)
    (hr : (Comp.merge b name old new).run n s = some (.ok (), s')) :
    s.Firm s' ∧ ∀ es, new = .tree es → ∃ es', s'.known b name = some (.tree es') ∧ es ⊆ es' := by
  cases old with
  | leaf v =>
    cases new with
    | leaf w => cases hr
    | tree es =>
      obtain ⟨es₀, s₁, h₁, h₂⟩ := Comp.runWith_bind_ok.mp hr
      obtain ⟨hfirm, hleaf, hforcing⟩ := h.takeApart hs h₁
      have hk₁ := hleaf hk
      obtain ⟨d, hb, -⟩ := Option.bind_eq_some_iff.mp hk₁
      cases h₂
      refine ⟨hfirm.trans (.setSlot s₁ b false (fun t ht => ?_) fun es' hes' => ?_),
        fun es' hes' => ?_⟩
      · cases hk₁.symm.trans ht
        exact hforcing t rfl
      · cases hk₁.symm.trans hes'
      · cases hes'
        exact ⟨_, Store.known_setSlot_self hb _, List.subset_append_right _ _⟩
  | tree old =>
    cases new with
    | leaf v =>
      obtain ⟨es, s₁, h₁, h₂⟩ := Comp.runWith_bind_ok.mp hr
      obtain ⟨hfirm, -, -⟩ := h.takeApart hs h₁
      obtain ⟨old', hk₁, -⟩ := hfirm.grows hk
      exact ⟨hfirm.trans (Comp.collect_firm hk₁ h₂).1, fun es he => by cases he⟩
    | tree es =>
      obtain ⟨hfirm, hknown⟩ := Comp.collect_firm hk hr
      exact ⟨hfirm, fun es' he => by cases he; exact hknown⟩

/-- An entry that has succeeded has been taken up to its end. -/
theorem define {d : Builder} {e : Entry} (hs : s.Propagates) (he : e.All Expr.Propagates)
    (hb : s.builders.get? b = some d)
    (hr : (Comp.define b env e).run n s = some (.ok (), s')) :
    s.Firm s' ∧ s.TakenUp s' b env e := by
  obtain ⟨path, value⟩ := e
  cases path with
  | nil => cases hr
  | cons component rest =>
    obtain ⟨v, s₁, h₁, hr⟩ := Comp.runWith_bind_ok.mp hr
    obtain ⟨o, s₂, h₂, hr⟩ := Comp.runWith_bind_ok.mp hr
    have hname : (Comp.eval env component >>= Comp.forceName).run n s = some (.ok o, s₂) :=
      Comp.runWith_bind_ok.mpr ⟨v, s₁, h₁, h₂⟩
    have hfair : Comp.Fairly .plain (Comp.eval env component >>= Comp.forceName) :=
      (Rules.plain_permits.eval env (he _ (List.mem_cons_of_mem _ List.mem_cons_self))).bind
        Rules.plain_permits.forceName
    have hfirm : s.Firm s₂ := h.plain (hfair s hs) hs hname
    have hs₂ : s₂.Propagates := (hfair s hs).propagates hs ⟨n, hname⟩
    -- what is left to show once the name is evaluated: the rest of the path is in its tree
    have htaken : ∀ {s'}, s₂.Firm s' → (∀ name, o = some name → rest ≠ [] →
        ∃ es, s'.known b name = some (.tree es) ∧ ⟨rest, value⟩ ∈ es) →
        s.Firm s' ∧ s.TakenUp s' b env ⟨component :: rest, value⟩ := fun hf hk =>
      ⟨hfirm.trans hf, component, rest, o, rfl,
        ⟨s, s₂, List.suffix_refl _, hf.journal, n, hname⟩, hk⟩
    cases o with
    | none =>
      obtain ⟨-, rfl⟩ := Comp.runWith_pure_ok.mp hr
      exact htaken (.refl _) fun name hn => by cases hn
    | some name =>
      obtain ⟨new, s₃, h₃, hr⟩ := Comp.runWith_bind_ok.mp hr
      have hdef : (Comp.definition env rest value).Fair .plain s₂ :=
        Rules.plain_permits.definition env rest (he _ List.mem_cons_self) s₂ hs₂
      have hfirm₃ : s₂.Firm s₃ := h.plain hdef hs₂ h₃
      have hs₃ : s₃.Propagates := hdef.propagates hs₂ ⟨n, h₃⟩
      have hnew : rest ≠ [] → new = .tree [⟨rest, value⟩] := by
        intro hne
        cases rest with
        | nil => exact absurd rfl hne
        | cons c rest => exact (Comp.runWith_pure_ok.mp h₃).1
      obtain ⟨o, s₄, h₄, hr⟩ := Comp.runWith_bind_ok.mp hr
      obtain ⟨ho, rfl⟩ := Comp.ends_slot.mp ⟨n, h₄⟩
      replace ho : o = s₄.known b name := Except.ok.inj ho
      subst ho
      -- a slot that is free takes the definition; else it is merged into the slot
      cases hk : s₄.known b name with
      | none =>
        rw [hk] at hr
        cases hr
        obtain ⟨d₂, hb₂, -⟩ := (hfirm.ages.trans hfirm₃.ages).builder hb
        refine htaken (hfirm₃.trans (.setSlot s₄ b true (fun t ht => ?_) fun es hes => ?_))
          fun name' hn hne => ?_
        · rw [hk] at ht; cases ht
        · rw [hk] at hes; cases hes
        · cases hn
          exact ⟨_, (Store.known_setSlot_self hb₂ _).trans (congrArg some (hnew hne)),
            List.mem_singleton.mpr rfl⟩
      | some old =>
        rw [hk] at hr
        obtain ⟨hfirm₄, hknown⟩ := h.merge hs₃ hk hr
        refine htaken (hfirm₃.trans hfirm₄) fun name' hn hne => ?_
        cases hn
        obtain ⟨es', hes', hsub⟩ := hknown _ (hnew hne)
        exact ⟨es', hes', hsub (List.mem_singleton.mpr rfl)⟩

/-- An entry that succeeds takes up the one that is next, to its end. -/
theorem entry {s₁ s₂ : Store} {c : Comp Bool} {x : Bool} (hs : s.Propagates)
    (hq : (Request.entry b).start s = .run c s₁) (hr : c.run n s₁ = some (.ok x, s₂)) :
    s₁.Firm s₂ ∧ ∀ {b' d i e}, s.builders.get? b' = some d → d.entries[i]? = some e →
      d.next ≤ i → i < s₁.nextOf b' → s₁.TakenUp s₂ b' d.env e := by
  obtain ⟨d, e, hb, he, rfl, hs₁⟩ := Store.startEntry_run hq
  have hb₁ : s₁.builders.get? b = some { d with next := d.next + 1, active := d.active + 1 } := by
    rw [hs₁]
    exact Heap.get?_modify_self hb _
  obtain ⟨u, s₃, h₃, h₄⟩ := Comp.runWith_bind_ok.mp hr
  obtain ⟨-, rfl⟩ := Comp.runWith_pure_ok.mp h₄
  have hmem : e ∈ d.entries.toList := Array.mem_toList_iff.mpr (Array.mem_of_getElem? he)
  obtain ⟨hfirm, htaken⟩ := h.define (hs.start hq) (hs.entries hb e hmem) hb₁ h₃
  refine ⟨hfirm, fun {b' d' i e'} hb' he' hi hlt => ?_⟩
  by_cases hbb : b = b'
  · subst b'
    cases hb.symm.trans hb'
    rw [Store.nextOf_eq hb₁] at hlt
    obtain rfl : i = d.next := Nat.le_antisymm (Nat.le_of_lt_succ hlt) hi
    cases he.symm.trans he'
    exact htaken
  · rw [Store.nextOf, hs₁] at hlt
    replace hlt : i < (((s.builders.modify b _).get? b').map Builder.next).getD 0 := hlt
    rw [Heap.get?_modify, if_neg hbb, hb'] at hlt
    exact absurd hlt (Nat.not_lt.mpr hi)

theorem succ : Firms (n + 1) := by
  refine ⟨fun {q s s' x} hl hr => ?_⟩
  rcases Request.run_succ_cases hr with hq | ⟨c, s₁, s₂, hq, h₂, rfl⟩
  · obtain rfl := Request.start_answer hq
    exact .refl _
  by_cases hentry : ∃ b, q = .entry b
  · obtain ⟨b, rfl⟩ := hentry
    obtain ⟨hfirm, htaken⟩ := h.entry hl.propagates hq h₂
    exact hfirm.around hq ⟨n, h₂⟩ htaken
  · obtain ⟨hholds, hfair⟩ := hl.start_fair hq
    have hfirm : s₁.Firm s₂ := h.fair (fun b hb => hentry ⟨b, hb⟩) hfair hholds h₂
    refine hfirm.around hq ⟨n, h₂⟩ fun {b d i e} hb he hi hlt => ?_
    rw [Store.nextOf_start (fun b hb => hentry ⟨b, hb⟩) hq, Store.nextOf_eq hb] at hlt
    exact absurd hlt (Nat.not_lt.mpr hi)

end Firms

theorem firms (n : Nat) : Firms n := by
  induction n with
  | zero => exact ⟨fun _ hr => (by cases hr)⟩
  | succ n ih => exact ih.succ

/-- **Nothing that is known is lost** in a run that succeeds. -/
theorem Request.Legal.firm {q : Request} {x : q.Answer} (h : q.Legal s)
    (hr : q.Ends s (.ok x) s') : s.Firm s' := by
  obtain ⟨n, hn⟩ := hr
  exact (firms n).firm h hn

/-! ### Every component of a path -/

theorem Store.Evaluates.mono {s₀ s₁ : Store} {env : Env} {e : Expr} {o : Option String}
    (h : s.Evaluates s' env e o) (h₀ : s₀.journal <:+ s.journal)
    (h₁ : s'.journal <:+ s₁.journal) : s₀.Evaluates s₁ env e o := by
  obtain ⟨t₁, t₂, ht₁, ht₂, hends⟩ := h
  exact ⟨t₁, t₂, h₀.trans ht₁, ht₂.trans h₁, hends⟩

/-- What is done for all members of a list is done for each. -/
theorem Comp.mapM_part {β : Type} {f : β → Comp α} {l : List β} {xs : List α}
    (hf : ∀ y ∈ l, Comp.Fairly .plain (f y)) (hs : s.Propagates)
    (h : (l.mapM f).Ends s (.ok xs) s') {p : β} (hp : p ∈ l) : ∃ x s₁ s₂, s₁.Propagates ∧
      s.journal <:+ s₁.journal ∧ s₂.journal <:+ s'.journal ∧ (f p).Ends s₁ (.ok x) s₂ := by
  induction l generalizing s xs with
  | nil => cases hp
  | cons y l ih =>
    rw [List.mapM_cons] at h
    obtain ⟨x, s₁, h₁, h₂⟩ := ends_bind_ok.mp h
    obtain ⟨xs', s₂, h₃, h₄⟩ := ends_bind_ok.mp h₂
    obtain ⟨-, rfl⟩ := ends_pure.mp h₄
    rcases List.mem_cons.mp hp with rfl | hp
    · exact ⟨x, s, s₁, hs, List.suffix_refl _, Store.journal_law.ends h₃, h₁⟩
    · have hs₁ := (hf y List.mem_cons_self s hs).propagates hs h₁
      obtain ⟨x', t₁, t₂, ht, ht₁, ht₂, hx⟩ :=
        ih (fun y hy => hf y (List.mem_cons_of_mem _ hy)) hs₁ h₃ hp
      exact ⟨x', t₁, t₂, ht, (Store.journal_law.ends h₁).trans ht₁, ht₂, hx⟩

/-- The entries of a set that is built have all been taken up, and then it has been assembled. -/
theorem Request.build_taken {d : Builder} (hs : s.Propagates) (hb : s.builders.get? b = some d)
    (hd : d.outcome = .underway) (ha : d.active = 0)
    (hr : (Request.build b).Ends s (.ok ()) s') : ∃ s₁ a, s.Firm s₁ ∧ s₁.Propagates ∧
      (s.ProperAt b → s₁.ProperAt b) ∧ d.entries.size ≤ s₁.nextOf b ∧
      (Request.assemble b).Ends s₁ (.ok a) s' := by
  obtain ⟨s₂, ⟨n, h₂⟩, rfl⟩ := (Request.ends_run (q := .build b) rfl).mp hr
  rcases Comp.build_cases h₂ with ⟨hsettled, -⟩ | ⟨d₀, hb₀, -, h₃⟩
  · rcases hsettled d hb with ⟨a, h, -⟩ | ⟨e, h, -⟩ <;> rw [hd] at h <;> cases h
  · cases hb.symm.trans hb₀
    rcases h₃ with ⟨e, -, he⟩ | ⟨s₁, d₁, h₁, hb₁, h₄⟩
    · cases he
    · have hfair := Comp.takeEntries_fair d.entries.size hs ⟨d, hb, hd⟩
      have hfirm : s.Firm s₁ := (firms n).fair (q := .build b) nofun hfair hs h₁
      have hproper : s.ProperAt b → s₁.ProperAt b :=
        Comp.Fair.proper (R := .build b) (fun hs ha => by cases ha; exact ⟨hs, nofun⟩)
          (fun hs hq hr => ⟨hq.2, fun _ => hq.2.kept hr⟩) hfair hs ⟨n, h₁⟩
      obtain ⟨d₁', hb₁', hages⟩ := hfirm.ages.builder hb
      cases hb₁.symm.trans hb₁'
      obtain ⟨-, hs₁, hnext⟩ := (turns n).takeEntries _ hs hb hd h₁
      obtain ⟨d₂, hb₂, -, hle⟩ := hnext rfl
      cases hb₁.symm.trans hb₂
      rcases h₄ with ⟨hne, -⟩ | ⟨-, r', h₅, he⟩
      · exact absurd (hages.active.trans ha) hne
      · cases r' with
        | ok a =>
          refine ⟨s₁, a, hfirm, hs₁, hproper, ?_, n, h₅⟩
          rw [Store.nextOf_eq hb₁]
          rcases hle with hle | hle
          · exact hages.entries ▸ hle
          · omega
        | error e => cases he

/-- In the assembly of a set every tree becomes a set inside. -/
theorem Request.assemble_tree {a : Addr .set} {d : Builder} {es : List Entry} (hs : s.Propagates)
    (hb : s.builders.get? b = some d) (hd : d.Ordered) (hk : s.known b name = some (.tree es))
    (hr : (Request.assemble b).Ends s (.ok a) s') : ∃ a' s₁ s₂, s₁.Propagates ∧
      s.journal <:+ s₁.journal ∧ s₂.journal <:+ s'.journal ∧
      (Comp.construct d.env es false).Ends s₁ (.ok a') s₂ := by
  obtain ⟨s₂, h₂, rfl⟩ := (Request.ends_run (q := .assemble b) rfl).mp hr
  have hb₁ : (s.builders.modify b fun c => { c with active := c.active + 1 }).get? b =
      some { d with active := d.active + 1 } :=
    Heap.get?_modify_self hb _
  have hs₁ := Store.All.start (q := .assemble b) hs rfl
  have hd₁ : Builder.Ordered { d with active := d.active + 1 } := hd.keeps ⟨rfl, rfl, rfl, rfl⟩
  replace h₂ := (Comp.ends_assemble (c := { d with active := d.active + 1 }) hb₁ hd₁).mp h₂
  obtain ⟨bs, s₃, h₃, h₄⟩ := Comp.ends_bind_ok.mp h₂
  have hmem : (name, Slot.tree es) ∈ d.slots :=
    Attrs.mem_of_lookup ((Store.known_eq hb).symm.trans hk)
  have hfair : ∀ p ∈ d.slots, Comp.Fairly .plain (Comp.slotBinding d.env p) := fun p hp =>
    (Rules.plain_permits.slotValue d.env (hs.slots hb p hp)).bind fun _ => .pure _
  obtain ⟨x, t₁, t₂, ht, ht₁, ht₂, hx⟩ := Comp.mapM_part hfair hs₁ h₃ hmem
  obtain ⟨v, t₃, h₅, h₆⟩ := Comp.ends_bind_ok.mp hx
  obtain ⟨-, rfl⟩ := Comp.ends_pure.mp h₆
  obtain ⟨a', t₄, h₇, h₈⟩ := Comp.ends_bind_ok.mp h₅
  obtain ⟨-, rfl⟩ := Comp.ends_pure.mp h₈
  refine ⟨a', t₁, t₂, ht, .trans (List.suffix_cons _ _) ht₁, ?_, h₇⟩
  rw [Request.journal_finish]
  exact ht₂.trans (Store.journal_law.ends h₄)

/-- **Every component of a path is evaluated** when its set is built, unless one before it is
null. -/
theorem Request.build_evaluates (j : Nat) {d : Builder} {i : Nat} {e : Entry} {x : Expr}
    (hs : s.Propagates) (hproper : s.ProperAt b) (hb : s.builders.get? b = some d)
    (hd : d.outcome = .underway) (ha : d.active = 0)
    (hi : d.next ≤ i) (he : d.entries[i]? = some e) (hx : e.path[j]? = some x)
    (hr : (Request.build b).Ends s (.ok ()) s') : (∃ o, s.Evaluates s' d.env x o) ∨
      ∃ j' y, j' < j ∧ e.path[j']? = some y ∧ s.Evaluates s' d.env y none := by
  -- on the place in the path; the rest of a path is an entry of a set inside
  induction j generalizing s s' b d i e with
  | zero =>
    obtain ⟨s₁, a, hfirm, -, -, hn, hasm⟩ := build_taken hs hb hd ha hr
    have hlt := (Array.getElem?_eq_some_iff.mp he).1
    obtain ⟨component, rest, o, hp, hev, -⟩ := hfirm.taken hb he hi (Nat.lt_of_lt_of_le hlt hn)
    rw [hp] at hx
    cases hx
    have hlater := Store.journal_law.ends (Comp.ends_request.mpr hasm)
    exact .inl ⟨o, hev.mono (List.suffix_refl _) hlater⟩
  | succ j ih =>
    obtain ⟨s₁, a, hfirm, hs₁, hproper₁, hn, hasm⟩ := build_taken hs hb hd ha hr
    have hlt := (Array.getElem?_eq_some_iff.mp he).1
    have hj := Store.journal_law.ends (Comp.ends_request.mpr hasm)
    obtain ⟨component, rest, o, hp, hev, hknown⟩ :=
      hfirm.taken hb he hi (Nat.lt_of_lt_of_le hlt hn)
    rw [hp, List.getElem?_cons_succ] at hx
    cases o with
    | none => exact .inr ⟨0, component, Nat.succ_pos j, by rw [hp]; rfl,
        hev.mono (List.suffix_refl _) hj⟩
    | some name =>
      -- the first name is not null: the rest is in the tree, and evaluated in its assembly
      obtain ⟨es, hes, hmem⟩ := hknown name rfl fun hr => by rw [hr] at hx; cases hx
      obtain ⟨d₁, hb₁, hages⟩ := hfirm.ages.builder hb
      obtain ⟨a', t₁, t₂, ht, ht₁, ht₂, hcons⟩ :=
        assemble_tree hs₁ hb₁ (hproper₁ hproper d₁ hb₁).toOrdered hes hasm
      obtain ⟨hbuild, -⟩ := Comp.construct_settles hcons
      obtain ⟨i', hi'⟩ := List.mem_iff_getElem?.mp hmem
      have hes₁ : ∀ e ∈ es, e.All Expr.Propagates := hs₁.known hes
      have ht' : (t₁.newBuilder d₁.env es false).2.Propagates :=
        Store.All.perform (a := .newBuilder d₁.env es false) ht hes₁
      have hin := ih (s := (t₁.newBuilder d₁.env es false).2) (i := i') (e := ⟨rest, e.value⟩)
        ht' (t₁.properAt_newBuilder d₁.env es false) (Heap.get?_push_next _ _) rfl rfl
        (Nat.zero_le _) (by simpa using hi') hx hbuild
      have hwide : ∀ {y o}, (t₁.newBuilder d₁.env es false).2.Evaluates t₂ d₁.env y o →
          s.Evaluates s' d.env y o := fun h => by
        rw [← hages.env]
        exact h.mono (hfirm.journal.trans ht₁) ht₂
      rcases hin with ⟨o, ho⟩ | ⟨j', y, hj', hy, ho⟩
      · exact .inl ⟨o, hwide ho⟩
      · exact .inr ⟨j' + 1, y, Nat.succ_lt_succ hj', by rw [hp]; exact hy, hwide ho⟩

end NixKernel
