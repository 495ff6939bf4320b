import NixKernel.Proofs.Within

/-!
What a request does to the sets under construction. Entries are taken up one by one in their order;
the number of entries in progress is the same after any run as before it. If no expression goes on
after an error, nothing changes about a set once it is built or its construction has failed. While
an entry is in progress its set is not assembled, so all that can become of the set is that it
fails, and then the run fails with the same error.
-/

namespace NixKernel

variable {α : Type} {s s' s'' : Store}

/-! ### Starting and ending -/

/-- What a request does to the sets under construction when it starts. -/
theorem Request.start_builders {q : Request} {c : Comp q.Answer} (h : q.start s = .run c s') :
    (∃ b d e, q = .entry b ∧ s.builders.get? b = some d ∧ d.entries[d.next]? = some e ∧
      s'.builders = s.builders.modify b
        (fun c => { c with next := c.next + 1, active := c.active + 1 }) ∧
      s'.journal = .entry b d.next :: s.journal) ∨
    (∃ b, q = .assemble b ∧
      s'.builders = s.builders.modify b (fun c => { c with active := c.active + 1 }) ∧
      s'.journal = .assemble b :: s.journal) ∨
    (q.Plain (fun _ => True) ∧ s'.builders = s.builders ∧
      (s'.journal = s.journal ∨ ∃ t, s'.journal = .force t :: s.journal)) := by
  cases q with
  | force t =>
    obtain ⟨env, body, -, -, -, rfl⟩ := Store.startForce_run h
    rw [Store.enter, Store.changeDepth_eq]
    exact .inr (.inr ⟨trivial, rfl, .inr ⟨t, rfl⟩⟩)
  | entry b =>
    obtain ⟨d, e, hd, he, -, rfl⟩ := Store.startEntry_run h
    exact .inl ⟨b, d, e, rfl, hd, he, rfl, rfl⟩
  | assemble b =>
    cases h
    exact .inr (.inl ⟨b, rfl, rfl, rfl⟩)
  | _ =>
    cases h
    exact .inr (.inr ⟨trivial, rfl, .inl rfl⟩)

/-- The end of a request writes nothing. -/
theorem Request.journal_finish (q : Request) (r : Except Error q.Answer) (s : Store) :
    (q.finish r s).journal = s.journal := by
  cases q with
  | force t =>
    simp only [Request.finish, Store.finishForce]
    split
    · rw [Store.leave, Store.changeDepth_eq]
      cases r <;> rfl
    · rfl
  | entry b => cases r <;> rfl
  | assemble b => cases r <;> rfl
  | _ => rfl

/-- The end of a request that is not an entry or the assembly of a set changes no set under
construction. -/
theorem Request.builders_finish {P : Expr → Prop} {q : Request} (h : q.Plain P)
    (r : Except Error q.Answer) (s : Store) : (q.finish r s).builders = s.builders := by
  cases q with
  | force t => exact s.builders_finishForce t r
  | entry b => exact h.elim
  | assemble b => exact h.elim
  | _ => rfl

/-! ### What every run keeps -/

/-- A set under construction and the same set later: its scope and its entries are the same, as many
entries are in progress, and none that had been taken up is given back. -/
structure Builder.Ages (d d' : Builder) : Prop where
  env : d'.env = d.env
  entries : d'.entries = d.entries
  active : d'.active = d.active
  next : d.next ≤ d'.next

theorem Builder.Ages.refl (d : Builder) : d.Ages d := ⟨rfl, rfl, rfl, Nat.le_refl _⟩

theorem Builder.Ages.trans {d d' d'' : Builder} (h : d.Ages d') (h' : d'.Ages d'') : d.Ages d'' :=
  ⟨h'.env.trans h.env, h'.entries.trans h.entries, h'.active.trans h.active,
    Nat.le_trans h.next h'.next⟩

/-- All sets under construction later on; new ones have no entry in progress. -/
structure Store.Ages (s s' : Store) : Prop where
  builder : ∀ {b d}, s.builders.get? b = some d → ∃ d', s'.builders.get? b = some d' ∧ d.Ages d'
  fresh : ∀ {b d'}, s'.builders.get? b = some d' → s.builders.get? b = none → d'.active = 0

namespace Store

theorem Ages.of_eq (h : s'.builders = s.builders) : s.Ages s' where
  builder hb := ⟨_, h ▸ hb, .refl _⟩
  fresh hb hn := by
    rw [h, hn] at hb
    cases hb

theorem Ages.refl (s : Store) : s.Ages s := .of_eq rfl

theorem Ages.trans (h : s.Ages s') (h' : s'.Ages s'') : s.Ages s'' where
  builder hb := by
    obtain ⟨d', hb', hd⟩ := h.builder hb
    obtain ⟨d'', hb'', hd'⟩ := h'.builder hb'
    exact ⟨d'', hb'', hd.trans hd'⟩
  fresh {b d''} hb hn := by
    cases hb' : s'.builders.get? b with
    | none => exact h'.fresh hb hb'
    | some d' =>
      obtain ⟨e, he, hd⟩ := h'.builder hb'
      cases hb.symm.trans he
      rw [hd.active]
      exact h.fresh hb' hn

theorem Ages.modify {b : Addr .builder} {f : Builder → Builder}
    (hs : s'.builders = s.builders.modify b f)
    (h : ∀ d, s.builders.get? b = some d → d.Ages (f d)) : s.Ages s' where
  builder {b' d} hb := by
    rw [hs, Heap.get?_modify, hb]
    split
    · subst b'
      exact ⟨f d, rfl, h d hb⟩
    · exact ⟨d, rfl, .refl d⟩
  fresh {b' d'} hb hn := by
    rw [hs, Heap.get?_modify, hn] at hb
    split at hb <;> cases hb

theorem Ages.perform (a : Action) (s : Store) : s.Ages (a.perform s).2 := by
  cases a with
  | newBuilder env entries recursive =>
    refine ⟨fun hb => ⟨_, Heap.get?_push_of_some hb, .refl _⟩, fun {b d'} hb hn => ?_⟩
    simp only [Action.perform, newBuilder, Heap.get?_push] at hb
    split at hb
    · cases hb; rfl
    · rw [hn] at hb; cases hb
  | setSlot b name x => exact .modify rfl fun d _ => ⟨rfl, rfl, rfl, Nat.le_refl _⟩
  | _ => exact .of_eq rfl

/-- A set is entered and left: as many entries are in progress as before. -/
theorem Ages.around {b : Addr .builder} {s₁ s₂ : Store} {f : Builder → Builder}
    (h₁ : s₁.builders = s.builders.modify b f)
    (hf : ∀ d, (f d).env = d.env ∧ (f d).entries = d.entries ∧ d.next ≤ (f d).next ∧
      (f d).active = d.active + 1) (h : s₁.Ages s₂)
    (o : Option (Except Error (Addr .set))) : s.Ages (s₂.finishBuilder b o) where
  builder {b' d} hb := by
    -- the start adds one entry in progress to `b`, which the end takes away
    have hb₁ : s₁.builders.get? b' = some (if b = b' then f d else d) := by
      rw [h₁, Heap.get?_modify, hb]
      split <;> rfl
    obtain ⟨d₂, hb₂, env, entries, active, next⟩ := h.builder hb₁
    rw [finishBuilder, Heap.get?_modify, hb₂]
    split
    · rename_i hbb
      rw [if_pos hbb] at env entries active next
      obtain ⟨f₁, f₂, f₃, f₄⟩ := hf d
      refine ⟨_, rfl, (d₂.leave_env o).trans (env.trans f₁),
        (d₂.leave_entries o).trans (entries.trans f₂), ?_, ?_⟩
      · rw [Builder.leave_active]
        omega
      · rw [Builder.leave_next]
        exact Nat.le_trans f₃ next
    · rename_i hbb
      rw [if_neg hbb] at env entries active next
      exact ⟨d₂, rfl, env, entries, active, next⟩
  fresh {b' d'} hb hn := by
    have hn₁ : s₁.builders.get? b' = none := by
      rw [h₁, Heap.get?_modify, hn]
      split <;> rfl
    rw [finishBuilder, Heap.get?_modify] at hb
    split at hb
    · obtain ⟨d₂, hb₂, rfl⟩ := Option.map_eq_some_iff.mp hb
      rw [Builder.leave_active, h.fresh hb₂ hn₁]
    · exact h.fresh hb hn₁

/-- Every run leaves as many entries in progress as there were. -/
theorem ages_law : RunLaw Ages where
  refl := .refl
  trans := .trans
  act := .perform
  run := by
    intro q s s₁ s₂ c r hq _ h
    rcases Request.start_builders hq with ⟨b, d, e, rfl, -, -, hb, -⟩ | ⟨b, rfl, hb, -⟩ |
      ⟨hp, hb, -⟩
    · have hs := Ages.around hb (fun d => ⟨rfl, rfl, Nat.le_succ _, rfl⟩) h
      cases r with
      | ok x => exact hs none
      | error e => exact hs (some (.error e))
    · exact Ages.around hb (fun d => ⟨rfl, rfl, Nat.le_refl _, rfl⟩) h (some r)
    · have hs : s.Ages s₂ := (Ages.of_eq hb).trans h
      exact hs.trans (.of_eq (Request.builders_finish hp r s₂))

end Store

/-! ### What becomes of a set -/

/-- The construction of a set has begun or can begin, and nothing has come of it yet. -/
def Store.Underway (s : Store) (b : Addr .builder) : Prop :=
  ∃ d, s.builders.get? b = some d ∧ d.outcome = .underway

/-- An entry of a set, or its assembly, is in progress, and nothing has come of it yet. -/
def Store.InProgress (s : Store) (b : Addr .builder) : Prop :=
  ∃ d, s.builders.get? b = some d ∧ d.outcome = .underway ∧ 0 < d.active

/-- From before to after something that ends with an error or without one: a settled set is as it
was, and a set with an entry in progress has not been built; if it has failed, then with that
error. -/
structure Store.Turn (s : Store) (o : Option Error) (s' : Store) : Prop extends s.Ages s' where
  settled : ∀ {b d}, s.builders.get? b = some d → d.outcome ≠ .underway →
    s'.builders.get? b = some d
  outcome : ∀ {b d d'}, s.builders.get? b = some d → s'.builders.get? b = some d' →
    d.outcome = .underway → d'.outcome = .underway ∨ (d.active = 0 ∧ ∃ a, d'.outcome = .built a) ∨
      ∃ e, o = some e ∧ d'.outcome = .failed e

namespace Store

variable {o : Option Error} {b : Addr .builder}

theorem Turn.of_eq (h : s'.builders = s.builders) (o : Option Error) : s.Turn o s' where
  toAges := .of_eq h
  settled hb _ := h ▸ hb
  outcome hb hb' hd := by
    rw [h, hb] at hb'
    cases hb'
    exact .inl hd

theorem Turn.refl (s : Store) (o : Option Error) : s.Turn o s := .of_eq rfl o

theorem Turn.trans (h : s.Turn none s') (h' : s'.Turn o s'') : s.Turn o s'' where
  toAges := h.toAges.trans h'.toAges
  settled hb hd := h'.settled (h.settled hb hd) hd
  outcome {b d d''} hb hb'' hd := by
    obtain ⟨d', hb', hages⟩ := h.builder hb
    rcases h.outcome hb hb' hd with hd' | ⟨ha, a, hd'⟩ | ⟨e, he, -⟩
    · rcases h'.outcome hb' hb'' hd' with hd'' | ⟨ha, a, hd''⟩ | hd''
      · exact .inl hd''
      · exact .inr (.inl ⟨hages.active ▸ ha, a, hd''⟩)
      · exact .inr (.inr hd'')
    · have hset := h'.settled hb' (by rw [hd']; intro h; cases h)
      cases hb''.symm.trans hset
      exact .inr (.inl ⟨ha, a, hd'⟩)
    · cases he

theorem Turn.congr (h : s.Turn o s') (he : s''.builders = s'.builders) : s.Turn o s'' where
  toAges := h.toAges.trans (.of_eq he)
  settled hb hd := he ▸ h.settled hb hd
  outcome hb hb' := h.outcome hb (he ▸ hb')

/-- A set with an entry in progress has not been built meanwhile. -/
theorem Turn.inside {d d' : Builder} (h : s.Turn o s') (hb : s.builders.get? b = some d)
    (hb' : s'.builders.get? b = some d') (hd : d.outcome = .underway) (ha : 0 < d.active) :
    d'.outcome = .underway ∨ ∃ e, o = some e ∧ d'.outcome = .failed e :=
  (h.outcome hb hb' hd).imp_right fun h => h.resolve_left fun ⟨h₀, _⟩ => by omega

/-- What succeeds leaves a set with an entry in progress as far as it was. -/
theorem Turn.inProgress (h : s.Turn none s') (hb : s.InProgress b) : s'.InProgress b := by
  obtain ⟨d, hb, hd, ha⟩ := hb
  obtain ⟨d', hb', hages⟩ := h.builder hb
  have hd' := (h.inside hb hb' hd ha).resolve_right fun ⟨e, he, _⟩ => by cases he
  exact ⟨d', hb', hd', hages.active ▸ ha⟩

theorem Turn.perform {a : Action} (ha : ∀ b name x isNew, a ≠ .setSlot b name x isNew)
    (s : Store) :
    s.Turn none (a.perform s).2 := by
  cases a with
  | newBuilder env entries recursive =>
    refine ⟨.perform _ s, fun hb _ => Heap.get?_push_of_some hb, fun hb hb' hd => .inl ?_⟩
    cases (Heap.get?_push_of_some hb).symm.trans hb'
    exact hd
  | setSlot b name x isNew => exact absurd rfl (ha b name x isNew)
  | _ =>
    refine .of_eq ?_ none
    rfl

/-- A slot is set in a set that is under way. -/
theorem Turn.setSlot (hb : s.InProgress b) (name : String) (x : Slot) (isNew : Bool) :
    s.Turn none (s.setSlot b name x isNew) := by
  obtain ⟨d, hb, hd, -⟩ := hb
  refine ⟨.perform (.setSlot b name x isNew) s, fun {b' d'} hb' hd' => ?_,
    fun {b' d' d''} hb' hb'' h => ?_⟩
  · rw [Store.setSlot, Heap.get?_modify, if_neg, hb']
    rintro rfl
    cases hb.symm.trans hb'
    exact hd' hd
  · rw [Store.setSlot, Heap.get?_modify] at hb''
    split at hb''
    · rw [hb'] at hb''
      cases hb''
      exact .inl h
    · cases hb'.symm.trans hb''
      exact .inl h

end Store

/-! ### Rules -/

/-- Anything but to touch a set under construction, or to bring in an expression that goes on after
an error. -/
def Rules.plain : Rules where
  holds s := s.Propagates
  act _ a := a.Plain Expr.Propagates
  ask _ q := q.Plain Expr.Propagates
  catches := False

theorem Rules.plain_permits : Rules.plain.Permits Expr.Propagates where
  toHereditary := Expr.propagates_hereditary
  act _ ha := ha
  ask _ hq := hq
  lambda hs hf := hs.lambda hf
  orElse h := Expr.not_propagates_orElse _ _ h

theorem Comp.Fair.propagates {c : Comp α} {r : Except Error α} (hc : c.Fair .plain s)
    (hs : s.Propagates) (hr : c.Ends s r s') : s'.Propagates :=
  (hc.mono (S := .within Expr.Propagates) id Action.Plain.brings Request.Plain.brings
    False.elim).all Expr.propagates_hereditary hs hr

/-- What an entry of a set may do besides: it sets slots of the set while this is under way. -/
def Rules.entry (b : Addr .builder) : Rules where
  holds s := s.InProgress b ∧ s.Propagates
  act s a := a.Plain Expr.Propagates ∨ ∃ name x isNew, a = .setSlot b name x isNew ∧
    s.Open b name x isNew ∧ x.All Expr.Propagates
  ask _ q := q.Plain Expr.Propagates
  catches := False

theorem Rules.entry_permits (b : Addr .builder) : (Rules.entry b).Permits Expr.Propagates where
  toHereditary := Expr.propagates_hereditary
  act _ ha := .inl ha
  ask _ hq := hq
  lambda hs hf := hs.2.lambda hf
  orElse h := Expr.not_propagates_orElse _ _ h

/-- An entry that is taken up is fair to the rules for entries, if its set is under way. -/
theorem Store.startEntry_fair {b : Addr .builder} {d : Builder} {c : Comp Bool}
    (hb : s.builders.get? b = some d) (h : s.startEntry b = .run c s') :
    s'.builders = s.builders.modify b
      (fun c => { c with next := c.next + 1, active := c.active + 1 }) ∧
    s'.builders.get? b = some { d with next := d.next + 1, active := d.active + 1 } ∧
    (d.outcome = .underway → s.Propagates →
      (Rules.entry b).holds s' ∧ c.Fair (.entry b) s') := by
  obtain ⟨d₀, e, hb₀, he, rfl, hs'⟩ := startEntry_run h
  cases hb.symm.trans hb₀
  have hbuilders : s'.builders = s.builders.modify b
      (fun c => { c with next := c.next + 1, active := c.active + 1 }) := by rw [hs']; rfl
  have hb' : s'.builders.get? b = some { d with next := d.next + 1, active := d.active + 1 } := by
    rw [hbuilders, Heap.get?_modify_self hb]
  refine ⟨hbuilders, hb', fun hd hs => ?_⟩
  have hholds : (Rules.entry b).holds s' :=
    ⟨⟨_, hb', hd, Nat.succ_pos _⟩, All.start (q := .entry b) hs h⟩
  have hmem : e ∈ d.entries.toList := Array.mem_toList_iff.mpr (Array.mem_of_getElem? he)
  have hdefine := (Rules.entry_permits b).define (b := b)
    (fun _ ho hx => .inr ⟨_, _, _, rfl, ho, hx⟩) (fun hs hx => hs.2.known hx) d.env
    (hs.entries hb e hmem)
  exact ⟨hholds, (hdefine.bind fun _ => .pure true) s' hholds⟩

/-- The assembly of a set does not touch a set under construction. -/
theorem Rules.assemble_fair (b : Addr .builder) (hs : s.Propagates) :
    (Comp.assemble b).Fair .plain s :=
  plain_permits.assemble hs fun _ hc => hs.slots hc

/-- A request is due: an entry is asked for while its set is under way, and the assembly when
besides no entry is in progress and all have been taken up. -/
def Request.Due (s : Store) : Request → Prop
  | .entry b => s.Underway b
  | .assemble b => ∃ d, s.builders.get? b = some d ∧ d.outcome = .underway ∧ d.active = 0 ∧
      d.entries.size ≤ d.next
  | _ => True

/-- The requests that are ever made if no expression goes on after an error. -/
structure Request.Legal (s : Store) (q : Request) : Prop where
  propagates : s.Propagates
  brings : q.Brings Expr.Propagates
  due : q.Due s

theorem Request.Plain.due {P : Expr → Prop} {q : Request} (h : q.Plain P) (s : Store) :
    q.Due s := by
  cases q with
  | entry b => exact h.elim
  | assemble b => exact h.elim
  | _ => trivial

theorem Request.Plain.legal {q : Request} (h : q.Plain Expr.Propagates) (hs : s.Propagates) :
    q.Legal s := ⟨hs, h.brings, h.due s⟩

theorem Request.Legal.kept {q : Request} {r : Except Error q.Answer} (h : q.Legal s)
    (hr : q.Ends s r s') : s'.Propagates :=
  h.propagates.ends Expr.propagates_hereditary h.brings hr

/-! ### Every request is a turn -/

theorem Action.Plain.turn {P : Expr → Prop} {a : Action} (h : a.Plain P) (s : Store) :
    s.Turn none (a.perform s).2 :=
  .perform (by rintro b name x isNew rfl; exact h) s

theorem Comp.run_perform_bind (a : Action) (f : a.Answer → Comp α) (n : Nat) (s : Store) :
    (Comp.perform a >>= f).run n s = (f (a.perform s).1).run n (a.perform s).2 := rfl

/-- The two ways of a construction: it answers at once, or it takes up the entries and then
assembles the set unless an entry is in progress. -/
theorem Comp.build_cases {n : Nat} {b : Addr .builder} {r : Except Error Unit}
    (hr : (Comp.build b).run n s = some (r, s')) :
    ((∀ d, s.builders.get? b = some d → (∃ a, d.outcome = .built a ∧ r = .ok ()) ∨
        ∃ e, d.outcome = .failed e ∧ r = .error e) ∧ s' = s) ∨
    ∃ d, s.builders.get? b = some d ∧ d.outcome = .underway ∧
      ((∃ e, (Comp.takeEntries b d.entries.size).run n s = some (.error e, s') ∧ r = .error e) ∨
      ∃ s₁ d₁, (Comp.takeEntries b d.entries.size).run n s = some (.ok (), s₁) ∧
        s₁.builders.get? b = some d₁ ∧
        ((d₁.active ≠ 0 ∧ r = .ok () ∧ s' = s₁) ∨ (d₁.active = 0 ∧
          ∃ r', (Request.assemble b).run n s₁ = some (r', s') ∧ r = r'.map fun _ => ()))) := by
  rw [Comp.build, Comp.run_perform_bind] at hr
  simp only [Action.perform] at hr
  cases hb : s.builders.get? b with
  | none =>
    rw [hb] at hr
    cases hr
    exact .inl ⟨fun d hd => (by cases hd), rfl⟩
  | some d =>
    simp only [hb] at hr
    cases hd : d.outcome with
    | built a =>
      obtain ⟨herr, hset⟩ := Builder.outcome_eq_built.mp hd
      simp only [herr, hset] at hr
      cases hr
      exact .inl ⟨fun d' hd' => by cases hd'; exact .inl ⟨a, hd, rfl⟩, rfl⟩
    | failed e =>
      simp only [Builder.outcome_eq_failed.mp hd] at hr
      cases hr
      exact .inl ⟨fun d' hd' => by cases hd'; exact .inr ⟨e, hd, rfl⟩, rfl⟩
    | underway =>
      obtain ⟨herr, hset⟩ := Builder.outcome_eq_underway.mp hd
      simp only [herr, hset] at hr
      refine .inr ⟨d, rfl, hd, ?_⟩
      -- an entry has failed, or all have been taken up and the set is looked at again
      rcases Comp.runWith_bind_iff.mp hr with ⟨u, s₁, h₁, h₂⟩ | ⟨e, h₁, rfl⟩
      · obtain ⟨d₁, hb₁, -⟩ := (Store.ages_law.ends ⟨n, h₁⟩).builder hb
        refine .inr ⟨s₁, d₁, h₁, hb₁, ?_⟩
        replace h₂ := (Comp.run_perform_bind (.builder b) _ n s₁).symm.trans h₂
        simp only [Action.perform, hb₁, Option.map_some] at h₂
        split at h₂
        · rename_i ha
          refine .inr ⟨Option.some.inj ha, ?_⟩
          rcases Comp.runWith_bind_iff.mp h₂ with ⟨x, s₂, h₃, h₄⟩ | ⟨e, h₃, rfl⟩ <;>
            rw [Comp.runWith_request] at h₃
          · cases h₄
            exact ⟨.ok x, h₃, rfl⟩
          · exact ⟨.error e, h₃, rfl⟩
        · rename_i ha
          cases h₂
          exact .inl ⟨fun h₀ => ha (congrArg some h₀), rfl, rfl⟩
      · exact .inl ⟨e, h₁, rfl⟩

/-- What all requests do within a number of levels. -/
structure Turns (n : Nat) : Prop where
  turn : ∀ {q : Request} {s s' : Store} {r : Except Error q.Answer}, q.Legal s →
    q.run n s = some (r, s') → s.Turn (failure? r) s'
  /-- After an entry that has succeeded its set is still under way; it is one entry further, or
  there was none left. -/
  entry : ∀ {b : Addr .builder} {d : Builder} {s s' : Store} {x : Bool}, s.Propagates →
    s.builders.get? b = some d → d.outcome = .underway →
    (Request.entry b).run n s = some (.ok x, s') →
    ∃ d', s'.builders.get? b = some d' ∧ d'.outcome = .underway ∧
      if x then d.next < d'.next else d'.entries.size ≤ d'.next

namespace Turns

variable {n : Nat} (h : Turns n) {r : Except Error α} {b : Addr .builder} {d : Builder}

include h

theorem plain {c : Comp α} (hc : c.Fair .plain s) (hs : s.Propagates)
    (hr : c.run n s = some (r, s')) : s.Turn (failure? r) s' :=
  Comp.Fair.law (R := .plain) .refl .trans False.elim
    (fun hs ha => ⟨ha.turn _, hs.perform ha.brings⟩)
    (fun hs hq hr => ⟨h.turn (hq.legal hs) hr,
      fun _ => hs.run Expr.propagates_hereditary hq.brings hr⟩) hc hs hr

theorem define {c : Comp α} (hc : c.Fair (.entry b) s) (hs : (Rules.entry b).holds s)
    (hr : c.run n s = some (r, s')) : s.Turn (failure? r) s' := by
  refine Comp.Fair.law (R := .entry b) .refl .trans False.elim (fun {s _} hs ha => ?_)
    (fun hs hq hr => ?_) hc hs hr
  · rcases ha with ha | ⟨name, x, isNew, rfl, -, hx⟩
    · have ht := ha.turn s
      exact ⟨ht, ht.inProgress hs.1, hs.2.perform ha.brings⟩
    · have ht := Store.Turn.setSlot hs.1 name x isNew
      exact ⟨ht, ht.inProgress hs.1, hs.2.perform (a := .setSlot b name x isNew) hx⟩
  · have ht := h.turn (hq.legal hs.2) hr
    refine ⟨ht, fun ho => ?_⟩
    rw [ho.resolve_right id] at ht
    exact ⟨ht.inProgress hs.1, hs.2.run Expr.propagates_hereditary hq.brings hr⟩

/-- The entries are taken up until there is none left, or as many as were asked for. -/
theorem takeEntries (m : Nat) {r : Except Error Unit} (hs : s.Propagates)
    (hb : s.builders.get? b = some d) (hd : d.outcome = .underway)
    (hr : (Comp.takeEntries b m).run n s = some (r, s')) :
    s.Turn (failure? r) s' ∧ s'.Propagates ∧ (r = .ok () → ∃ d', s'.builders.get? b = some d' ∧
      d'.outcome = .underway ∧ (d'.entries.size ≤ d'.next ∨ d.next + m ≤ d'.next)) := by
  induction m generalizing s d with
  | zero =>
    cases hr
    exact ⟨.refl _ _, hs, fun _ => ⟨d, hb, hd, .inr (Nat.le_refl _)⟩⟩
  | succ m ih =>
    have hlegal : (Request.entry b).Legal s := ⟨hs, trivial, d, hb, hd⟩
    rcases Comp.runWith_bind_iff.mp hr with ⟨x, s₁, h₁, h₂⟩ | ⟨e, h₁, rfl⟩ <;>
      rw [Comp.runWith_request] at h₁
    · have ht : s.Turn none s₁ := h.turn hlegal h₁
      obtain ⟨d₁, hb₁, hd₁, hx⟩ := h.entry hs hb hd h₁
      have hs₁ := hlegal.kept ⟨n, h₁⟩
      cases x with
      | true =>
        obtain ⟨ht', hs', hnext⟩ := ih hs₁ hb₁ hd₁ h₂
        refine ⟨ht.trans ht', hs', fun hok => ?_⟩
        obtain ⟨d', hb', hd', hn⟩ := hnext hok
        refine ⟨d', hb', hd', hn.imp_right fun hn => ?_⟩
        have hlt : d.next < d₁.next := hx
        omega
      | false =>
        cases h₂
        exact ⟨ht, hs₁, fun _ => ⟨d₁, hb₁, hd₁, .inl hx⟩⟩
    · exact ⟨h.turn hlegal h₁, hlegal.kept ⟨n, h₁⟩, fun he => by cases he⟩

/-- The construction of a set goes as far as it can; the set is assembled only if no entry of it is
in progress. -/
theorem build {r : Except Error Unit} (hs : s.Propagates)
    (hr : (Comp.build b).run n s = some (r, s')) : s.Turn (failure? r) s' := by
  rcases Comp.build_cases hr with ⟨-, hs⟩ | ⟨d, hb, hd, hr⟩
  · rw [hs]
    exact .refl _ _
  · rcases hr with ⟨e, h₁, rfl⟩ | ⟨s₁, d₁, h₁, hb₁, hr⟩
    · exact (h.takeEntries _ hs hb hd h₁).1
    · obtain ⟨ht, hs₁, hnext⟩ := h.takeEntries _ hs hb hd h₁
      obtain ⟨d', hb', hd', hn⟩ := hnext rfl
      cases hb₁.symm.trans hb'
      rcases hr with ⟨-, -, rfl⟩ | ⟨ha, r', h₂, rfl⟩
      · exact ht.trans (.refl _ _)
      · obtain ⟨d'', hb'', hages⟩ := ht.builder hb
        cases hb₁.symm.trans hb''
        have hlegal : (Request.assemble b).Legal s₁ :=
          ⟨hs₁, trivial, d₁, hb₁, hd', ha, hn.elim id fun hle => by rw [hages.entries]; omega⟩
        have ht₂ := ht.trans (h.turn hlegal h₂)
        cases r' <;> exact ht₂

omit h in
/-- A set under construction is entered, and left with what has come of it. -/
theorem around {s₁ s₂ : Store} {f : Builder → Builder} {o : Option Error}
    (hs : s₁.builders = s.builders.modify b f)
    (hf : ∀ d, (f d).env = d.env ∧ (f d).entries = d.entries ∧ d.next ≤ (f d).next ∧
      (f d).active = d.active + 1)
    (hb : s.builders.get? b = some d) (hd : d.outcome = .underway)
    (hf' : (f d).outcome = d.outcome) (ht : s₁.Turn o s₂)
    (out : Option (Except Error (Addr .set)))
    (hout : out = none ∨ (d.active = 0 ∧ o = none ∧ ∃ a, out = some (.ok a)) ∨
      ∃ e, o = some e ∧ out = some (.error e)) :
    s.Turn o (s₂.finishBuilder b out) := by
  have hget : ∀ {b' d'}, b ≠ b' → s.builders.get? b' = some d' →
      s₁.builders.get? b' = some d' := fun hne hb' => by
    rw [hs, Heap.get?_modify, if_neg hne, hb']
  refine ⟨.around hs hf ht.toAges out, fun {b' d'} hb' hd' => ?_,
    fun {b' d' d''} hb' hb'' hd' => ?_⟩
  · have hne : b ≠ b' := by
      rintro rfl
      cases hb.symm.trans hb'
      exact hd' hd
    rw [Store.finishBuilder, Heap.get?_modify, if_neg hne]
    exact ht.settled (hget hne hb') hd'
  · rw [Store.finishBuilder, Heap.get?_modify] at hb''
    split at hb''
    · subst b'
      cases hb.symm.trans hb'
      obtain ⟨d₂, hb₂, rfl⟩ := Option.map_eq_some_iff.mp hb''
      have hb₁ : s₁.builders.get? b = some (f d) := by
        rw [hs, Heap.get?_modify_self hb]
      -- an entry was in progress all the time, so the set has not been built
      have hopen := ht.inside hb₁ hb₂ (hf'.trans hd) ((hf d).2.2.2 ▸ Nat.succ_pos _)
      rcases hout with rfl | ⟨ha, rfl, a, rfl⟩ | ⟨e, rfl, rfl⟩
      · exact hopen.imp_right .inr
      · have hd₂ := hopen.resolve_right fun ⟨e, he, _⟩ => by cases he
        exact .inr (.inl ⟨ha, a, d₂.leave_outcome_ok hd₂ a⟩)
      · exact .inr (.inr ⟨e, rfl, d₂.leave_outcome_error e⟩)
    · exact ht.outcome (hget ‹_› hb') hb'' hd'

theorem entry_succ {r : Except Error Bool} (hs : s.Propagates) (hb : s.builders.get? b = some d)
    (hd : d.outcome = .underway) (hr : (Request.entry b).run (n + 1) s = some (r, s')) :
    s.Turn (failure? r) s' ∧ ∀ x, r = .ok x → ∃ d', s'.builders.get? b = some d' ∧
      d'.outcome = .underway ∧ if x then d.next < d'.next else d'.entries.size ≤ d'.next := by
  rcases Request.run_succ_cases hr with hq | ⟨c, s₁, s₂, hq, h₂, rfl⟩
  · obtain rfl := Request.start_answer hq
    refine ⟨.refl _ _, fun x hx => ⟨d, hb, hd, ?_⟩⟩
    simp only [Request.start, Store.startEntry, hb] at hq
    split at hq
    · rename_i hnone
      cases hq
      cases hx
      exact Array.getElem?_eq_none_iff.mp hnone
    · cases hq
  · obtain ⟨hs₁, hb₁, hfair⟩ := Store.startEntry_fair hb hq
    obtain ⟨hholds, hfair⟩ := hfair hd hs
    have ht := h.define hfair hholds h₂
    -- the definition is a turn of its own, between the start and the end of the entry
    have hleave := around hs₁ (fun d => ⟨rfl, rfl, Nat.le_succ _, rfl⟩) hb hd rfl ht
    cases r with
    | ok x =>
      refine ⟨hleave none (.inl rfl), fun y hy => ?_⟩
      cases hy
      obtain ⟨d₂, hb₂, hd₂, -⟩ := ht.inProgress hholds.1
      obtain ⟨d₂', hb₂', hages⟩ := ht.builder hb₁
      cases hb₂.symm.trans hb₂'
      refine ⟨d₂.leave none, Heap.get?_modify_self hb₂ _, hd₂, ?_⟩
      obtain ⟨d₀, e, -, -, rfl, -⟩ := Store.startEntry_run hq
      obtain ⟨u, s₃, -, h₄⟩ := Comp.runWith_bind_ok.mp h₂
      cases h₄
      exact hages.next
    | error e =>
      exact ⟨hleave (some (.error e)) (.inr (.inr ⟨e, rfl, rfl⟩)), fun x hx => by cases hx⟩

theorem assemble_succ {r : Except Error (Addr .set)} (hlegal : (Request.assemble b).Legal s)
    (hr : (Request.assemble b).run (n + 1) s = some (r, s')) : s.Turn (failure? r) s' := by
  obtain ⟨d, hb, hd, ha, -⟩ := hlegal.due
  obtain ⟨s₂, h₂, rfl⟩ := Request.run_of_start rfl hr
  have hs₁ := Store.All.start (q := .assemble b) hlegal.propagates rfl
  have ht := h.plain (Rules.assemble_fair b hs₁) hs₁ h₂
  have hleave := around (f := fun c => { c with active := c.active + 1 }) rfl
    (fun d => ⟨rfl, rfl, Nat.le_refl _, rfl⟩) hb hd rfl ht
  cases r with
  | ok a => exact hleave (some (.ok a)) (.inr (.inl ⟨ha, rfl, a, rfl⟩))
  | error e => exact hleave (some (.error e)) (.inr (.inr ⟨e, rfl, rfl⟩))

theorem plain_succ {q : Request} {r : Except Error q.Answer} (hq : q.Plain Expr.Propagates)
    (hs : s.Propagates) (hr : q.run (n + 1) s = some (r, s')) : s.Turn (failure? r) s' := by
  rcases Request.run_succ_cases hr with hstart | ⟨c, s₁, s₂, hstart, h₂, rfl⟩
  · obtain rfl := Request.start_answer hstart
    exact .refl _ _
  · refine .congr ?_ (Request.builders_finish hq r s₂)
    rcases Request.start_builders hstart with ⟨b, -, -, rfl, -⟩ | ⟨b, rfl, -⟩ | ⟨-, hb, -⟩
    · exact hq.elim
    · exact hq.elim
    · refine (Store.Turn.of_eq hb none).trans ?_
      have hs₁ := Store.All.start hs hstart
      by_cases hbuild : ∃ b, q = .build b
      · obtain ⟨b, rfl⟩ := hbuild
        cases hstart
        exact h.build hs h₂
      · have hfair := Rules.plain_permits.start hq (fun b hb => hbuild ⟨b, hb⟩)
          (fun t env body _ ht => hs.thunk ht) hstart
        exact h.plain (hfair s₁ hs₁) hs₁ h₂

theorem succ : Turns (n + 1) where
  entry hs hb hd hr := (h.entry_succ hs hb hd hr).2 _ rfl
  turn {q s s' r} hlegal hr := by
    cases q with
    | entry b =>
      obtain ⟨d, hb, hd⟩ := hlegal.due
      exact (h.entry_succ hlegal.propagates hb hd hr).1
    | assemble b => exact h.assemble_succ hlegal hr
    | eval env e => exact h.plain_succ (q := .eval env e) hlegal.brings hlegal.propagates hr
    | _ => exact h.plain_succ trivial hlegal.propagates hr

end Turns

theorem turns (n : Nat) : Turns n := by
  induction n with
  | zero => exact ⟨fun _ hr => (by cases hr), fun _ _ _ hr => (by cases hr)⟩
  | succ n ih => exact ih.succ

/-- **Every request is a turn** of all sets under construction. -/
theorem Request.Legal.turn {q : Request} {r : Except Error q.Answer} (h : q.Legal s)
    (hr : q.Ends s r s') : s.Turn (failure? r) s' := by
  obtain ⟨n, hn⟩ := hr
  exact (turns n).turn h hn

/-- A request that is due enters a set that is under way, or leaves all of them as they are. -/
theorem Request.Legal.enters {q : Request} {c : Comp q.Answer} (h : q.Legal s)
    (hq : q.start s = .run c s') :
    (∃ b f, (q = .entry b ∨ q = .assemble b) ∧ s.Underway b ∧
      s'.builders = s.builders.modify b f ∧
      ∀ d : Builder, (f d).outcome = d.outcome ∧ (f d).active = d.active + 1) ∨
    (q.Plain (fun _ => True) ∧ s'.builders = s.builders) := by
  rcases Request.start_builders hq with ⟨b, d, e, rfl, -, -, hs, -⟩ | ⟨b, rfl, hs, -⟩ | ⟨hp, hs, -⟩
  · exact .inl ⟨b, _, .inl rfl, h.due, hs, fun _ => ⟨rfl, rfl⟩⟩
  · obtain ⟨d, hb, hd, -⟩ := h.due
    exact .inl ⟨b, _, .inr rfl, ⟨d, hb, hd⟩, hs, fun _ => ⟨rfl, rfl⟩⟩
  · exact .inr ⟨hp, hs⟩

/-- A set that is entered is under way from then on, unless it fails. -/
theorem Request.Legal.inside {q : Request} {c : Comp q.Answer} {s₁ s₂ : Store} {o : Option Error}
    {b : Addr .builder} {d : Builder} (h : q.Legal s) (hq : q.start s = .run c s₁)
    (hqb : q = .entry b ∨ q = .assemble b) (ht : s₁.Turn o s₂)
    (hb : s₂.builders.get? b = some d) :
    d.outcome = .underway ∨ ∃ e, o = some e ∧ d.outcome = .failed e := by
  rcases h.enters hq with ⟨b', f, hqb', ⟨d₀, hb₀, hd₀⟩, hs₁, hf⟩ | ⟨hp, -⟩
  · obtain rfl : b' = b := by
      rcases hqb with rfl | rfl <;> rcases hqb' with h | h <;> cases h <;> rfl
    have hb₁ : s₁.builders.get? b' = some (f d₀) := by rw [hs₁, Heap.get?_modify_self hb₀]
    exact ht.inside hb₁ hb ((hf d₀).1.trans hd₀) ((hf d₀).2 ▸ Nat.succ_pos _)
  · rcases hqb with rfl | rfl <;> exact hp.elim

end NixKernel
