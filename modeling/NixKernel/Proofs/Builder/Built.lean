import NixKernel.Proofs.Builder.Known

/-!
The set that comes of a construction. Its attributes are what was known of them when it was
assembled: a plain definition is the attribute, and the entries collected for a name have become a
set. By then all entries have been taken up, so nothing is added while the set is assembled, nor
after that.
-/

namespace NixKernel

variable {α β : Type} {s s' s'' s₀ : Store} {b : Addr .builder} {name : String} {a : Addr .set}

/-! ### The finished set -/

/-- The set that has come of a construction. -/
def Outcome.set? : Outcome → Option (Addr .set)
  | .built a => some a
  | _ => none

/-- What a slot can become in the finished set. -/
def Slot.Yields : Slot → Value → Prop
  | .leaf v, w => w = v
  | .tree _, w => ∃ a, w = .set a

namespace Store

/-- The set that has come of the construction of a set. -/
def built? (s : Store) (b : Addr .builder) : Option (Addr .set) :=
  (s.builders.get? b).bind fun d => d.outcome.set?

theorem built?_eq_some : s.built? b = some a ↔
    ∃ d, s.builders.get? b = some d ∧ d.outcome = .built a := by
  refine Option.bind_eq_some_iff.trans (exists_congr fun d => and_congr_right fun _ => ?_)
  cases d.outcome with
  | built a' => simp [Outcome.set?]
  | _ => simp [Outcome.set?]

theorem InProgress.built? (h : s.InProgress b) : s.built? b = none := by
  obtain ⟨d, hb, hd, -⟩ := h
  rw [Store.built?, hb, Option.bind_some, hd]
  rfl

/-- All entries of the set have been taken up. -/
def Full (s : Store) (b : Addr .builder) : Prop :=
  ∃ d, s.builders.get? b = some d ∧ d.entries.size ≤ d.next

/-- Once all entries have been taken up, no more becomes known of the set. -/
structure Rests (b : Addr .builder) (s s' : Store) : Prop where
  full : s.Full b → s'.Full b
  known : s.Full b → ∀ name, s'.known b name = s.known b name

/-- The names go together with the slots, and if the set is built, then its attributes are what was
known of them. -/
structure Faithful (s : Store) (b : Addr .builder) : Prop where
  ordered : s.OrderedAt b
  built : ∀ {a}, s.built? b = some a → ∃ m, s.sets.get? a = some m ∧
    ∀ name, Option.Rel Slot.Yields (s.known b name) (m.get? name)

theorem Faithful.get?_of_none (h : s.Faithful b) (ha : s.built? b = some a)
    (hk : s.known b name = none) : (s.attrs a).get? name = none := by
  obtain ⟨m, hm, hrel⟩ := h.built ha
  have hname := hrel name
  rw [attrs, hm, Option.getD_some]
  rw [hk] at hname
  cases hv : m.get? name with
  | none => rfl
  | some v =>
    rw [hv] at hname
    cases hname

theorem Faithful.get?_of_some (h : s.Faithful b) (ha : s.built? b = some a) {x : Slot}
    (hk : s.known b name = some x) : ∃ v, (s.attrs a).get? name = some v ∧ x.Yields v := by
  obtain ⟨m, hm, hrel⟩ := h.built ha
  have hname := hrel name
  rw [attrs, hm, Option.getD_some]
  rw [hk] at hname
  cases hv : m.get? name with
  | none =>
    rw [hv] at hname
    cases hname
  | some v =>
    rw [hv] at hname
    cases hname with
    | some h => exact ⟨v, rfl, h⟩

theorem Rests.refl (b : Addr .builder) (s : Store) : s.Rests b s := ⟨id, fun _ _ => rfl⟩

theorem Rests.trans (h : Rests b s s') (h' : Rests b s' s'') : Rests b s s'' :=
  ⟨fun hf => h'.full (h.full hf),
    fun hf name => (h'.known (h.full hf) name).trans (h.known hf name)⟩

theorem Full.of_ages (h : s.Full b) (ha : s.Ages s') : s'.Full b := by
  obtain ⟨d, hb, hle⟩ := h
  obtain ⟨d', hb', hages⟩ := ha.builder hb
  exact ⟨d', hb', hages.entries ▸ Nat.le_trans hle hages.next⟩

theorem Full.start (h : s.Full b) {q : Request} {c : Comp q.Answer}
    (hq : q.start s = .run c s') : s'.Full b := by
  obtain ⟨d, hb, hle⟩ := h
  obtain ⟨f, hf, hcell⟩ := Request.start_cells hq
  obtain ⟨hkeeps, -, hnext⟩ := hcell b d
  exact ⟨f b d, by rw [hf, hb]; rfl, hkeeps.entries ▸ Nat.le_trans hle hnext⟩

theorem Full.finish (h : s.Full b) (q : Request) (r : Except Error q.Answer) :
    (q.finish r s).Full b := by
  obtain ⟨d, hb, hle⟩ := h
  obtain ⟨f, hf, hcell⟩ := q.finish_cells r s
  obtain ⟨hkeeps, hnext⟩ := hcell b d
  exact ⟨f b d, by rw [hf, hb]; rfl, by rw [hkeeps.entries, hnext]; exact hle⟩

/-- An entry of a set with all entries taken up is not started. -/
theorem Full.ne_entry (h : s.Full b) {q : Request} {c : Comp q.Answer}
    (hq : q.start s = .run c s') : q ≠ .entry b := by
  rintro rfl
  obtain ⟨d, hb, hle⟩ := h
  obtain ⟨d', e, hb', he, -⟩ := startEntry_run hq
  cases hb.symm.trans hb'
  exact absurd (Array.getElem?_eq_some_iff.mp he).1 (Nat.not_lt.mpr hle)

/-! ### What a step does to the finished set -/

theorem built?_perform (x : Action) (s : Store) (b : Addr .builder) :
    (x.perform s).2.built? b = s.built? b := by
  cases x with
  | newBuilder env entries recursive =>
    simp only [built?, Action.perform, newBuilder, Heap.get?_push]
    split
    · subst b
      rw [Heap.get?_next]
      rfl
    · rfl
  | setSlot b' name x isNew =>
    simp only [built?, Action.perform, setSlot, Heap.get?_modify]
    split
    · cases s.builders.get? b <;> rfl
    · rfl
  | _ => rfl

theorem built?_start {q : Request} {c : Comp q.Answer} (hq : q.start s = .run c s')
    (b : Addr .builder) : s'.built? b = s.built? b := by
  obtain ⟨f, hf, hcell⟩ := Request.start_cells hq
  rw [built?, hf, built?]
  cases s.builders.get? b with
  | none => rfl
  | some d =>
    obtain ⟨hset, herr⟩ := (hcell b d).2.1
    exact congrArg Outcome.set? (Builder.outcome_congr hset herr)

theorem built?_finishBuilder {b' : Addr .builder} {out : Option (Except Error (Addr .set))}
    (h : (s.finishBuilder b' out).built? b = some a) :
    s.built? b = some a ∨ (b' = b ∧ out = some (.ok a)) := by
  obtain ⟨d, hb, hd⟩ := built?_eq_some.mp h
  rw [finishBuilder, Heap.get?_modify] at hb
  split at hb
  · rename_i hbb
    obtain ⟨d₀, hb₀, rfl⟩ := Option.map_eq_some_iff.mp hb
    rcases out with _ | e | a'
    · exact .inl (built?_eq_some.mpr ⟨d₀, hb₀, hd⟩)
    · cases hd
    · cases Builder.set_of_built hd
      exact .inr ⟨hbb, rfl⟩
  · exact .inl (built?_eq_some.mpr ⟨d, hb, hd⟩)

/-- No request makes a set when it starts. -/
theorem sets_start {q : Request} {c : Comp q.Answer} (hq : q.start s = .run c s') :
    s'.sets = s.sets := by
  cases q with
  | force t =>
    obtain ⟨env, body, -, -, -, rfl⟩ := startForce_run hq
    rw [enter, changeDepth_eq]
    rfl
  | entry b =>
    obtain ⟨d, e, -, -, -, rfl⟩ := startEntry_run hq
    rfl
  | assemble b =>
    cases hq
    rfl
  | _ =>
    cases hq
    rfl

/-- No request makes a set when it ends. -/
theorem sets_finish (q : Request) (r : Except Error q.Answer) (s : Store) :
    (q.finish r s).sets = s.sets := by
  cases q with
  | force t =>
    simp only [Request.finish, finishForce]
    split
    · rw [leave, changeDepth_eq]
      cases r <;> rfl
    · rfl
  | entry b => cases r <;> rfl
  | assemble b => cases r <;> rfl
  | _ => rfl

theorem Faithful.of_same (h : s.Faithful b) (hordered : s'.OrderedAt b)
    (hbuilt : ∀ {a}, s'.built? b = some a → s.built? b = some a ∧
      ∀ name, s'.known b name = s.known b name)
    (hset : ∀ {a m}, s.sets.get? a = some m → s'.sets.get? a = some m) : s'.Faithful b where
  ordered := hordered
  built ha := by
    obtain ⟨hb, hknown⟩ := hbuilt ha
    obtain ⟨m, hm, hrel⟩ := h.built hb
    exact ⟨m, hset hm, fun name => hknown name ▸ hrel name⟩

theorem Faithful.perform (h : s.Faithful b) {x : Action}
    (hx : ∀ name y isNew, x = .setSlot b name y isNew →
      s.InProgress b ∧ isNew = (s.known b name).isNone) : (x.perform s).2.Faithful b := by
  refine h.of_same (h.ordered.perform fun name y isNew hy => (hx name y isNew hy).2) (fun ha => ?_)
    (Later.perform x s).set
  rw [built?_perform] at ha
  refine ⟨ha, fun name => known_perform (fun y isNew hy => ?_) s⟩
  rw [(hx name y isNew hy).1.built?] at ha
  cases ha

theorem Faithful.start (h : s.Faithful b) {q : Request} {c : Comp q.Answer}
    (hq : q.start s = .run c s') : s'.Faithful b :=
  h.of_same (h.ordered.start hq)
    (fun ha => ⟨built?_start hq b ▸ ha, fun name => known_start hq b name⟩)
    fun hm => sets_start hq ▸ hm

/-- A request has ended that has not assembled the set. -/
theorem Faithful.finish (h : s.Faithful b) {q : Request} (r : Except Error q.Answer)
    (hq : q ≠ .assemble b) : (q.finish r s).Faithful b := by
  refine h.of_same (h.ordered.finish q r) (fun ha => ⟨?_, fun name => known_finish q r s b name⟩)
    fun hm => sets_finish q r s ▸ hm
  cases q with
  | force t =>
    rw [built?, Request.finish, s.builders_finishForce t r] at ha
    exact ha
  | entry b' =>
    cases r with
    | ok x => exact (built?_finishBuilder ha).resolve_right fun h => by cases h.2
    | error e => exact (built?_finishBuilder ha).resolve_right fun h => by cases h.2
  | assemble b' =>
    have hne : b' ≠ b := fun h => hq (h ▸ rfl)
    exact (built?_finishBuilder ha).resolve_right fun h => hne h.1
  | _ => exact ha

end Store

/-! ### Assembly -/

/-- What is done for all members of a list yields a list of what is done for each. -/
theorem Comp.mapM_forall₂ {f : β → Comp α} {R : β → α → Prop}
    (hf : ∀ {y x s s'}, (f y).Ends s (.ok x) s' → R y x) {l : List β} {xs : List α}
    (h : (l.mapM f).Ends s (.ok xs) s') : List.Forall₂ R l xs := by
  induction l generalizing s s' xs with
  | nil =>
    obtain ⟨hx, -⟩ := ends_pure.mp h
    cases hx
    exact .nil
  | cons y l ih =>
    rw [List.mapM_cons] at h
    obtain ⟨x, s₁, h₁, h₂⟩ := ends_bind_ok.mp h
    obtain ⟨xs', s₂, h₃, h₄⟩ := ends_bind_ok.mp h₂
    obtain ⟨hx, -⟩ := ends_pure.mp h₄
    cases hx
    exact .cons (hf h₁) (ih h₃)

theorem Comp.slotValue_yields {env : Env} {x : Slot} {w : Value}
    (h : (Comp.slotValue env x).Ends s (.ok w) s') : x.Yields w := by
  cases x with
  | leaf v =>
    obtain ⟨hw, -⟩ := ends_pure.mp h
    exact Except.ok.inj hw
  | tree es =>
    obtain ⟨a, s₁, -, h₂⟩ := ends_bind_ok.mp h
    obtain ⟨hw, -⟩ := ends_pure.mp h₂
    exact ⟨a, Except.ok.inj hw⟩

/-- The attributes of an assembled set are what was known when the assembly began. -/
theorem Comp.assemble_yields {d : Builder} (hb : s.builders.get? b = some d) (hd : d.Ordered)
    (h : (Comp.assemble b).Ends s (.ok a) s') :
    ∃ m, s'.sets.get? a = some m ∧
      ∀ name, Option.Rel Slot.Yields (s.known b name) (m.get? name) := by
  obtain ⟨bs, s₁, h₁, h₂⟩ := ends_bind_ok.mp ((Comp.ends_assemble hb hd).mp h)
  obtain ⟨ha, rfl⟩ := ends_perform.mp h₂
  cases ha
  have hall : List.Forall₂ (Binding Slot.Yields) d.slots bs := by
    refine Comp.mapM_forall₂ (fun {p q s s'} h => ?_) h₁
    obtain ⟨w, s₂, hw, hq⟩ := ends_bind_ok.mp h
    obtain ⟨hq, -⟩ := ends_pure.mp hq
    cases hq
    exact ⟨rfl, slotValue_yields hw⟩
  have hnames : (bs.map Prod.fst).Nodup := names_alike hall ▸ hd.nodup
  refine ⟨_, Heap.get?_push_next _ _, fun name => ?_⟩
  rw [Store.known_eq hb, Attrs.get?_ofList, Attrs.lookup_reverse_of_nodup hnames]
  exact lookup_alike hall name

/-- The assembly of a set has ended: if it has not failed, then the set is what was known of it when
the assembly began. -/
theorem Store.Faithful.assemble {s₁ s₂ : Store} {d : Builder} {c : Comp (Addr .set)}
    {r : Except Error (Addr .set)} (h : s₂.Faithful b) (hb : s.builders.get? b = some d)
    (hq : (Request.assemble b).start s = .run c s₁) (hends : c.Ends s₁ r s₂)
    (hordered : s₁.OrderedAt b) (hknown : ∀ name, s₂.known b name = s₁.known b name) :
    ((Request.assemble b).finish r s₂).Faithful b := by
  obtain ⟨f, hf, -⟩ := Request.start_cells hq
  have hb₁ : s₁.builders.get? b = some (f b d) := by rw [hf, hb]; rfl
  refine ⟨h.ordered.finish (.assemble b) r, fun {a'} ha' => ?_⟩
  -- the set was there before, or it is the one that has been assembled
  rcases Store.built?_finishBuilder ha' with ha' | ⟨-, hr⟩
  · obtain ⟨m, hm, hrel⟩ := h.built ha'
    exact ⟨m, hm, fun name => Store.known_finish (.assemble b) r s₂ b name ▸ hrel name⟩
  · cases hq
    cases hr
    obtain ⟨m, hm, hrel⟩ := Comp.assemble_yields hb₁ (hordered _ hb₁) hends
    refine ⟨m, hm, fun name => ?_⟩
    rw [Store.known_finish, hknown]
    exact hrel name

/-! ### Every request -/

/-- **The finished set is what was known of it**, after every request. -/
theorem Request.Legal.faithful {q : Request} {r : Except Error q.Answer} (h : q.Legal s)
    (hr : q.Ends s r s') (hs : s.Faithful b) : s'.Faithful b := by
  refine (Request.Legal.law
    (T := fun q s _ s' => (q ≠ .entry b → s.Rests b s') ∧ (s.Faithful b → s'.Faithful b))
    (U := fun s _ s' => s.Rests b s' ∧ (s.Faithful b → s'.Faithful b))
    (fun s _ => ⟨.refl b s, id⟩) (fun _ s _ => ⟨fun _ => .refl b s, id⟩)
    (fun h h' => ⟨fun hq => (h.1 hq).trans (h'.1 hq), fun hs => h'.2 (h.2 hs)⟩)
    (fun {q s x} hs hx => ⟨fun hq => ⟨fun hf => hf.of_ages (.perform x s), fun _ name => ?_⟩,
      fun hf => hf.perform fun name y isNew hy => ?_⟩)
    (fun _ _ _ h => ⟨fun _ => h.1, h.2⟩) ?_ h hr).2 hs
  · refine Store.known_perform (fun y isNew hy => ?_) s
    rcases Rules.frame_act hx with hp | ⟨b', name', y', isNew', rfl, hx', -⟩
    · rw [hy] at hp
      exact hp
    · rw [hy] at hx'
      cases hx'
      exact hq rfl
  · rcases Rules.frame_act hx with hp | ⟨b', name', y', isNew', rfl, hx', hopen, -⟩
    · rw [hy] at hp
      exact hp.elim
    · rw [hy] at hx'
      cases hx'
      exact ⟨hs.1, hopen.isNew⟩
  · rintro q s s₁ s₂ c r hlegal hq hends - ⟨hrests, hfaithful⟩
    have hknown : s.Full b → ∀ name, s₂.known b name = s₁.known b name := fun h =>
      (hrests (h.ne_entry hq)).known (h.start hq)
    refine ⟨⟨fun h => ((hrests (h.ne_entry hq)).full (h.start hq)).finish q r, fun h name => ?_⟩,
      fun hs => ?_⟩
    · rw [Store.known_finish, hknown h, Store.known_start hq]
    · have hs₁ := hs.start hq
      by_cases hqb : q = .assemble b
      · subst hqb
        obtain ⟨d, hb, -, -, hle⟩ := hlegal.due
        exact (hfaithful hs₁).assemble hb hq hends hs₁.ordered (hknown ⟨d, hb, hle⟩)
      · exact (hfaithful hs₁).finish r hqb

/-- A set that was not built when the calls began: whenever it is built, its attributes are what is
known of them. -/
theorem Machine.Passes.faithful {calls : List Call} {m : Machine Unit} (hs : s₀.Rested)
    (hc : ∀ c ∈ calls, c.All Expr.Propagates) (hb : s₀.built? b = none)
    (h : (load (.callAll calls) s₀).Passes m) : m.store.Faithful b := by
  have hkept := Comp.Sound.kept s₀
  refine (h.of_load (Q := fun top {_} c s => Comp.Sound s₀ top c s ∧ s.Faithful b)
    ⟨fun {_ _ x _ _} h => ⟨hkept.act h.1, h.2.perform fun name y isNew hy => ?_⟩,
      fun h hr => ⟨hkept.answered h.1 hr, h.1.behaves.legal.faithful hr h.2⟩,
      fun h hq => ⟨hkept.inside h.1 hq, h.2.start hq⟩⟩
    ⟨Comp.callAll_sound hs hc, fun d hd => (hs.proper b d hd).toOrdered, fun ha => ?_⟩).2
  · rcases h.1.behaves.act_cases with hp | ⟨b', name', y', isNew', -, hx, hb', hopen⟩
    · rw [hy] at hp
      exact hp.elim
    · rw [hy] at hx
      cases hx
      exact ⟨hb', hopen.isNew⟩
  · rw [hb] at ha
    cases ha

end NixKernel
