import NixKernel.Proofs.Attrs
import NixKernel.Proofs.Builder.Outcome
import NixKernel.Proofs.Later

/-!
What is known of the attributes of a set under construction. The names in order and the slots are
kept apart; they go together as long as a name is put at the end of the order just when nothing was
known of it. Nothing that runs forgets a name.
-/

namespace NixKernel

variable {s s' : Store} {b : Addr .builder} {name : String}

/-! ### Names in order -/

namespace Builder

variable {c : Builder} {x : Slot} {isNew : Bool}

/-- The names in order are the names of the slots, and no name is there twice. -/
structure Ordered (c : Builder) : Prop where
  names : c.order = c.slots.map Prod.fst
  nodup : (c.slots.map Prod.fst).Nodup

/-- Other slots, with their names in order. -/
def withSlots (c : Builder) (slots : List (String × Slot)) : Builder :=
  { c with order := slots.map Prod.fst, slots := slots }

theorem withSlots_self (h : c.order = c.slots.map Prod.fst) : c.withSlots c.slots = c := by
  rw [withSlots, ← h]

/-- A name is put at the end of the order just when nothing was known of it. -/
theorem put_eq (h : c.order = c.slots.map Prod.fst) (hn : isNew = (c.slots.lookup name).isNone) :
    c.put name x isNew = c.withSlots (setKey name x c.slots) := by
  subst hn
  rw [put, withSlots, h, names_setKey]

theorem Ordered.put (h : c.Ordered) (hn : isNew = (c.slots.lookup name).isNone) :
    (c.put name x isNew).Ordered := by
  rw [put_eq h.names hn]
  exact ⟨rfl, nodup_setKey h.nodup⟩

/-- Another state of a set under construction, in which the same is to be defined and the same is
known. -/
structure Keeps (d d' : Builder) : Prop where
  env : d'.env = d.env
  entries : d'.entries = d.entries
  order : d'.order = d.order
  slots : d'.slots = d.slots

theorem Keeps.refl (d : Builder) : d.Keeps d := ⟨rfl, rfl, rfl, rfl⟩

theorem keeps_leave (d : Builder) (r : Option (Except Error (Addr .set))) : d.Keeps (d.leave r) :=
  ⟨d.leave_env r, d.leave_entries r, d.leave_order r, d.leave_slots r⟩

theorem Ordered.keeps {d d' : Builder} (h : d.Ordered) (hd : d.Keeps d') : d'.Ordered where
  names := by rw [hd.order, hd.slots, h.names]
  nodup := hd.slots ▸ h.nodup

end Builder

/-! ### The slots one after the other -/

/-- The binding that a slot becomes. -/
def Comp.slotBinding (env : Env) (p : String × Slot) : Comp (String × Value) := do
  return (p.1, ← Comp.slotValue env p.2)

theorem Comp.mapM_congr {α β : Type} {f g : α → Comp β} {l : List α} (h : ∀ a ∈ l, f a = g a) :
    l.mapM f = l.mapM g := by
  induction l with
  | nil => rfl
  | cons a l ih =>
    rw [List.mapM_cons, List.mapM_cons, h a List.mem_cons_self,
      ih fun a ha => h a (List.mem_cons_of_mem _ ha)]

/-- Going through the names in order is going through the slots. -/
theorem Builder.Ordered.mapM_order {c : Builder} (h : c.Ordered) (env : Env) :
    (c.order.mapM fun name => do
      return (name, ← Comp.slotValue env (← Comp.ofCell (c.slots.lookup name)))) =
    c.slots.mapM (Comp.slotBinding env) := by
  rw [h.names, List.mapM_map]
  refine Comp.mapM_congr fun p hp => ?_
  rw [Function.comp_apply, Attrs.lookup_of_mem h.nodup hp]
  rfl

/-- The assembly of a set goes through its slots. -/
theorem Comp.ends_assemble {c : Builder} (hb : s.builders.get? b = some c) (h : c.Ordered)
    {r : Except Error (Addr .set)} : (Comp.assemble b).Ends s r s' ↔ (do
      let bindings ← c.slots.mapM (Comp.slotBinding c.env)
      Comp.perform (.newSet (.ofList bindings))).Ends s r s' := by
  rw [← h.mapM_order]
  refine (Comp.perform_ends (.builder b) s).bind_iff.trans ?_
  simp only [Action.perform, hb]

/-! ### What is known of an attribute -/

/-- What is known of an attribute of a set under construction. -/
def Store.known (s : Store) (b : Addr .builder) (name : String) : Option Slot :=
  (s.builders.get? b).bind fun c => c.slots.lookup name

/-- Reading a slot has no effect. -/
theorem Comp.ends_slot {r : Except Error (Option Slot)} :
    (Comp.slot b name).Ends s r s' ↔ r = .ok (s.known b name) ∧ s' = s :=
  (Comp.perform_ends (.builder b) s).bind_iff.trans Comp.ends_pure

namespace Store

variable {isNew : Bool}

theorem known_eq {d : Builder} (hb : s.builders.get? b = some d) :
    s.known b name = d.slots.lookup name := by rw [known, hb]; rfl

theorem known_map {f : Addr .builder → Builder → Builder}
    (h : ∀ b, s'.builders.get? b = (s.builders.get? b).map (f b))
    (hf : ∀ b d, Builder.Keeps d (f b d)) (b : Addr .builder) (name : String) :
    s'.known b name = s.known b name := by
  rw [known, h, known]
  cases s.builders.get? b with
  | none => rfl
  | some d => exact congrArg (List.lookup name) (hf b d).slots

theorem known_setSlot_self {d : Builder} (hb : s.builders.get? b = some d) (x : Slot) :
    (s.setSlot b name x isNew).known b name = some x := by
  rw [known, get?_setSlot hb]
  exact (lookup_setKey name name x d.slots).trans (if_pos rfl)

theorem known_setSlot_ne {b' : Addr .builder} {k : String} (h : b' = b → k ≠ name) (x : Slot) :
    (s.setSlot b' k x isNew).known b name = s.known b name := by
  rw [known, setSlot, Heap.get?_modify]
  split
  · rename_i hb
    rw [known]
    cases s.builders.get? b with
    | none => rfl
    | some d => exact (lookup_setKey k name x d.slots).trans (if_neg fun hk => h hb hk.symm)
  · rfl

/-- No action but to set it changes what is known of an attribute. -/
theorem known_perform {a : Action} (ha : ∀ x isNew, a ≠ .setSlot b name x isNew) (s : Store) :
    (a.perform s).2.known b name = s.known b name := by
  cases a with
  | newBuilder env entries recursive =>
    simp only [known, Action.perform, newBuilder, Heap.get?_push]
    split
    · subst b
      rw [Heap.get?_next]
      rfl
    · rfl
  | setSlot b' k x isNew =>
    refine known_setSlot_ne (fun hb hk => ha x isNew ?_) x
    rw [hb, hk]
  | _ => rfl

end Store

/-! ### Starting and ending -/

/-- The cells of a store with one of them replaced. -/
theorem Heap.get?_modify_map {h : Heap .builder Builder} {f : Builder → Builder}
    (b' : Addr .builder) : (h.modify b f).get? b' = (h.get? b').map (if b = b' then f else id) := by
  rw [Heap.get?_modify]
  split
  · rfl
  · exact Option.map_id_apply.symm

/-- The start of a request changes no set in what it has to define, in what is known of it and in
what has come of it. -/
theorem Request.start_cells {q : Request} {c : Comp q.Answer} (hq : q.start s = .run c s') :
    ∃ f : Addr .builder → Builder → Builder,
      (∀ b, s'.builders.get? b = (s.builders.get? b).map (f b)) ∧
      ∀ b d, d.Keeps (f b d) ∧ ((f b d).set = d.set ∧ (f b d).err = d.err) ∧
        d.next ≤ (f b d).next := by
  have hsame : s'.builders = s.builders → ∃ f : Addr .builder → Builder → Builder,
      (∀ b, s'.builders.get? b = (s.builders.get? b).map (f b)) ∧
      ∀ b d, d.Keeps (f b d) ∧ ((f b d).set = d.set ∧ (f b d).err = d.err) ∧
        d.next ≤ (f b d).next := fun hs =>
    ⟨fun _ => id, fun b => by rw [hs, Option.map_id_apply],
      fun _ d => ⟨.refl d, ⟨rfl, rfl⟩, Nat.le_refl _⟩⟩
  have hmodify : ∀ {b : Addr .builder} {f : Builder → Builder},
      s'.builders = s.builders.modify b f →
      (∀ d, d.Keeps (f d) ∧ ((f d).set = d.set ∧ (f d).err = d.err) ∧ d.next ≤ (f d).next) →
      ∃ f : Addr .builder → Builder → Builder,
        (∀ b, s'.builders.get? b = (s.builders.get? b).map (f b)) ∧
        ∀ b d, d.Keeps (f b d) ∧ ((f b d).set = d.set ∧ (f b d).err = d.err) ∧
          d.next ≤ (f b d).next := by
    intro b f hs hf
    refine ⟨fun b' => if b = b' then f else id, fun b' => hs ▸ Heap.get?_modify_map b',
      fun b' d => ?_⟩
    dsimp only
    split
    · exact hf d
    · exact ⟨.refl d, ⟨rfl, rfl⟩, Nat.le_refl _⟩
  cases q with
  | force t =>
    obtain ⟨env, body, -, -, -, rfl⟩ := Store.startForce_run hq
    refine hsame ?_
    rw [Store.enter, Store.changeDepth_eq]
    rfl
  | entry b =>
    obtain ⟨d, e, -, -, -, rfl⟩ := Store.startEntry_run hq
    exact hmodify rfl fun _ => ⟨⟨rfl, rfl, rfl, rfl⟩, ⟨rfl, rfl⟩, Nat.le_succ _⟩
  | assemble b =>
    cases hq
    exact hmodify rfl fun _ => ⟨⟨rfl, rfl, rfl, rfl⟩, ⟨rfl, rfl⟩, Nat.le_refl _⟩
  | _ =>
    cases hq
    exact hsame rfl

/-- The end of a request changes no set in what it has to define and in what is known of it. -/
theorem Request.finish_cells (q : Request) (r : Except Error q.Answer) (s : Store) :
    ∃ f : Addr .builder → Builder → Builder,
      (∀ b, (q.finish r s).builders.get? b = (s.builders.get? b).map (f b)) ∧
      ∀ b d, d.Keeps (f b d) ∧ (f b d).next = d.next := by
  have hleave : ∀ b out, ∃ f : Addr .builder → Builder → Builder,
      (∀ b', (s.finishBuilder b out).builders.get? b' = (s.builders.get? b').map (f b')) ∧
      ∀ b d, d.Keeps (f b d) ∧ (f b d).next = d.next := by
    intro b out
    refine ⟨_, Heap.get?_modify_map, fun b' d => ?_⟩
    split
    · exact ⟨d.keeps_leave out, d.leave_next out⟩
    · exact ⟨.refl d, rfl⟩
  cases q with
  | force t =>
    refine ⟨fun _ => id, fun b => ?_, fun _ d => ⟨.refl d, rfl⟩⟩
    rw [Request.finish, s.builders_finishForce t r, Option.map_id_apply]
  | entry b => cases r <;> exact hleave b _
  | assemble b => exact hleave b _
  | _ => exact ⟨fun _ => id, fun b => Option.map_id_apply.symm, fun _ d => ⟨.refl d, rfl⟩⟩

namespace Store

theorem known_start {q : Request} {c : Comp q.Answer} (hq : q.start s = .run c s')
    (b : Addr .builder) (name : String) : s'.known b name = s.known b name := by
  obtain ⟨f, hf, hcell⟩ := Request.start_cells hq
  exact known_map hf (fun b d => (hcell b d).1) b name

theorem known_finish (q : Request) (r : Except Error q.Answer) (s : Store) (b : Addr .builder)
    (name : String) : (q.finish r s).known b name = s.known b name := by
  obtain ⟨f, hf, hcell⟩ := q.finish_cells r s
  exact known_map hf (fun b d => (hcell b d).1) b name

/-- Once something is known of an attribute, something is known of it for good. -/
theorem known_law (b : Addr .builder) (name : String) :
    RunLaw fun s s' => (s.known b name).isSome → (s'.known b name).isSome where
  refl _ h := h
  trans h h' hs := h' (h hs)
  act a s hs := by
    by_cases ha : ∃ x isNew, a = .setSlot b name x isNew
    · obtain ⟨x, isNew, rfl⟩ := ha
      obtain ⟨d, hb, -⟩ := Option.bind_eq_some_iff.mp (Option.eq_some_of_isSome hs)
      rw [Action.perform, known_setSlot_self hb]
      rfl
    · rwa [known_perform fun x isNew h => ha ⟨x, isNew, h⟩]
  run hq _ h hs := by
    rw [known_finish]
    exact h (by rwa [known_start hq])

/-! ### Names that go together with the slots -/

/-- A set under construction, if it is there, has its names in order. -/
def OrderedAt (s : Store) (b : Addr .builder) : Prop :=
  ∀ d, s.builders.get? b = some d → d.Ordered

theorem OrderedAt.perform (h : s.OrderedAt b) {a : Action}
    (ha : ∀ name x isNew, a = .setSlot b name x isNew → isNew = (s.known b name).isNone) :
    (a.perform s).2.OrderedAt b := by
  intro d hb
  cases a with
  | newBuilder env entries recursive =>
    simp only [Action.perform, newBuilder, Heap.get?_push] at hb
    split at hb
    · cases hb
      exact ⟨rfl, List.nodup_nil⟩
    · exact h d hb
  | setSlot b' name x isNew =>
    simp only [Action.perform, setSlot, Heap.get?_modify] at hb
    split at hb
    · subst b'
      obtain ⟨d₀, hb₀, rfl⟩ := Option.map_eq_some_iff.mp hb
      exact (h d₀ hb₀).put (known_eq hb₀ ▸ ha name x isNew rfl)
    · exact h d hb
  | _ => exact h d hb

theorem OrderedAt.start (h : s.OrderedAt b) {q : Request} {c : Comp q.Answer}
    (hq : q.start s = .run c s') : s'.OrderedAt b := by
  obtain ⟨f, hf, hcell⟩ := Request.start_cells hq
  intro d hb
  obtain ⟨d₀, hb₀, rfl⟩ := Option.map_eq_some_iff.mp ((hf b).symm.trans hb)
  exact (h d₀ hb₀).keeps (hcell b d₀).1

theorem OrderedAt.finish (h : s.OrderedAt b) (q : Request) (r : Except Error q.Answer) :
    (q.finish r s).OrderedAt b := by
  obtain ⟨f, hf, hcell⟩ := q.finish_cells r s
  intro d hb
  obtain ⟨d₀, hb₀, rfl⟩ := Option.map_eq_some_iff.mp ((hf b).symm.trans hb)
  exact (h d₀ hb₀).keeps (hcell b d₀).1

end Store

end NixKernel
