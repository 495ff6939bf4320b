import NixKernel.Proofs.Outcome

/-!
Stores that grow. A store extends another if every cell of the other is in it as it was; what is
known of an old value then stays known. The journal may have grown by anything.
-/

namespace NixKernel

/-! ### Old and new cells -/

namespace Heap

variable {σ : CellSort} {α : Type}

theorem lt_of_get? {h : Heap σ α} {a : Addr σ} {x : α} (ha : h.get? a = some x) :
    a.index < h.next.index := (h.get?_isSome a).mp (by rw [ha]; rfl)

theorem exists_of_lt {h : Heap σ α} {a : Addr σ} (ha : a.index < h.next.index) :
    ∃ x, h.get? a = some x := Option.isSome_iff_exists.mp ((h.get?_isSome a).mpr ha)

theorem get?_of_le {h : Heap σ α} {a : Addr σ} (ha : h.next.index ≤ a.index) :
    h.get? a = none := by
  cases hx : h.get? a with
  | none => rfl
  | some x => exact absurd (lt_of_get? hx) (Nat.not_lt.mpr ha)

theorem get?_ne_next {h : Heap σ α} {a : Addr σ} {x : α}
    (ha : h.get? a = some x) : a ≠ h.next := by
  rintro rfl
  exact Nat.lt_irrefl _ (lt_of_get? ha)

theorem get?_next (h : Heap σ α) : h.get? h.next = none := get?_of_le (Nat.le_refl _)

theorem get?_push_of_some {h : Heap σ α} {a : Addr σ} {x y : α}
    (ha : h.get? a = some x) : (h.push y).get? a = some x := by
  rw [Heap.get?_push, if_neg (get?_ne_next ha), ha]

theorem get?_modify_self {h : Heap σ α} {a : Addr σ} {x : α} (ha : h.get? a = some x)
    (f : α → α) : (h.modify a f).get? a = some (f x) := by
  rw [Heap.get?_modify, if_pos rfl, ha]
  rfl

theorem ext_get? {h h' : Heap σ α} (H : ∀ a, h.get? a = h'.get? a) : h = h' := by
  obtain ⟨c⟩ := h
  obtain ⟨c'⟩ := h'
  exact congrArg Heap.mk (Array.ext_getElem? fun i => H ⟨i⟩)

theorem modify_modify (h : Heap σ α) (a : Addr σ) (f g : α → α) :
    (h.modify a f).modify a g = h.modify a (g ∘ f) := by
  refine ext_get? fun b => ?_
  simp only [get?_modify]
  split <;> simp

theorem modify_id (h : Heap σ α) (a : Addr σ) : h.modify a id = h := by
  refine ext_get? fun b => ?_
  rw [get?_modify]
  split <;> simp

end Heap

/-! ### Lists by key -/

theorem lookup_setKey {α : Type} (key k : String) (a : α) (l : List (String × α)) :
    (setKey key a l).lookup k = if k = key then some a else l.lookup k := by
  induction l with
  | nil => rw [setKey, Attrs.lookup_cons_ite, List.lookup_nil]
  | cons p l ih =>
    obtain ⟨j, b⟩ := p
    unfold setKey
    split
    · rename_i hj
      subst hj
      simp only [Attrs.lookup_cons_ite]
      split <;> rfl
    · rename_i hj
      simp only [Attrs.lookup_cons_ite, ih]
      by_cases h : k = j
      · subst h
        simp [hj]
      · simp [h]

theorem mem_keys_setKey {α : Type} {key k : String} {a : α} {l : List (String × α)}
    (h : k ∈ (setKey key a l).map Prod.fst) : k = key ∨ k ∈ l.map Prod.fst := by
  induction l with
  | nil => exact Or.inl (by simpa [setKey] using h)
  | cons p l ih =>
    obtain ⟨j, b⟩ := p
    unfold setKey at h
    split at h
    · rcases List.mem_cons.mp h with h | h
      · exact Or.inl h
      · exact Or.inr (List.mem_cons_of_mem _ h)
    · rcases List.mem_cons.mp h with h | h
      · exact Or.inr (h ▸ List.mem_cons_self)
      · rcases ih h with h | h
        · exact Or.inl h
        · exact Or.inr (List.mem_cons_of_mem _ h)

theorem nodup_setKey {α : Type} {key : String} {a : α} {l : List (String × α)}
    (h : (l.map Prod.fst).Nodup) : ((setKey key a l).map Prod.fst).Nodup := by
  induction l with
  | nil => simp [setKey]
  | cons p l ih =>
    obtain ⟨j, b⟩ := p
    obtain ⟨hj, hl⟩ := List.nodup_cons.mp h
    unfold setKey
    split
    · rename_i hk
      exact List.nodup_cons.mpr ⟨hk ▸ hj, hl⟩
    · rename_i hk
      refine List.nodup_cons.mpr ⟨fun hm => ?_, ih hl⟩
      exact (mem_keys_setKey hm).elim hk hj

/-- A name that is new goes to the end. -/
theorem names_setKey {α : Type} (key : String) (a : α) (l : List (String × α)) :
    (setKey key a l).map Prod.fst =
      if (l.lookup key).isNone then l.map Prod.fst ++ [key] else l.map Prod.fst := by
  induction l with
  | nil => rfl
  | cons p l ih =>
    obtain ⟨j, b⟩ := p
    rw [setKey, Attrs.lookup_cons_ite]
    by_cases hj : j = key
    · subst hj
      simp
    · rw [if_neg hj, if_neg (Ne.symm hj), List.map_cons, ih]
      split <;> rfl

namespace Store

/-- Only the threads know their depth. -/
theorem changeDepth_eq (s : Store) (env : Env) (f : Nat → Nat) :
    s.changeDepth env f = { s with threads := (s.changeDepth env f).threads } := by
  unfold changeDepth
  cases env.thread <;> rfl

/-- Entering a thread and leaving it changes nothing. -/
theorem threads_leave {s : Store} (s' : Store) (env : Env)
    (h : s'.threads = (s.enter env).threads) : (s'.leave env).threads = s.threads := by
  unfold leave
  unfold enter at h
  revert h
  unfold changeDepth
  cases env.thread with
  | none => exact id
  | some a =>
    intro h
    dsimp only at h ⊢
    rw [h, Heap.modify_modify]
    exact Heap.modify_id s.threads a

theorem get?_setSlot {s : Store} {b : Addr .builder} {c : Builder}
    (hb : s.builders.get? b = some c) (k : String) (x : Slot) (isNew : Bool) :
    (s.setSlot b k x isNew).builders.get? b = some (c.put k x isNew) := by
  rw [setSlot, Heap.get?_modify_self hb]

/-! ### Growth -/

/-- The cells of a store are in another one as they were, and nothing else of it has changed but
the journal. -/
structure Extends (s s' : Store) : Prop where
  thunk : ∀ {t c}, s.thunks.get? t = some c → s'.thunks.get? t = some c
  set : ∀ {a m}, s.sets.get? a = some m → s'.sets.get? a = some m
  builder : ∀ {b c}, s.builders.get? b = some c → s'.builders.get? b = some c
  lists : s'.lists = s.lists
  lambdas : s'.lambdas = s.lambdas
  threads : s'.threads = s.threads
  counters : s'.counters = s.counters
  registers : s'.registers = s.registers

/-- The thunks whose bodies have been started, the latest first. -/
def started (s : Store) : List (Addr .thunk) :=
  s.journal.filterMap fun | .force t => some t | _ => none

section Extends

variable {s s' s'' : Store}

theorem Extends.refl (s : Store) : s.Extends s :=
  ⟨id, id, id, rfl, rfl, rfl, rfl, rfl⟩

theorem Extends.trans (h : s.Extends s') (h' : s'.Extends s'') : s.Extends s'' where
  thunk ht := h'.thunk (h.thunk ht)
  set ha := h'.set (h.set ha)
  builder hb := h'.builder (h.builder hb)
  lists := h'.lists.trans h.lists
  lambdas := h'.lambdas.trans h.lambdas
  threads := h'.threads.trans h.threads
  counters := h'.counters.trans h.counters
  registers := h'.registers.trans h.registers

/-! ### What stays known -/

theorem resolve_thunk (s : Store) (t : Addr .thunk) :
    s.resolve (.thunk t) = (s.forced? t).getD (.thunk t) := rfl

theorem forced?_eq_some {t : Addr .thunk} {v : Value} :
    s.forced? t = some v ↔ s.thunks.get? t = some (.forced v) := by
  unfold Store.forced?
  split
  · rename_i w hw
    simp [hw]
  · rename_i h
    exact ⟨fun hv => (nomatch hv), fun hv => absurd hv (h v)⟩

theorem Extends.forced? (h : s.Extends s') {t : Addr .thunk} {v : Value}
    (ht : s.forced? t = some v) : s'.forced? t = some v :=
  forced?_eq_some.mpr (h.thunk (forced?_eq_some.mp ht))

/-- A value that is known to be no thunk, or a forced one, stays what it is. -/
theorem Extends.resolve (h : s.Extends s') {v : Value} (hv : (s.resolve v).isWhnf) :
    s'.resolve v = s.resolve v := by
  cases v with
  | thunk t =>
    rw [resolve_thunk] at hv ⊢
    rw [resolve_thunk]
    cases ht : s.forced? t with
    | none => rw [ht] at hv; cases hv
    | some w => rw [h.forced? ht]
  | _ => rfl

theorem Extends.atLimit (h : s.Extends s') (env : Env) : s'.atLimit env = s.atLimit env := by
  rw [Store.atLimit, Store.atLimit, thread?, thread?, h.threads]

/-! ### Changes that only add -/

theorem Extends.newThunk (h : s.Extends s') (env : Env) (e : Expr) :
    s.Extends (s'.newThunk env e).2 :=
  { h with thunk := fun ht => Heap.get?_push_of_some (h.thunk ht) }

theorem Extends.newSet (h : s.Extends s') (m : Attrs Value) : s.Extends (s'.newSet m).2 :=
  { h with set := fun ha => Heap.get?_push_of_some (h.set ha) }

theorem Extends.newBuilder (h : s.Extends s') (env : Env) (entries : List Entry)
    (recursive : Bool) : s.Extends (s'.newBuilder env entries recursive).2 :=
  { h with builder := fun hb => Heap.get?_push_of_some (h.builder hb) }

theorem Extends.record (h : s.Extends s') (e : Event) : s.Extends (s'.record e) := { h with }

/-- A new thunk may change. -/
theorem Extends.modifyThunk (h : s.Extends s') {t : Addr .thunk} (ht : s.thunks.get? t = none)
    (f : Thunk → Thunk) : s.Extends { s' with thunks := s'.thunks.modify t f } := by
  refine { h with thunk := fun {t' c} hc => ?_ }
  have hne : t ≠ t' := by rintro rfl; rw [ht] at hc; cases hc
  rw [Heap.get?_modify, if_neg hne, h.thunk hc]

/-- A new set under construction may change. -/
theorem Extends.modifyBuilder (h : s.Extends s') {b : Addr .builder}
    (hb : s.builders.get? b = none) (f : Builder → Builder) :
    s.Extends { s' with builders := s'.builders.modify b f } := by
  refine { h with builder := fun {b' c} hc => ?_ }
  have hne : b ≠ b' := by rintro rfl; rw [hb] at hc; cases hc
  rw [Heap.get?_modify, if_neg hne, h.builder hc]

end Extends

end Store

end NixKernel
