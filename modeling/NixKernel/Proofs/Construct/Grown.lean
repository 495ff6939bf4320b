import NixKernel.Proofs.Alike.Over
import NixKernel.Proofs.Construct.Compatible

/-!
Two stores that grew out of one. The cells that were there before stand for themselves, new cells
may be paired with each other, and what is made from now on is linked in the order in which it is
made.
-/

namespace NixKernel

/-! ### Cells that were there before -/

theorem Store.Extends.size_le {s s' : Store} (h : s.Extends s') (σ : CellSort) :
    s.size σ ≤ s'.size σ := by
  -- else the old store has a cell at the next address of the new one
  have hle : ∀ {σ : CellSort} {α : Type} {h h' : Heap σ α},
      (∀ {a x}, h.get? a = some x → h'.get? a = some x) → h.next.index ≤ h'.next.index := by
    intro σ α h h' hh
    refine Nat.not_lt.mp fun hlt => ?_
    obtain ⟨x, hx⟩ := Heap.exists_of_lt hlt
    exact Nat.lt_irrefl _ (Heap.lt_of_get? (hh hx))
  cases σ with
  | thread => exact Nat.le_of_eq (congrArg (·.next.index) h.threads.symm)
  | thunk => exact hle h.thunk
  | list => exact Nat.le_of_eq (congrArg (·.next.index) h.lists.symm)
  | set => exact hle h.set
  | lambda => exact Nat.le_of_eq (congrArg (·.next.index) h.lambdas.symm)
  | builder => exact hle h.builder

/-! ### Pairs of new cells -/

/-- A pairing of thunks and sets as one of their addresses. -/
def Cells (P : Value → Value → Prop) : CellSort → Nat → Nat → Prop
  | .thunk, i, j => P (.thunk ⟨i⟩) (.thunk ⟨j⟩)
  | .set, i, j => P (.set ⟨i⟩) (.set ⟨j⟩)
  | _, _, _ => False

/-- New thunks and sets of two stores that grew out of `s` are paired, each with one only. -/
structure Pairing (s s₁ s₂ : Store) (P : Value → Value → Prop) : Prop where
  left : s.Extends s₁
  right : s.Extends s₂
  new : ∀ {v w}, P v w → ¬ s.Has v ∧ ¬ s.Has w
  has : ∀ {v w}, P v w → s₁.Has v ∧ s₂.Has w
  unique : ∀ {v w v' w'}, P v w → P v' w' → (v = v' ↔ w = w')

/-- How the cells of two stores that grew out of `s` stand for each other. -/
inductive Joined (s s₁ s₂ : Store) (P : Value → Value → Prop) (σ : CellSort) : Nat → Nat → Prop
  | old {i : Nat} (h : i < s.size σ) : Joined s s₁ s₂ P σ i i
  | new {i j : Nat} (h : Cells P σ i j) : Joined s s₁ s₂ P σ i j
  | ahead (d : Nat) : Joined s s₁ s₂ P σ (s₁.size σ + d) (s₂.size σ + d)

namespace Pairing

variable {s s₁ s₂ : Store} {P : Value → Value → Prop} {σ : CellSort} {i i' j j' : Nat}

theorem bounds (h : Pairing s s₁ s₂ P) (hij : Cells P σ i j) :
    (s.size σ ≤ i ∧ i < s₁.size σ) ∧ s.size σ ≤ j ∧ j < s₂.size σ := by
  cases σ with
  | thunk =>
    obtain ⟨hv, hw⟩ := h.new hij
    obtain ⟨⟨c, hc⟩, ⟨c', hc'⟩⟩ := h.has hij
    refine ⟨⟨Nat.not_lt.mp fun hi => hv ?_, Heap.lt_of_get? hc⟩,
      Nat.not_lt.mp fun hj => hw ?_, Heap.lt_of_get? hc'⟩
    · exact Heap.exists_of_lt (h := s.thunks) hi
    · exact Heap.exists_of_lt (h := s.thunks) hj
  | set =>
    obtain ⟨hv, hw⟩ := h.new hij
    obtain ⟨⟨m, hm⟩, ⟨m', hm'⟩⟩ := h.has hij
    refine ⟨⟨Nat.not_lt.mp fun hi => hv ?_, Heap.lt_of_get? hm⟩,
      Nat.not_lt.mp fun hj => hw ?_, Heap.lt_of_get? hm'⟩
    · exact Heap.exists_of_lt (h := s.sets) hi
    · exact Heap.exists_of_lt (h := s.sets) hj
  | _ => exact hij.elim

theorem cells_unique (h : Pairing s s₁ s₂ P) (hij : Cells P σ i j) (hij' : Cells P σ i' j') :
    i = i' ↔ j = j' := by
  cases σ with
  | thunk => simpa using h.unique hij hij'
  | set => simpa using h.unique hij hij'
  | _ => exact hij.elim

theorem joined_unique (h : Pairing s s₁ s₂ P) (hij : Joined s s₁ s₂ P σ i j)
    (hij' : Joined s s₁ s₂ P σ i' j') : i = i' ↔ j = j' := by
  have hl := h.left.size_le σ
  have hr := h.right.size_le σ
  -- old cells lie below the new ones and those ahead above them, in both stores
  cases hij with
  | old hi =>
    cases hij' with
    | old hi' => rfl
    | new hc' =>
      have := h.bounds hc'
      omega
    | ahead d => omega
  | new hc =>
    have := h.bounds hc
    cases hij' with
    | old hi' => omega
    | new hc' => exact h.cells_unique hc hc'
    | ahead d => omega
  | ahead d =>
    cases hij' with
    | old hi' => omega
    | new hc' =>
      have := h.bounds hc'
      omega
    | ahead d' => omega

end Pairing

/-! ### The link -/

/-- Two stores grew out of `s` by paired cells, and in both of them the set that was under
construction next is finished. -/
structure Grown (s s₁ s₂ : Store) (P : Value → Value → Prop) (a₁ a₂ : Addr .set) : Prop where
  pairing : Pairing s s₁ s₂ P
  sound : s.Sound
  left : s.BuiltNext s₁ a₁
  right : s.BuiltNext s₂ a₂

section Join

variable {s s₁ s₂ : Store} {P : Value → Value → Prop} {a₁ a₂ : Addr .set}

theorem Store.BuiltNext.lt (h : s.BuiltNext s₁ a₁) : s.size .builder < s₁.size .builder := by
  obtain ⟨c, hc, -⟩ := h
  exact Heap.lt_of_get? hc

/-- The link of two stores that grew out of `s`. -/
def Grown.link (h : Grown s s₁ s₂ P a₁ a₂) : Link where
  rel := Joined s s₁ s₂ P
  left := s₁.size
  right := s₂.size
  leftJournal := s₁.journal
  rightJournal := s₂.journal
  settled f f' := f = .builder s.builders.next ∧ f' = .builder s.builders.next
  empty := .old h.sound.empty
  ahead _ d := .ahead d
  unique hij hij' := h.pairing.joined_unique hij hij'
  apart := by
    intro b b' hb
    -- the set that was under construction next is neither an old one nor one that is still to come
    have hne : b.index ≠ s.size .builder ∧ b'.index ≠ s.size .builder := by
      generalize b.index = i, b'.index = j at hb
      have hl := h.left.lt
      have hr := h.right.lt
      cases hb with
      | old hi => exact ⟨Nat.ne_of_lt hi, Nat.ne_of_lt hi⟩
      | new hc => exact hc.elim
      | ahead d => exact ⟨by omega, by omega⟩
    refine ⟨fun f hf => hne.1 ?_, fun f hf => hne.2 ?_⟩
    · exact congrArg Addr.index (Frame.builder.inj hf.1)
    · exact congrArg Addr.index (Frame.builder.inj hf.2)

theorem Grown.keeps (h : Grown s s₁ s₂ P a₁ a₂) : h.link.Keeps s := fun _ _ hi => .old hi

/-- Cells are alike if the old ones are alike themselves and the paired ones are alike. -/
theorem Grown.cells (h : Grown s s₁ s₂ P a₁ a₂) {σ : CellSort} {α : Type} {R : α → α → Prop}
    (hp : Heap σ α) {hp₁ hp₂ : Heap σ α} (hs : hp.next.index = s.size σ)
    (hs₁ : hp₁.next.index = s₁.size σ) (hs₂ : hp₂.next.index = s₂.size σ)
    (old : ∀ {a x}, hp.get? a = some x →
      hp₁.get? a = some x ∧ hp₂.get? a = some x ∧ R x x)
    (new : ∀ {a a' : Addr σ}, Cells P σ a.index a'.index →
      Option.Rel R (hp₁.get? a) (hp₂.get? a')) : hp₁.Alike h.link R hp₂ := by
  refine ⟨⟨0, hs₁, hs₂⟩, fun {a a'} ha => ?_⟩
  obtain ⟨i⟩ := a
  obtain ⟨j⟩ := a'
  cases ha with
  | old hi =>
    obtain ⟨x, hx⟩ := Heap.exists_of_lt (h := hp) (a := ⟨i⟩) (hs ▸ hi)
    obtain ⟨h₁, h₂, hR⟩ := old hx
    rw [h₁, h₂]
    exact .some hR
  | new hc => exact new hc
  | ahead d =>
    rw [Heap.get?_of_le (hs₁ ▸ Nat.le_add_right _ d), Heap.get?_of_le (hs₂ ▸ Nat.le_add_right _ d)]
    exact .none

/-- Two stores that grew out of `s` are alike if their paired cells are, and the finished sets are
among these. -/
theorem Grown.alike (h : Grown s s₁ s₂ P a₁ a₂)
    (thunks : ∀ {t t'}, P (.thunk t) (.thunk t') →
      Option.Rel (Thunk.Alike h.link) (s₁.thunks.get? t) (s₂.thunks.get? t'))
    (sets : ∀ {a a'}, P (.set a) (.set a') →
      ∃ m m', s₁.sets.get? a = some m ∧ s₂.sets.get? a' = some m' ∧ m.Alike h.link m')
    (built : P (.set a₁) (.set a₂)) : s₁.Alike h.link s₂ := by
  have hl := h.pairing.left
  have hr := h.pairing.right
  have hk := h.keeps
  -- heap by heap: only thunks and sets are paired, the rest is as it was
  refine ⟨?_, ?_, ?_, ?_, ?_, ?_, ?_, ?_, ?_, fun hf => ?_⟩
  · exact h.cells s.thunks rfl rfl rfl
      (fun hx => ⟨hl.thunk hx, hr.thunk hx, (h.sound.thunk hx).alike hk⟩) thunks
  · refine h.cells s.lists rfl rfl rfl (fun hx => ?_) fun hc => hc.elim
    rw [hl.lists, hr.lists]
    exact ⟨hx, hx, List.forall₂_same.mpr fun x hx' => (h.sound.list hx x hx').alike hk⟩
  · refine h.cells s.sets rfl rfl rfl
      (fun hx => ⟨hl.set hx, hr.set hx, Binding.refl fun p hp => (h.sound.set hx p hp).alike hk⟩)
      fun hc => ?_
    obtain ⟨m, m', hm, hm', hmm⟩ := sets hc
    rw [hm, hm']
    exact .some hmm
  · refine h.cells s.lambdas rfl rfl rfl (fun hx => ?_) fun hc => hc.elim
    rw [hl.lambdas, hr.lambdas]
    exact ⟨hx, hx, (h.sound.lambda hx).alike hk⟩
  · exact h.cells s.builders rfl rfl rfl
      (fun hx => ⟨hl.builder hx, hr.builder hx, (h.sound.builder hx).alike hk⟩) fun hc => hc.elim
  · rw [hl.threads, hr.threads]
  · rw [hl.counters, hr.counters]
  · rw [hl.registers, hr.registers]
    exact Binding.refl fun p hp => (h.sound.registers p hp).alike hk
  · exact ⟨[], [], rfl, rfl, .nil⟩
  · obtain ⟨rfl, rfl⟩ := hf
    obtain ⟨m, m', hm, hm', hmm⟩ := sets built
    obtain ⟨c, hc, ho⟩ := h.left
    obtain ⟨c', hc', ho'⟩ := h.right
    exact ⟨m, m', ⟨c, a₁, hc, ho, hm⟩, ⟨c', a₂, hc', ho', hm'⟩, hmm⟩

end Join

end NixKernel
