import Mathlib
import NixKernel.Proofs.Builder.Calls
import NixKernel.Proofs.Forcing

/-!
How often a name of an entry is evaluated. A component of a path is marked with a tag that occurs
nowhere else. The mark is handed on, from the entry to what is known of its attribute and from there
to the entries of a set inside, and whoever hands it on does not use it again; so the tag is written
at most once, however deep the calls are nested.
-/

namespace NixKernel

variable {α β : Type} {s s' s₀ : Store} {b : Addr .builder} {τ : String}

/-! ### Marks -/

/-- The tag does not occur in an expression. -/
def Expr.Free (τ : String) : Expr → Prop := Expr.Everywhere fun e => ∀ x, e ≠ .trace τ x

theorem Expr.Free.tag {x : Expr} (h : (Expr.trace τ x).Free τ) : False := h.here x rfl

theorem Expr.free_hereditary (τ : String) : Expr.Hereditary (Expr.Free τ) :=
  Expr.everywhere_hereditary (fun _ _ h => by cases h) fun _ _ _ h => by cases h

/-- The tag does not occur in an expression, unless the whole is marked with it. -/
def Expr.Fits (τ : String) (e : Expr) : Prop := e.Free τ ∨ ∃ x, e = .trace τ x ∧ x.Free τ

/-- The expression is marked. -/
def Expr.isMarked (τ : String) : Expr → Bool
  | .trace t _ => t = τ
  | _ => false

theorem Expr.Free.not_marked {e : Expr} (h : e.Free τ) : e.isMarked τ = false := by
  cases e with
  | trace t x =>
    refine decide_eq_false ?_
    rintro rfl
    exact h.tag
  | _ => rfl

theorem Expr.isMarked_trace (τ : String) (x : Expr) : (Expr.trace τ x).isMarked τ = true :=
  decide_eq_true rfl

/-- Only components of the path of an entry are marked. -/
def EntryOf.Fits (τ : String) (e : Entry) : Prop := e.value.Free τ ∧ ∀ x ∈ e.path, x.Fits τ

/-- The number of marks in an entry. -/
def EntryOf.marks (τ : String) (e : Entry) : Nat := (e.path.map fun x => (x.isMarked τ).toNat).sum

/-- The number of marks in some entries. -/
def marksOf (τ : String) (es : List Entry) : Nat := (es.map (EntryOf.marks τ)).sum

def Slot.Fits (τ : String) : Slot → Prop
  | .leaf _ => True
  | .tree es => ∀ e ∈ es, e.Fits τ

/-- The number of marks in what is known of an attribute. -/
def Slot.marks (τ : String) : Slot → Nat
  | .leaf _ => 0
  | .tree es => marksOf τ es

section Marks

variable {e : Entry} {es es' : List Entry}

theorem marksOf_append : marksOf τ (es ++ es') = marksOf τ es + marksOf τ es' := by
  simp [marksOf]

theorem marksOf_singleton : marksOf τ [e] = e.marks τ := by simp [marksOf]

theorem EntryOf.All.fits (h : e.All (Expr.Free τ)) : e.Fits τ :=
  ⟨h _ List.mem_cons_self, fun x hx => .inl (h x (List.mem_cons_of_mem _ hx))⟩

theorem EntryOf.All.marks (h : e.All (Expr.Free τ)) : e.marks τ = 0 := by
  refine List.sum_eq_zero fun n hn => ?_
  obtain ⟨x, hx, rfl⟩ := List.mem_map.mp hn
  rw [(h x (List.mem_cons_of_mem _ hx)).not_marked]
  rfl

theorem marksOf_free (h : ∀ e ∈ es, e.All (Expr.Free τ)) : marksOf τ es = 0 := by
  refine List.sum_eq_zero fun n hn => ?_
  obtain ⟨e, he, rfl⟩ := List.mem_map.mp hn
  exact (h e he).marks

theorem entriesOf_free (m : Attrs Value) : ∀ e ∈ Comp.entriesOf m, e.All (Expr.Free τ) := by
  intro e he
  obtain ⟨p, -, rfl⟩ := List.mem_map.mp he
  intro x hx
  have hfree := (Expr.free_hereditary τ).lit
  rcases List.mem_cons.mp hx with rfl | hx
  · exact hfree p.2
  · cases List.mem_singleton.mp hx
    exact hfree (.str p.1)

end Marks

/-! ### The marks in a store -/

/-- The marks in a store are all at components of the paths of entries. -/
structure Store.Fits (τ : String) (s : Store) : Prop extends s.Bodies (Expr.Free τ) where
  entries : ∀ {b d}, s.builders.get? b = some d → ∀ e ∈ d.entries.toList, e.Fits τ
  slots : ∀ {b d}, s.builders.get? b = some d → ∀ p ∈ d.slots, p.2.Fits τ

/-- The marks in the entries of a set that have not been taken up. -/
def Builder.waiting (τ : String) (d : Builder) : Nat := marksOf τ (d.entries.toList.drop d.next)

/-- The marks in what is known of the attributes of a set. -/
def Builder.gathered (τ : String) (d : Builder) : Nat := (d.slots.map fun p => p.2.marks τ).sum

/-- The marks of a set that can still be used. Those gathered in it are used up by its assembly. -/
def Store.live (τ : String) (s₀ s : Store) (b : Addr .builder) : Nat :=
  match s.builders.get? b with
  | none => 0
  | some d => d.waiting τ + if s.assemblies b = s₀.assemblies b then d.gathered τ else 0

/-- The marks that have been used, and those that can still be. -/
def Store.marked (τ : String) (s₀ s : Store) : Nat :=
  s.journal.count (.tag τ) + ∑ i ∈ Finset.range s.builders.next.index, s₀.live τ s ⟨i⟩

/-- One summand changes, and the others do not grow. -/
theorem sum_range_le {f g : Nat → Nat} {m n i k k' : Nat} (hmn : m ≤ n) (hi : i < n)
    (hf : ∀ j, m ≤ j → f j = 0) (hne : ∀ j, j ≠ i → g j ≤ f j) (hgf : g i + k ≤ f i + k') :
    ∑ j ∈ Finset.range n, g j + k ≤ ∑ j ∈ Finset.range m, f j + k' := by
  have hext : ∑ j ∈ Finset.range m, f j = ∑ j ∈ Finset.range n, f j := by
    refine Finset.sum_subset (Finset.range_subset_range.mpr hmn) fun j _ hj => hf j ?_
    simpa using hj
  have hrest : ∑ j ∈ (Finset.range n).erase i, g j ≤ ∑ j ∈ (Finset.range n).erase i, f j :=
    Finset.sum_le_sum fun j hj => hne j (Finset.ne_of_mem_erase hj)
  rw [hext, ← Finset.add_sum_erase _ _ (Finset.mem_range.mpr hi),
    ← Finset.add_sum_erase _ f (Finset.mem_range.mpr hi)]
  omega

namespace Store

theorem live_eq {d : Builder} (hb : s.builders.get? b = some d) :
    s₀.live τ s b = d.waiting τ + if s.assemblies b = s₀.assemblies b then d.gathered τ else 0 := by
  rw [live, hb]

theorem live_of_none (hb : s.builders.get? b = none) : s₀.live τ s b = 0 := by
  rw [live, hb]

/-- What happens to one set, and what is noted. -/
theorem marked_le {k k' : Nat} (hnext : s.builders.next.index ≤ s'.builders.next.index)
    (hb : b.index < s'.builders.next.index)
    (hne : ∀ b', b' ≠ b → s₀.live τ s' b' ≤ s₀.live τ s b')
    (hk : s'.journal.count (.tag τ) + s₀.live τ s' b + k ≤
      s.journal.count (.tag τ) + s₀.live τ s b + k') :
    s₀.marked τ s' + k ≤ s₀.marked τ s + k' := by
  obtain ⟨i⟩ := b
  have hsum := sum_range_le (f := fun i => s₀.live τ s ⟨i⟩) (g := fun i => s₀.live τ s' ⟨i⟩)
    (k := s'.journal.count (.tag τ) + k) hnext hb (fun j hj => live_of_none (Heap.get?_of_le hj))
    (fun j hj => hne ⟨j⟩ fun h => hj (by injection h))
    (show s₀.live τ s' ⟨i⟩ + (s'.journal.count (.tag τ) + k) ≤
      s₀.live τ s ⟨i⟩ + (s.journal.count (.tag τ) + k') by omega)
  rw [marked, marked]
  omega

/-- What changes no set in what it has to define, in what is known of it and in its assembly. -/
theorem marked_of_same {k : Nat} (hnext : s'.builders.next = s.builders.next)
    (hb : ∀ {b d'}, s'.builders.get? b = some d' → ∃ d, s.builders.get? b = some d ∧
      d'.entries = d.entries ∧ d'.next = d.next ∧ d'.slots = d.slots)
    (ha : ∀ b, s'.assemblies b = s.assemblies b)
    (hj : s'.journal.count (.tag τ) ≤ s.journal.count (.tag τ) + k) :
    s₀.marked τ s' ≤ s₀.marked τ s + k := by
  have hlive : ∀ b, s₀.live τ s' b ≤ s₀.live τ s b := fun b => by
    cases hb' : s'.builders.get? b with
    | none => rw [live_of_none hb']; exact Nat.zero_le _
    | some d' =>
      obtain ⟨d, hd, h₁, h₂, h₃⟩ := hb hb'
      rw [live_eq hb', live_eq hd, ha, Builder.waiting, Builder.gathered, h₁, h₂, h₃]
      exact Nat.le_refl _
  have hsum : ∑ i ∈ Finset.range s.builders.next.index, s₀.live τ s' ⟨i⟩ ≤
      ∑ i ∈ Finset.range s.builders.next.index, s₀.live τ s ⟨i⟩ :=
    Finset.sum_le_sum fun i _ => hlive ⟨i⟩
  rw [marked, marked, hnext]
  omega

/-- What leaves all sets alone, and notes neither the tag nor an assembly. -/
theorem marked_of_quiet (hs : s'.builders = s.builders)
    (hj : s'.journal = s.journal ∨ ∃ x, s'.journal = x :: s.journal ∧
      x ≠ .tag τ ∧ ∀ b, x ≠ .assemble b) : s₀.marked τ s' ≤ s₀.marked τ s := by
  refine marked_of_same (k := 0) (by rw [hs]) (fun hb => ⟨_, hs ▸ hb, rfl, rfl, rfl⟩)
    (fun b => ?_) (Nat.le_of_eq ?_)
  · rcases hj with hj | ⟨x, hj, -, hx⟩
    · rw [assemblies, hj, assemblies]
    · exact assemblies_cons hj (hx b)
  · rcases hj with hj | ⟨x, hj, hx, -⟩
    · rw [hj, Nat.add_zero]
    · rw [hj, List.count_cons_of_ne hx, Nat.add_zero]

end Store

/-! ### Actions -/

/-- What is known of an attribute is replaced. -/
theorem sum_setKey {γ : Type} (f : γ → Nat) (key : String) (x : γ) (l : List (String × γ)) :
    ((setKey key x l).map fun p => f p.2).sum + ((l.lookup key).map f).getD 0 =
      (l.map fun p => f p.2).sum + f x := by
  induction l with
  | nil => simp [setKey]
  | cons p l ih =>
    obtain ⟨k, y⟩ := p
    by_cases hk : k = key
    · subst k
      simp [setKey]
      omega
    · have hne : (key == k) = false := beq_false_of_ne fun h => hk h.symm
      simp only [setKey, if_neg hk, List.map_cons, List.sum_cons, List.lookup_cons, hne]
      omega

namespace Store

/-- A new set under construction brings its marks. -/
theorem Fits.newBuilder (h : s.Fits τ) (s₀ : Store) (env : Env) {entries : List Entry}
    (recursive : Bool) (he : ∀ e ∈ entries, e.Fits τ) :
    (s.newBuilder env entries recursive).2.Fits τ ∧
      s₀.marked τ (s.newBuilder env entries recursive).2 ≤ s₀.marked τ s + marksOf τ entries := by
  refine ⟨⟨⟨h.thunk, h.lambda⟩, fun {b d} hb => ?_, fun {b d} hb => ?_⟩, ?_⟩
  · simp only [Store.newBuilder, Heap.get?_push] at hb
    split at hb
    · cases hb
      simpa using he
    · exact h.entries hb
  · simp only [Store.newBuilder, Heap.get?_push] at hb
    split at hb
    · cases hb
      exact fun p hp => (by cases hp)
    · exact h.slots hb
  · refine marked_le (b := s.builders.next) (k := 0) ?_ ?_ (fun b' hne => ?_) ?_
    · simp only [Store.newBuilder, Heap.next_push]
      omega
    · simp only [Store.newBuilder, Heap.next_push]
      omega
    · rw [live, live]
      simp only [Store.newBuilder, Heap.get?_push, if_neg hne]
      exact Nat.le_refl _
    · rw [live_of_none (Heap.get?_next _), live_eq (Heap.get?_push_next _ _)]
      simp [Builder.waiting, Builder.gathered, Store.newBuilder]

section SetSlot

variable {name : String} {x : Slot} (isNew : Bool)

theorem setSlot_of_none (hb : s.builders.get? b = none) : s.setSlot b name x isNew = s := by
  rw [setSlot]
  congr 1
  refine Heap.ext_get? fun b' => ?_
  rw [Heap.get?_modify]
  split
  · subst b'
    rw [hb]
    rfl
  · rfl

theorem marked_setSlot (s₀ : Store) {k : Nat}
    (hk : x.marks τ ≤ k + ((s.known b name).map (Slot.marks τ)).getD 0) :
    s₀.marked τ (s.setSlot b name x isNew) ≤ s₀.marked τ s + k := by
  cases hb : s.builders.get? b with
  | none =>
    rw [setSlot_of_none isNew hb]
    exact Nat.le_add_right _ _
  | some d =>
    have hb' := Store.get?_setSlot hb name x isNew
    refine marked_le (b := b) (k := 0) (Nat.le_of_eq ?_) ?_ (fun b' hne => Nat.le_of_eq ?_) ?_
    · rw [setSlot, Heap.next_modify]
    · rw [setSlot, Heap.next_modify]
      exact Heap.lt_of_get? hb
    · rw [live, live, setSlot, Heap.get?_modify, if_neg (Ne.symm hne)]
      rfl
    · rw [live_eq hb', live_eq hb]
      rw [known_eq hb] at hk
      have hsum := sum_setKey (Slot.marks τ) name x d.slots
      show s.journal.count _ + (d.waiting τ + if s.assemblies b = s₀.assemblies b then _ else 0) +
        0 ≤ _
      simp only [Builder.gathered, Builder.put]
      split <;> omega

/-- What is set known of an attribute brings its marks. -/
theorem Fits.setSlot (h : s.Fits τ) (s₀ : Store) (b : Addr .builder) {k : Nat} (hx : x.Fits τ)
    (hk : x.marks τ ≤ k + ((s.known b name).map (Slot.marks τ)).getD 0) :
    (s.setSlot b name x isNew).Fits τ ∧
      s₀.marked τ (s.setSlot b name x isNew) ≤ s₀.marked τ s + k := by
  refine ⟨⟨⟨h.thunk, h.lambda⟩, fun {b' d'} hb' => ?_, fun {b' d'} hb' => ?_⟩,
    marked_setSlot isNew s₀ hk⟩ <;>
    obtain ⟨d, hd, rfl⟩ := builder_setSlot hb'
  · split <;> exact (h.entries hd :)
  · split
    · exact forall_setKey (h.slots hd) hx
    · exact h.slots hd

end SetSlot

end Store

/-- A plain action without the tag brings no mark. -/
theorem Action.Plain.fits {a : Action} (ha : a.Plain (Expr.Free τ)) (h : s.Fits τ) (s₀ : Store) :
    (a.perform s).2.Fits τ ∧ s₀.marked τ (a.perform s).2 ≤ s₀.marked τ s := by
  -- what leaves sets under construction alone and does not write the tag
  have hsame : (a.perform s).2.builders = s.builders →
      ((a.perform s).2.journal = s.journal ∨ ∃ x, (a.perform s).2.journal = x :: s.journal ∧
        x ≠ .tag τ ∧ ∀ b, x ≠ .assemble b) →
      (a.perform s).2.Fits τ ∧ s₀.marked τ (a.perform s).2 ≤ s₀.marked τ s := by
    intro hs hj
    exact ⟨⟨h.toBodies.perform ha.brings, fun hb => h.entries (hs ▸ hb),
      fun hb => h.slots (hs ▸ hb)⟩, Store.marked_of_quiet hs hj⟩
  cases a with
  | newBuilder env entries recursive =>
    have := h.newBuilder s₀ env recursive fun e he => (ha e he).fits
    rwa [marksOf_free ha] at this
  | setSlot => exact ha.elim
  | record e =>
    refine hsame rfl (.inr ⟨e, rfl, ?_, ?_⟩)
    · rintro rfl
      obtain ⟨x, hx⟩ := ha
      exact hx.tag
    · rintro b rfl
      exact ha
  | _ => exact hsame rfl (.inl rfl)

/-! ### What a computation spends -/

/-- A request evaluates a marked expression only if it is paid for. -/
def Request.Costs (τ : String) (k : Nat) : Request → Prop
  | .eval _ e => e.Free τ ∨ ∃ x, e = .trace τ x ∧ x.Free τ ∧ 0 < k
  | _ => True

/-- Along its run a computation uses at most so many marks that it holds itself. -/
def Comp.Spends (τ : String) (s₀ : Store) : Nat → Comp α → Store → Prop
  | _, .done _, _ => True
  | k, .act a c, s => (a.perform s).2.Fits τ ∧ ∃ k',
    s₀.marked τ (a.perform s).2 + k' ≤ s₀.marked τ s + k ∧
      (c (a.perform s).1).Spends τ s₀ k' (a.perform s).2
  | k, .ask q c, s => ∃ k₁ k', k₁ + k' ≤ k ∧ q.Costs τ k₁ ∧
    ∀ r s', q.Ends s r s' → s'.Fits τ → (c r).Spends τ s₀ k' s'

namespace Comp

theorem Spends.mono {c : Comp α} {k k' : Nat} (h : c.Spends τ s₀ k s) (hk : k ≤ k') :
    c.Spends τ s₀ k' s := by
  cases c with
  | done r => trivial
  | act a c =>
    obtain ⟨hs, k₁, hle, hc⟩ := h
    exact ⟨hs, k₁, by omega, hc⟩
  | ask q c =>
    obtain ⟨k₁, k₂, hle, hq, hc⟩ := h
    exact ⟨k₁, k₂, by omega, hq, hc⟩

theorem Spends.bind {c : Comp α} {f : α → Comp β} {k k' : Nat} (hc : c.Spends τ s₀ k s)
    (hs : s.Fits τ)
    (hf : ∀ a s', c.Ends s (.ok a) s' → s'.Fits τ → (f a).Spends τ s₀ k' s') :
    (c >>= f).Spends τ s₀ (k + k') s := by
  induction c generalizing s k with
  | done r =>
    cases r with
    | ok a => exact (hf a s (ends_done.mpr ⟨rfl, rfl⟩) hs).mono (Nat.le_add_left _ _)
    | error e => trivial
  | act a c ih =>
    obtain ⟨hs', k₁, hle, hc⟩ := hc
    exact ⟨hs', k₁ + k', by omega, ih _ hc hs' hf⟩
  | ask q c ih =>
    obtain ⟨k₁, k₂, hle, hq, hc⟩ := hc
    refine ⟨k₁, k₂ + k', by omega, hq, fun r s₁ hr hs₁ => ?_⟩
    exact ih _ (hc r s₁ hr hs₁) hs₁ fun a s' ha => hf a s' (ha.ask hr)

end Comp

/-- Nothing but plain actions and requests without the tag. -/
def Rules.clean (τ : String) : Rules where
  holds s := s.Fits τ
  act _ a := a.Plain (Expr.Free τ)
  ask _ q := q.Plain (Expr.Free τ)
  catches := True

theorem Rules.clean_permits (τ : String) : (Rules.clean τ).Permits (Expr.Free τ) where
  toHereditary := Expr.free_hereditary τ
  act _ ha := ha
  ask _ hq := hq
  lambda hs hf := hs.lambda hf
  orElse _ := trivial

theorem Request.Plain.costs {q : Request} (h : q.Plain (Expr.Free τ)) (k : Nat) : q.Costs τ k := by
  cases q with
  | eval env e => exact .inl h
  | _ => trivial

namespace Comp

/-- Without the tag nothing is spent. -/
theorem Fair.spends {c : Comp α} (hc : c.Fair (.clean τ) s) (hs : s.Fits τ) :
    c.Spends τ s₀ 0 s := by
  induction c generalizing s with
  | done r => trivial
  | act a c ih =>
    obtain ⟨hs', hle⟩ := Action.Plain.fits hc.1 hs s₀
    exact ⟨hs', 0, hle, ih _ (hc.2 hs') hs'⟩
  | ask q c ih =>
    refine ⟨0, 0, Nat.le_refl _, Request.Plain.costs hc.1 0, fun r s' hr hs' => ?_⟩
    cases r with
    | ok x => exact ih _ (hc.2.1 x s' hr hs') hs'
    | error e =>
      rcases hc.2.2 e s' hr with hk | ⟨-, hk⟩
      · rw [hk]
        trivial
      · exact ih _ (hk hs') hs'

theorem Fairly.spends {c : Comp α} (hc : Fairly (.clean τ) c) (hs : s.Fits τ) :
    c.Spends τ s₀ 0 s := (hc s hs).spends hs

/-- A part without the tag goes before. -/
theorem Fairly.spends_bind {c : Comp α} {f : α → Comp β} {k : Nat} (hc : Fairly (.clean τ) c)
    (hs : s.Fits τ)
    (hf : ∀ a s', c.Ends s (.ok a) s' → s'.Fits τ → (f a).Spends τ s₀ k s') :
    (c >>= f).Spends τ s₀ k s := by
  have hall : (c >>= f).Spends τ s₀ (0 + k) s := (hc.spends hs).bind hs hf
  rwa [Nat.zero_add] at hall

theorem Spends.bind_pure {c : Comp α} {f : α → β} {k : Nat} (hc : c.Spends τ s₀ k s)
    (hs : s.Fits τ) : (c >>= fun a => pure (f a)).Spends τ s₀ k s :=
  hc.bind hs fun a s' _ _ => show (pure (f a) : Comp β).Spends τ s₀ 0 s' from trivial

theorem Spends.request {q : Request} {k : Nat} (hq : q.Costs τ k) :
    (Comp.request q).Spends τ s₀ k s := ⟨k, 0, Nat.le_refl _, hq, fun _ _ _ _ => trivial⟩

theorem Spends.setSlot (hs : s.Fits τ) (b : Addr .builder) {name : String} {x : Slot} {k : Nat}
    {isNew : Bool} (hx : x.Fits τ)
    (hk : x.marks τ ≤ k + ((s.known b name).map (Slot.marks τ)).getD 0) :
    (Comp.perform (.setSlot b name x isNew)).Spends τ s₀ k s := by
  obtain ⟨hs', hle⟩ := hs.setSlot isNew s₀ b hx hk
  exact ⟨hs', 0, hle, trivial⟩

end Comp

/-! ### Entries -/

theorem Comp.takeApart_free (τ : String) {name : String} {v : Value} {es : List Entry}
    (h : (Comp.takeApart name v).Ends s (.ok es) s') : ∀ e ∈ es, e.All (Expr.Free τ) := by
  obtain ⟨w, s₁, -, h₂⟩ := ends_bind_ok.mp h
  cases w with
  | set a =>
    obtain ⟨m, s₂, -, h₃⟩ := ends_bind_ok.mp h₂
    cases (ends_pure.mp h₃).1
    exact entriesOf_free m
  | _ => cases (ends_done.mp h₂).1

theorem Store.Fits.slot (h : s.Fits τ) {name : String} {x : Slot}
    (hx : s.known b name = some x) : x.Fits τ := by
  obtain ⟨d, hb, hd⟩ := Option.bind_eq_some_iff.mp hx
  exact h.slots hb _ (Attrs.mem_of_lookup hd)

section Entry

variable {name : String} {es : List Entry}

theorem Comp.collect_spends (hs : s.Fits τ) (he : ∀ e ∈ es, e.Fits τ) :
    (Comp.collect b name es).Spends τ s₀ (marksOf τ es) s := by
  refine ((Rules.clean_permits τ).slot b name).spends_bind hs fun o s₁ ho hs₁ => ?_
  obtain ⟨h₁, rfl⟩ := ends_slot.mp ho
  cases h₁
  split
  · rename_i old hold
    refine Spends.setSlot hs b (fun e h => ?_) ?_
    · rcases List.mem_append.mp h with h | h
      · exact hs.slot hold e h
      · exact he e h
    · rw [hold]
      simp only [Slot.marks, marksOf_append, Option.map_some, Option.getD_some]
      omega
  · exact .setSlot hs b he (Nat.le_add_right _ _)

theorem Comp.merge_spends (hs : s.Fits τ) (old : Slot) {new : Slot} (hn : new.Fits τ) :
    (Comp.merge b name old new).Spends τ s₀ (new.marks τ) s := by
  have hapart : ∀ v, Fairly (.clean τ) (Comp.takeApart name v) :=
    (Rules.clean_permits τ).takeApart name
  cases old with
  | leaf v =>
    cases new with
    | leaf w => trivial
    | tree es =>
      refine (hapart v).spends_bind hs fun old s₁ hold hs₁ => ?_
      have hfree := takeApart_free τ hold
      refine .setSlot hs₁ b (fun e h => ?_) ?_
      · rcases List.mem_append.mp h with h | h
        · exact (hfree e h).fits
        · exact hn e h
      · simp only [Slot.marks, marksOf_append, marksOf_free hfree]
        omega
  | tree old =>
    cases new with
    | leaf v =>
      refine (hapart v).spends_bind hs fun es s₁ hes hs₁ => ?_
      have hfree := takeApart_free τ hes
      have hcollect : (Comp.collect b name es).Spends τ s₀ (marksOf τ es) s₁ :=
        collect_spends hs₁ fun e h => (hfree e h).fits
      rwa [marksOf_free hfree] at hcollect
    | tree es => exact collect_spends hs hn

/-- The definition that an entry makes holds the marks of the rest of its path. -/
theorem Comp.definition_marks {env : Env} {rest : List Expr} {value : Expr} {new : Slot}
    (h : (Comp.definition env rest value).Ends s (.ok new) s')
    (he : (⟨rest, value⟩ : Entry).Fits τ) :
    new.Fits τ ∧ new.marks τ = (⟨rest, value⟩ : Entry).marks τ := by
  cases rest with
  | nil =>
    obtain ⟨v, s₁, -, h₂⟩ := ends_bind_ok.mp h
    cases (ends_pure.mp h₂).1
    exact ⟨trivial, rfl⟩
  | cons c rest =>
    cases (ends_pure.mp h).1
    refine ⟨fun e h => ?_, marksOf_singleton⟩
    cases List.mem_singleton.mp h
    exact he

/-- An entry uses the marks of its path: the first when its name is evaluated, and the rest with the
definition that it makes. -/
theorem Comp.define_spends (b : Addr .builder) (env : Env) {e : Entry} (he : e.Fits τ)
    (hs : s.Fits τ) : (Comp.define b env e).Spends τ s₀ (e.marks τ) s := by
  have h := Rules.clean_permits τ
  obtain ⟨path, value⟩ := e
  cases path with
  | nil => trivial
  | cons component rest =>
    have hrest : (⟨rest, value⟩ : Entry).Fits τ :=
      ⟨he.1, fun x hx => he.2 x (List.mem_cons_of_mem _ hx)⟩
    have hcost : (Request.eval env component).Costs τ (component.isMarked τ).toNat := by
      rcases he.2 component List.mem_cons_self with hfree | ⟨x, rfl, hx⟩
      · exact .inl hfree
      · rw [Expr.isMarked_trace]
        exact .inr ⟨x, rfl, hx, Nat.one_pos⟩
    have hmarks : EntryOf.marks τ ⟨component :: rest, value⟩ =
        (component.isMarked τ).toNat + EntryOf.marks τ ⟨rest, value⟩ := by
      rw [EntryOf.marks, List.map_cons, List.sum_cons, EntryOf.marks]
    -- the mark of the name is used here, those of the rest are handed on to the slot
    rw [hmarks]
    refine (Spends.request hcost).bind hs fun v s₁ _ hs₁ => ?_
    refine (h.forceName v).spends_bind hs₁ fun o s₂ _ hs₂ => ?_
    cases o with
    | none => trivial
    | some name =>
      refine (h.definition env rest he.1).spends_bind hs₂ fun new s₃ hnew hs₃ => ?_
      obtain ⟨hfits, hm⟩ := definition_marks hnew hrest
      rw [← hm]
      refine (h.slot b name).spends_bind hs₃ fun o s₄ ho hs₄ => ?_
      obtain ⟨h₁, rfl⟩ := ends_slot.mp ho
      cases h₁
      split
      · exact .setSlot hs₄ b hfits (Nat.le_add_right _ _)
      · exact merge_spends hs₄ _ hfits

end Entry

/-! ### The assembly -/

/-- A set inside takes over the marks of its entries. -/
theorem Comp.construct_spends (env : Env) {entries : List Entry} (recursive : Bool)
    (he : ∀ e ∈ entries, e.Fits τ) (hs : s.Fits τ) :
    (Comp.construct env entries recursive).Spends τ s₀ (marksOf τ entries) s := by
  obtain ⟨hs₁, hle⟩ := hs.newBuilder s₀ env recursive he
  have h := Rules.clean_permits τ
  have hnew :
      (Comp.perform (.newBuilder env entries recursive)).Spends τ s₀ (marksOf τ entries) s :=
    ⟨hs₁, 0, hle, trivial⟩
  refine hnew.bind hs fun b s₂ _ hs₂ => Fairly.spends ?_ hs₂
  refine (h.request (q := .build b) trivial).bind fun _ =>
    (h.perform (a := .builder b) trivial).bind fun d => ?_
  split
  · exact .pure _
  · exact .refuse _

theorem Comp.slotValue_spends (env : Env) {x : Slot} (hx : x.Fits τ) (hs : s.Fits τ) :
    (Comp.slotValue env x).Spends τ s₀ (x.marks τ) s := by
  cases x with
  | leaf v => trivial
  | tree es => exact (construct_spends env false hx hs).bind_pure hs

/-- The assembly uses the marks that have been gathered in its set. -/
theorem Comp.assemble_spends {d : Builder} (hb : s.builders.get? b = some d) (hd : d.Ordered)
    (hs : s.Fits τ) : (Comp.assemble b).Spends τ s₀ (d.gathered τ) s := by
  -- slot by slot, each with its own marks
  have hall : ∀ (l : List (String × Slot)) (s : Store), (∀ p ∈ l, p.2.Fits τ) → s.Fits τ →
      (l.mapM (Comp.slotBinding d.env)).Spends τ s₀
        (l.map fun p : String × Slot => p.2.marks τ).sum s := by
    intro l
    induction l with
    | nil => exact fun s _ _ => trivial
    | cons p l ih =>
      intro s hl hs
      rw [List.mapM_cons, List.map_cons, List.sum_cons]
      have hp : (Comp.slotValue d.env p.2).Spends τ s₀ (p.2.marks τ) s :=
        slotValue_spends d.env (hl p List.mem_cons_self) hs
      refine Spends.bind (hp.bind_pure hs) hs fun x s₁ _ hs₁ => ?_
      exact (ih s₁ (fun p hp => hl p (List.mem_cons_of_mem _ hp)) hs₁).bind_pure hs₁
  have h := Rules.clean_permits τ
  refine (h.perform (a := .builder b) trivial).spends_bind hs fun o s₁ ho hs₁ => ?_
  obtain ⟨ho, rfl⟩ := ends_perform.mp ho
  cases ho.trans (congrArg Except.ok hb)
  dsimp only
  rw [hd.mapM_order]
  exact (hall d.slots _ (hs.slots hb) hs).bind hs fun l s₂ _ hs₂ =>
    (h.perform (a := .newSet (.ofList l)) trivial).spends hs₂

/-! ### Requests -/

/-- Taking up an entry hands its marks over to it. -/
theorem Store.marked_startEntry {d : Builder} {e : Entry} (hb : s.builders.get? b = some d)
    (he : d.entries[d.next]? = some e)
    (hs : s'.builders = s.builders.modify b
      fun c => { c with next := c.next + 1, active := c.active + 1 })
    (hj : s'.journal = .entry b d.next :: s.journal) :
    s₀.marked τ s' + e.marks τ ≤ s₀.marked τ s := by
  have hb' : s'.builders.get? b = some { d with next := d.next + 1, active := d.active + 1 } := by
    rw [hs, Heap.get?_modify_self hb]
  have hasm : ∀ b', s'.assemblies b' = s.assemblies b' :=
    fun b' => assemblies_cons hj fun h => by cases h
  have hwait : d.waiting τ =
      e.marks τ + Builder.waiting τ { d with next := d.next + 1, active := d.active + 1 } := by
    rw [← Array.getElem?_toList] at he
    obtain ⟨hlt, he⟩ := List.getElem?_eq_some_iff.mp he
    rw [Builder.waiting, List.drop_eq_getElem_cons hlt, he]
    rfl
  rw [← Nat.add_zero (s₀.marked τ s)]
  refine marked_le (b := b) (Nat.le_of_eq ?_) ?_ (fun b' hne => Nat.le_of_eq ?_) ?_
  · rw [hs, Heap.next_modify]
  · rw [hs, Heap.next_modify]
    exact Heap.lt_of_get? hb
  · rw [live, live, hs, Heap.get?_modify, if_neg (Ne.symm hne), hasm]
  · rw [live_eq hb', live_eq hb, hasm, hj, List.count_cons_of_ne (fun h => by cases h), hwait]
    show _ + (_ + if _ then d.gathered τ else 0) + _ ≤ _
    omega

/-- The assembly of a set uses up the marks that have been gathered in it. -/
theorem Store.marked_startAssemble {d : Builder} (hb : s.builders.get? b = some d)
    (ha : s.assemblies b = s₀.assemblies b)
    (hs : s'.builders = s.builders.modify b fun c => { c with active := c.active + 1 })
    (hj : s'.journal = .assemble b :: s.journal) :
    s₀.marked τ s' + d.gathered τ ≤ s₀.marked τ s := by
  have hb' : s'.builders.get? b = some { d with active := d.active + 1 } := by
    rw [hs, Heap.get?_modify_self hb]
  have hasm := assemblies_cons_self hj
  rw [← Nat.add_zero (s₀.marked τ s)]
  refine marked_le (b := b) (Nat.le_of_eq ?_) ?_ (fun b' hne => Nat.le_of_eq ?_) ?_
  · rw [hs, Heap.next_modify]
  · rw [hs, Heap.next_modify]
    exact Heap.lt_of_get? hb
  · rw [live, live, hs, Heap.get?_modify, if_neg (Ne.symm hne),
      assemblies_cons hj fun h => hne (by injection h with h; exact h.symm)]
  · rw [live_eq hb', live_eq hb, if_pos ha, if_neg (by omega), hj,
      List.count_cons_of_ne (fun h => by cases h)]
    show _ + (d.waiting τ + 0) + _ ≤ _
    omega

/-- The start of a request keeps the marks where they belong. -/
theorem Store.Fits.start {q : Request} {c : Comp q.Answer} (h : s.Fits τ)
    (hq : q.start s = .run c s') : s'.Fits τ := by
  obtain ⟨f, hf, hcell⟩ := Request.start_cells hq
  refine ⟨h.toBodies.start hq, fun hb => ?_, fun hb => ?_⟩ <;>
    obtain ⟨d, hd, rfl⟩ := Option.map_eq_some_iff.mp ((hf _).symm.trans hb)
  · exact (hcell _ d).1.entries ▸ h.entries hd
  · exact (hcell _ d).1.slots ▸ h.slots hd

theorem Request.next_finish (q : Request) (r : Except Error q.Answer) (s : Store) :
    (q.finish r s).builders.next = s.builders.next := by
  cases q with
  | force t => rw [Request.finish, s.builders_finishForce t r]
  | entry b => cases r <;> exact Heap.next_modify _ _ _
  | assemble b => exact Heap.next_modify _ _ _
  | _ => rfl

theorem Store.Fits.finish (h : s.Fits τ) (q : Request) (r : Except Error q.Answer) (s₀ : Store) :
    (q.finish r s).Fits τ ∧ s₀.marked τ (q.finish r s) ≤ s₀.marked τ s := by
  have hj := q.journal_finish r s
  have hget : ∀ {b d'}, (q.finish r s).builders.get? b = some d' → ∃ d, s.builders.get? b = some d ∧
      d'.entries = d.entries ∧ d'.next = d.next ∧ d'.slots = d.slots := by
    intro b d' hb
    obtain ⟨f, hf, hcell⟩ := q.finish_cells r s
    obtain ⟨d, hd, rfl⟩ := Option.map_eq_some_iff.mp ((hf _).symm.trans hb)
    obtain ⟨hkeeps, hnext⟩ := hcell b d
    exact ⟨d, hd, hkeeps.entries, hnext, hkeeps.slots⟩
  refine ⟨⟨h.toBodies.finish q r, fun hb => ?_, fun hb => ?_⟩, ?_⟩
  · obtain ⟨d, hd, he, -⟩ := hget hb
    exact he ▸ h.entries hd
  · obtain ⟨d, hd, -, -, hslots⟩ := hget hb
    exact hslots ▸ h.slots hd
  · exact marked_of_same (k := 0) (q.next_finish r s) hget
      (fun b => by rw [assemblies, hj, assemblies]) (Nat.le_of_eq (by rw [hj, Nat.add_zero]))

/-- The construction of a set spends nothing itself. -/
theorem Comp.Fair.spends_of_build {c : Comp α} (hc : c.Fair (.build b) s) (hp : s.Propagates)
    (hs : s.Fits τ) : c.Spends τ s₀ 0 s := by
  induction c generalizing s with
  | done r => trivial
  | act a c ih =>
    obtain ⟨rfl, hc⟩ := hc
    exact ⟨hs, 0, Nat.le_refl _, ih _ (hc hp) hp hs⟩
  | ask q c ih =>
    obtain ⟨⟨hq, hlegal⟩, hok, herr⟩ := hc
    refine ⟨0, 0, Nat.le_refl _, by rcases hq with rfl | rfl <;> trivial, fun r s₁ hr hs₁ => ?_⟩
    have hp₁ := hlegal.kept hr
    cases r with
    | ok x => exact ih _ (hok x s₁ hr hp₁) hp₁ hs₁
    | error e =>
      rw [(herr e s₁ hr).resolve_right fun h => h.1]
      trivial

/-- What the computation of a request spends is paid for by the request. -/
theorem Request.Costs.start {q : Request} {k : Nat} {c : Comp q.Answer} (hk : q.Costs τ k)
    (hl : q.Legal s) (hp : s₀.Past s) (hproper : ∀ b, s.ProperAt b) (hs : s.Fits τ)
    (hq : q.start s = .run c s') :
    ∃ k', c.Spends τ s₀ k' s' ∧ s₀.marked τ s' + k' ≤ s₀.marked τ s + k := by
  have hs' := hs.start hq
  -- a request that is not about a set under construction and does without the tag
  have hplain : q.Plain (Expr.Free τ) → (∀ b, q ≠ .build b) →
      ∃ k', c.Spends τ s₀ k' s' ∧ s₀.marked τ s' + k' ≤ s₀.marked τ s + k := by
    intro hplain hb
    refine ⟨0, Comp.Fairly.spends ((Rules.clean_permits τ).start hplain hb
      (fun t env body _ ht => hs.thunk ht) hq) hs', Nat.le_trans ?_ (Nat.le_add_right _ _)⟩
    rcases Request.start_builders hq with ⟨b, d, e, rfl, -⟩ | ⟨b, rfl, -⟩ | ⟨-, hbs, hj⟩
    · exact hplain.elim
    · exact hplain.elim
    · exact Store.marked_of_quiet hbs (hj.imp_right fun ⟨t, hj⟩ =>
        ⟨_, hj, fun h => (by cases h), fun b h => (by cases h)⟩)
  cases q with
  | eval env e =>
    rcases hk with hfree | ⟨x, rfl, hx, hk⟩
    · exact hplain hfree fun b h => by cases h
    · -- the tag is written
      cases hq
      have htag : s₀.marked τ (s.record (.tag τ)) ≤ s₀.marked τ s + 1 := by
        refine Store.marked_of_same rfl (fun hb => ⟨_, hb, rfl, rfl, rfl⟩)
          (fun b => Store.assemblies_cons rfl fun h => by cases h) (Nat.le_of_eq ?_)
        exact List.count_cons_self
      refine ⟨1, ⟨⟨⟨hs.thunk, hs.lambda⟩, hs.entries, hs.slots⟩, 0, htag, ?_⟩, by omega⟩
      exact Comp.Spends.request (q := .eval env x) (.inl hx)
  | build b =>
    cases hq
    exact ⟨0, (Comp.build_fair b hl.propagates).spends_of_build hl.propagates hs, by omega⟩
  | entry b =>
    obtain ⟨d, e, hb, he, rfl, hs₁⟩ := Store.startEntry_run hq
    have hmem : e ∈ d.entries.toList := Array.mem_toList_iff.mpr (Array.mem_of_getElem? he)
    refine ⟨e.marks τ, (Comp.define_spends b d.env (hs.entries hb e hmem) hs').bind_pure hs', ?_⟩
    have hle : s₀.marked τ s' + e.marks τ ≤ s₀.marked τ s :=
      Store.marked_startEntry hb he (hs₁ ▸ rfl) (hs₁ ▸ rfl)
    omega
  | assemble b =>
    obtain ⟨d, hb, hd, ha, -⟩ := hl.due
    have hasm : s.assemblies b = s₀.assemblies b :=
      (hp.assembled b).resolve_right fun ⟨_, d', hb', hd'⟩ => by
        cases hb.symm.trans hb'
        have := hd' hd
        omega
    have hb₁ : (s.builders.modify b fun c => { c with active := c.active + 1 }).get? b =
        some { d with active := d.active + 1 } :=
      Heap.get?_modify_self hb _
    have hordered : Builder.Ordered { d with active := d.active + 1 } :=
      (hproper b d hb).toOrdered.keeps ⟨rfl, rfl, rfl, rfl⟩
    cases hq
    refine ⟨d.gathered τ, Comp.assemble_spends (d := { d with active := d.active + 1 }) hb₁
      hordered hs', ?_⟩
    exact Nat.le_trans (Store.marked_startAssemble hb hasm rfl rfl) (Nat.le_add_right _ _)
  | _ => exact hplain trivial fun b h => by cases h

/-- What a computation spends, and what its requests are paid for, is all that happens. -/
theorem Comp.Spends.run {n k : Nat} {q : Request} {c : Comp α} {r : Except Error α}
    (hc : c.Spends τ s₀ k s) (hb : c.Behaves (some q) s) (hp : s₀.Past s)
    (hproper : ∀ b, s.ProperAt b) (hs : s.Fits τ)
    (ih : ∀ {q : Request} {k : Nat} {s s' : Store} {r : Except Error q.Answer}, q.Costs τ k →
      q.Legal s → s₀.Past s → (∀ b, s.ProperAt b) → s.Fits τ → q.run n s = some (r, s') →
        s'.Fits τ ∧ s₀.marked τ s' ≤ s₀.marked τ s + k)
    (hr : c.run n s = some (r, s')) : s'.Fits τ ∧ s₀.marked τ s' ≤ s₀.marked τ s + k := by
  induction c generalizing s k with
  | done r =>
    cases hr
    exact ⟨hs, Nat.le_add_right _ _⟩
  | act a c ih' =>
    obtain ⟨hs₁, k₁, hle, hc⟩ := hc
    obtain ⟨hs', hle'⟩ := ih' _ hc hb.act (hp.turn hb.works hb.turn)
      (fun b => hb.proper (hproper b)) hs₁ hr
    exact ⟨hs', by omega⟩
  | ask q' c ih' =>
    obtain ⟨k₁, k₂, hle, hq, hc⟩ := hc
    obtain ⟨r₁, s₁, h₁, h₂⟩ := Comp.runWith_ask_iff.mp hr
    have hends : q'.Ends s r₁ s₁ := ⟨n, h₁⟩
    have hl := hb.legal
    obtain ⟨hs₁, hle₁⟩ := ih hq hl hp hproper hs h₁
    obtain ⟨hs', hle'⟩ := ih' r₁ (hc r₁ s₁ hends hs₁) (hb.answered hends).1
      (hp.turn (hl.works hends) (hl.turn hends)) (fun b => hl.proper hends (hproper b)) hs₁ h₂
    exact ⟨hs', by omega⟩

/-- **No request makes marks.** -/
theorem Request.Costs.ends {q : Request} {k : Nat} {r : Except Error q.Answer} (hk : q.Costs τ k)
    (hl : q.Legal s) (hp : s₀.Past s) (hproper : ∀ b, s.ProperAt b) (hs : s.Fits τ)
    (hr : q.Ends s r s') : s'.Fits τ ∧ s₀.marked τ s' ≤ s₀.marked τ s + k := by
  obtain ⟨n, hn⟩ := hr
  induction n generalizing q k s s' with
  | zero => cases hn
  | succ n ih =>
    rcases Request.run_succ_cases hn with hq | ⟨c, s₁, s₂, hq, h₂, rfl⟩
    · obtain rfl := Request.start_answer hq
      exact ⟨hs, Nat.le_add_right _ _⟩
    · obtain ⟨k₁, hc, hle⟩ := hk.start hl hp hproper hs hq
      obtain ⟨hs₂, hle₂⟩ := hc.run (.inl (hl.start_fair hq)) (hp.start hl hq)
        (fun b => (hproper b).start hq) (hs.start hq) ih h₂
      obtain ⟨hs', hle'⟩ := hs₂.finish q r s₀
      exact ⟨hs', Nat.le_trans hle' (by omega)⟩

/-- **The marks that are used.** In all states that calls without the tag pass, no more marks have
been used than there were. -/
theorem Machine.Passes.marks {m : Machine Unit} {calls : List Call} (hs : s.Rested)
    (hcalls : ∀ c ∈ calls, c.All Expr.Propagates) (hf : s.Fits τ)
    (hc : ∀ c ∈ calls, c.All (Expr.Free τ)) (h : (load (.callAll calls) s).Passes m) :
    m.store.Fits τ ∧ s.marked τ m.store ≤ s.marked τ s := by
  have hkept : Machine.Claim.Kept fun top {_} c s' => Comp.Sound s top c s' ∧
      s'.Fits τ ∧ ∃ k, c.Spends τ s k s' ∧ s.marked τ s' + k ≤ s.marked τ s := by
    refine ⟨?_, ?_, ?_⟩
    · rintro top α a c s₁ ⟨ho, hs₁, k, ⟨hs₂, k', hle', hc⟩, hle⟩
      exact ⟨(Comp.Sound.kept s).act ho, hs₂, k', hc, by omega⟩
    · rintro top α q c s₁ s₂ r ⟨ho, hs₁, k, ⟨k₁, k', hle', hq, hc⟩, hle⟩ hr
      obtain ⟨hs₂, hle₂⟩ := hq.ends ho.behaves.legal ho.past ho.proper hs₁ hr
      exact ⟨(Comp.Sound.kept s).answered ho hr, hs₂, k', hc _ _ hr hs₂, by omega⟩
    · rintro top α q k s₁ s₂ c ⟨ho, hs₁, k, ⟨k₁, k', hle', hq, hc⟩, hle⟩ hstart
      obtain ⟨k₂, hc₂, hle₂⟩ := hq.start ho.behaves.legal ho.past ho.proper hs₁ hstart
      exact ⟨(Comp.Sound.kept s).inside ho hstart, hs₁.start hstart, k₂, hc₂, by omega⟩
  have hstart : (Comp.callAll calls).Spends τ s 0 s :=
    (Comp.callAll_fair (Rules.clean_permits τ) trivial hc hf).spends hf
  obtain ⟨-, hm, k, -, hle⟩ := h.of_load hkept
    ⟨Comp.callAll_sound hs hcalls, hf, 0, hstart, Nat.le_refl _⟩
  exact ⟨hm, by omega⟩

end NixKernel
