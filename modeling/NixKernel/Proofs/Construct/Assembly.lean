import Mathlib.Data.List.Forall2
import NixKernel.Proofs.Attrs
import NixKernel.Proofs.Construct.Entries
import NixKernel.Proofs.Construct.Spread

/-!
Whole constructions. Definitions that are compatible are built into a set that is laid out as they
ask for, and nothing that was there before is touched; definitions of literals that are not
compatible are refused.
-/

namespace NixKernel

open Definition

/-! ### All entries -/

/-- A set is under construction and its first `i` definitions have been taken up. -/
structure Underway (s₀ : Store) (b : Addr .builder) (env : Env) (all : List Definition) (i : Nat)
    (s : Store) : Prop where
  fresh : s₀.builders.get? b = none
  cell : ∃ slots, s.builders.get? b = some
      ⟨env, (all.map entry).toArray, i, 0, slots.map Prod.fst, slots, none, none⟩ ∧
    Gathered s₀ env (all.take i) slots s

section Entries

variable {s₀ s : Store} {b : Addr .builder} {env : Env} {all : List Definition} {i : Nat}
  {d : Definition}

/-- The store when the next entry is started. -/
def Store.takeUp (s : Store) (b : Addr .builder) (i : Nat) : Store :=
  Store.record { s with builders := s.builders.modify b fun c =>
    { c with next := c.next + 1, active := c.active + 1 } } (.entry b i)

theorem start_entry {slots : List (String × Slot)}
    (hb : s.builders.get? b = some
      ⟨env, (all.map entry).toArray, i, 0, slots.map Prod.fst, slots, none, none⟩)
    (hd : all[i]? = some d) : (Request.entry b).start s =
      .run (do Comp.define b env d.entry; return true) (s.takeUp b i) := by
  have he : (all.map entry).toArray[i]? = some d.entry := by simp [hd]
  simp only [Request.start, Store.startEntry, hb, he]
  rfl

theorem get?_takeUp {slots : List (String × Slot)}
    (hb : s.builders.get? b = some
      ⟨env, (all.map entry).toArray, i, 0, slots.map Prod.fst, slots, none, none⟩) :
    (s.takeUp b i).builders.get? b = some
      ⟨env, (all.map entry).toArray, i + 1, 1, slots.map Prod.fst, slots, none, none⟩ := by
  refine (Heap.get?_modify ..).trans ?_
  rw [if_pos rfl, hb]
  rfl

theorem take_succ_of_getElem? (hd : all[i]? = some d) : all.take (i + 1) = all.take i ++ [d] := by
  rw [List.take_add_one, hd]
  rfl

/-- The next entry is taken up if it goes together with those before it. -/
theorem Underway.entry_ok {may : Prop} (h : Underway s₀ b env all i s) (hd : all[i]? = some d)
    (hp : d.path ≠ []) (hj : ∀ k, Joins s₀ may (under k (all.take (i + 1))))
    (hmay : may → s₀.atLimit env = false) :
    ∃ s', (Request.entry b).Ends s (.ok true) s' ∧ Underway s₀ b env all (i + 1) s' ∧
      (¬ may → s'.started = s.started) := by
  obtain ⟨hfresh, slots, hb, hg⟩ := h
  rw [take_succ_of_getElem? hd] at hj
  have hg₁ : Gathered s₀ env (all.take i) slots (s.takeUp b i) :=
    hg.move ((hg.old.modifyBuilder hfresh _).record _) rfl
  obtain ⟨slots', s', hend, hg', hb', hst⟩ :=
    Comp.define_joins (get?_takeUp hb) rfl hfresh hg₁ hmay hp hj
  refine ⟨s'.finishBuilder b none, ?_, ⟨hfresh, slots', ?_, ?_⟩, hst⟩
  · rw [Request.ends_run (start_entry hb hd)]
    exact ⟨s', hend.bind (Comp.ends_pure.mpr ⟨rfl, rfl⟩), rfl⟩
  · refine (Heap.get?_modify ..).trans ?_
    rw [if_pos rfl, hb']
    rfl
  · rw [take_succ_of_getElem? hd]
    exact hg'.move (hg'.old.modifyBuilder hfresh _) rfl

/-- The next entry is refused if it is a literal and does not go together with those before it. -/
theorem Underway.entry_refused (h : Underway s₀ b env all i s) (hd : all[i]? = some d)
    (hp : d.path ≠ []) (hlit : ∀ k, Literals s₀ (under k all))
    (hj : ∀ k, Joins s₀ (s₀.atLimit env = false) (under k (all.take i)))
    (hn : ¬ ∀ k, Joins s₀ (s₀.atLimit env = false) (under k (all.take (i + 1)))) :
    ∃ c s', (Request.entry b).Ends s (.error (.eval c)) s' ∧
      (s₀.atLimit env = false → c.kind = .duplicateAttr) := by
  obtain ⟨hfresh, slots, hb, hg⟩ := h
  rw [take_succ_of_getElem? hd] at hn
  have hg₁ : Gathered s₀ env (all.take i) slots (s.takeUp b i) :=
    hg.move ((hg.old.modifyBuilder hfresh _).record _) rfl
  have hlit' : ∀ k, Literals s₀ (under k (all.take i ++ [d])) := by
    intro k
    have hk := hlit k
    rw [← List.take_append_drop (i + 1) all, under_append] at hk
    rw [← take_succ_of_getElem? hd]
    exact hk.of_append
  suffices hdef : ∃ c s', (Comp.define b env d.entry).Ends (s.takeUp b i) (.error (.eval c)) s' ∧
      (s₀.atLimit env = false → c.kind = .duplicateAttr) by
    obtain ⟨c, s', hend, hkind⟩ := hdef
    refine ⟨c, s'.finishBuilder b (some (.error (.eval c))), ?_, hkind⟩
    rw [Request.ends_run (start_entry hb hd)]
    exact ⟨s', hend.bind_error, rfl⟩
  -- only the name that the definition starts with can be in conflict
  obtain ⟨_ | k, rest, hx⟩ : ∃ x rest, d.path = x :: rest := List.exists_cons_of_ne_nil hp
  · exact absurd (fun k => by rw [under_append_null hx]; exact hj k) hn
  · have hnk : ¬ Joins s₀ (s₀.atLimit env = false) (under k (all.take i ++ [d])) := by
      intro hk
      refine hn fun k' => ?_
      by_cases hkk : k' = k
      · exact hkk ▸ hk
      · rw [under_append_of_ne hx hkk]
        exact hj k'
    by_cases hr : rest = []
    · subst hr
      exact Comp.define_plain_refused (get?_takeUp hb) hg₁ (hlit' k) (hj k) hnk hx
    · exact Comp.define_nested_refused (get?_takeUp hb) hg₁ (hlit' k) (hj k) hnk hx hr

theorem joins_take {may : Prop} (h : ∀ k, Joins s₀ may (under k all)) (i : Nat) (k : String) :
    Joins s₀ may (under k (all.take i)) := by
  have hk := h k
  rw [← List.take_append_drop i all, under_append] at hk
  exact hk.of_append

/-- All entries that go together are taken up. -/
theorem Underway.takeEntries_ok {may : Prop} (hp : ∀ d ∈ all, d.path ≠ [])
    (hj : ∀ k, Joins s₀ may (under k all)) (hmay : may → s₀.atLimit env = false) {n : Nat}
    (hn : i + n = all.length) (h : Underway s₀ b env all i s) :
    ∃ s', (Comp.takeEntries b n).Ends s (.ok ()) s' ∧ Underway s₀ b env all all.length s' ∧
      (¬ may → s'.started = s.started) := by
  induction n generalizing i s with
  | zero => exact ⟨s, Comp.ends_pure.mpr ⟨rfl, rfl⟩, hn ▸ h, fun _ => rfl⟩
  | succ n ih =>
    have hlt : i < all.length := by omega
    obtain ⟨s₁, h₁, hu₁, hst₁⟩ := h.entry_ok (List.getElem?_eq_getElem hlt)
      (hp _ (List.getElem_mem hlt)) (joins_take hj (i + 1)) hmay
    obtain ⟨s₂, h₂, hu₂, hst₂⟩ := ih (by omega) hu₁
    exact ⟨s₂, (Comp.ends_request.mpr h₁).bind h₂, hu₂,
      fun hm => (hst₂ hm).trans (hst₁ hm)⟩

/-- Literals that do not go together are refused at one of the entries. -/
theorem Underway.takeEntries_refused (hp : ∀ d ∈ all, d.path ≠ [])
    (hlit : ∀ k, Literals s₀ (under k all))
    (hbad : ¬ ∀ k, Joins s₀ (s₀.atLimit env = false) (under k all)) {n : Nat}
    (hn : i + n = all.length) (h : Underway s₀ b env all i s)
    (hj : ∀ k, Joins s₀ (s₀.atLimit env = false) (under k (all.take i))) :
    ∃ c s', (Comp.takeEntries b n).Ends s (.error (.eval c)) s' ∧
      (s₀.atLimit env = false → c.kind = .duplicateAttr) := by
  induction n generalizing i s with
  | zero =>
    rw [show i = all.length from hn, List.take_length] at hj
    exact absurd hj hbad
  | succ n ih =>
    have hlt : i < all.length := by omega
    have hd : all[i]? = some all[i] := List.getElem?_eq_getElem hlt
    have hpi := hp _ (List.getElem_mem hlt)
    by_cases hj' : ∀ k, Joins s₀ (s₀.atLimit env = false) (under k (all.take (i + 1)))
    · obtain ⟨s₁, h₁, hu₁, -⟩ := h.entry_ok hd hpi hj' id
      obtain ⟨c, s₂, h₂, hk⟩ := ih (by omega) hu₁ hj'
      exact ⟨c, s₂, (Comp.ends_request.mpr h₁).bind h₂, hk⟩
    · obtain ⟨c, s₁, h₁, hk⟩ := h.entry_refused hd hpi hlit hj hj'
      exact ⟨c, s₁, (Comp.ends_request.mpr h₁).bind_error, hk⟩

end Entries

/-! ### The slots of a set -/

section Slots

variable {s s' : Store} {env : Env} {may : Prop} {E : Error → Prop}
  {P : String × Slot → Value → Store → Store → Prop}

/-- Slots become bindings one after the other, from a store to another one; `P` says what becomes of
each slot between which stores. -/
inductive Steps (P : String × Slot → Value → Store → Store → Prop) :
    Store → List (String × Slot) → List (String × Value) → Store → Prop
  | nil (s : Store) : Steps P s [] [] s
  | cons {s s₁ s' : Store} {p : String × Slot} {v : Value} {l : List (String × Slot)}
      {vs : List (String × Value)} (step : P p v s s₁) (grows : s.Extends s₁)
      (rest : Steps P s₁ l vs s') : Steps P s (p :: l) ((p.1, v) :: vs) s'

namespace Steps

variable {l : List (String × Slot)} {vs : List (String × Value)} {k : String} {x : Slot}

theorem grows (h : Steps P s l vs s') : s.Extends s' := by
  induction h with
  | nil s => exact .refl s
  | cons _ grows _ ih => exact grows.trans ih

theorem names (h : Steps P s l vs s') : vs.map Prod.fst = l.map Prod.fst := by
  induction h with
  | nil => rfl
  | cons _ _ _ ih => rw [List.map_cons, List.map_cons, ih]

theorem absent (h : Steps P s l vs s') (hk : l.lookup k = none) : vs.lookup k = none := by
  induction h with
  | nil => rfl
  | @cons _ _ _ p v l vs _ _ _ ih =>
    obtain ⟨j, y⟩ := p
    rw [Attrs.lookup_cons_ite] at hk ⊢
    split at hk
    · cases hk
    · rename_i hkj
      rw [if_neg hkj]
      exact ih hk

/-- What becomes of the slot of a name, and between which stores. -/
theorem get (h : Steps P s l vs s') (hk : l.lookup k = some x) :
    ∃ v y z, vs.lookup k = some v ∧ P (k, x) v y z ∧ s.Extends y ∧ z.Extends s' := by
  induction h with
  | nil => cases hk
  | @cons s s₁ s' p v l vs step grows rest ih =>
    obtain ⟨j, u⟩ := p
    rw [Attrs.lookup_cons_ite] at hk ⊢
    split at hk
    · rename_i hkj
      cases hk
      subst hkj
      exact ⟨v, s, s₁, if_pos rfl, step, .refl s, rest.grows⟩
    · rename_i hkj
      rw [if_neg hkj]
      obtain ⟨w, y, z, hw, hP, hy, hz⟩ := ih hk
      exact ⟨w, y, z, hw, hP, grows.trans hy, hz⟩

/-- What becomes of the slots of two names: one is finished before the other is begun. -/
theorem get_two (h : Steps P s l vs s') (hk : l.lookup k = some x) {j : String} {x' : Slot}
    (hj : l.lookup j = some x') (hkj : k ≠ j) :
    ∃ v y z v' y' z', vs.lookup k = some v ∧ vs.lookup j = some v' ∧ P (k, x) v y z ∧
      P (j, x') v' y' z' ∧ s.Extends y ∧ s.Extends y' ∧ z.Extends s' ∧ z'.Extends s' ∧
      (z.Extends y' ∨ z'.Extends y) := by
  induction h with
  | nil => cases hk
  | @cons s s₁ s' p v l vs step grows rest ih =>
    obtain ⟨i, u⟩ := p
    rw [Attrs.lookup_cons_ite] at hk hj
    rw [Attrs.lookup_cons_ite, Attrs.lookup_cons_ite]
    -- the first slot may be that of either name, or of neither
    by_cases hki : k = i
    · subst hki
      rw [if_pos rfl] at hk
      cases hk
      rw [if_neg hkj.symm] at hj
      obtain ⟨w, y, z, hw, hP, hy, hz⟩ := rest.get hj
      refine ⟨v, s, s₁, w, y, z, if_pos rfl, ?_, step, hP, .refl s, grows.trans hy, rest.grows,
        hz, Or.inl hy⟩
      rw [if_neg hkj.symm, hw]
    · rw [if_neg hki] at hk
      by_cases hji : j = i
      · subst hji
        rw [if_pos rfl] at hj
        cases hj
        obtain ⟨w, y, z, hw, hP, hy, hz⟩ := rest.get hk
        refine ⟨w, y, z, v, s, s₁, ?_, if_pos rfl, hP, step, grows.trans hy, .refl s, hz,
          rest.grows, Or.inr hy⟩
        rw [if_neg hki, hw]
      · rw [if_neg hji] at hj
        obtain ⟨w, y, z, w', y', z', hw, hw', hP, hP', hy, hy', hz, hz', ho⟩ := ih hk hj
        refine ⟨w, y, z, w', y', z', ?_, ?_, hP, hP', grows.trans hy, grows.trans hy', hz, hz', ho⟩
        · rw [if_neg hki, hw]
        · rw [if_neg hji, hw']

end Steps

/-- Slots are turned into values one after the other: `P` says what becomes of each one, and `E`
how it can fail. -/
theorem mapM_slotValue (l : List (String × Slot))
    (hstep : ∀ p ∈ l, ∀ s₁, s.Extends s₁ →
      (∃ v s₂, (Comp.slotValue env p.2).Ends s₁ (.ok v) s₂ ∧ s₁.Extends s₂ ∧ P p v s₁ s₂ ∧
        (¬ may → s₂.started = s₁.started)) ∨
      ∃ e s₂, (Comp.slotValue env p.2).Ends s₁ (.error e) s₂ ∧ E e)
    (s₁ : Store) (h₁ : s.Extends s₁) :
    (∃ vs s₂, (l.mapM (Comp.slotBinding env)).Ends s₁ (.ok vs) s₂ ∧ Steps P s₁ l vs s₂ ∧
      (¬ may → s₂.started = s₁.started)) ∨
    ∃ e s₂, (l.mapM (Comp.slotBinding env)).Ends s₁ (.error e) s₂ ∧ E e := by
  induction l generalizing s₁ with
  | nil => exact Or.inl ⟨[], s₁, Comp.ends_pure.mpr ⟨rfl, rfl⟩, .nil s₁, fun _ => rfl⟩
  | cons p l ih =>
    rw [List.mapM_cons]
    rcases hstep p List.mem_cons_self s₁ h₁ with ⟨v, s₂, hv, hs₂, hPv, hst⟩ | ⟨e, s₂, he, hE⟩
    · have hpair := hv.bind (f := fun v => pure (p.1, v)) (Comp.ends_pure.mpr ⟨rfl, rfl⟩)
      rcases ih (fun q hq => hstep q (List.mem_cons_of_mem p hq)) s₂ (h₁.trans hs₂) with
        ⟨vs, s₃, hvs, hsteps, hst'⟩ | ⟨e, s₃, he, hE⟩
      · exact Or.inl ⟨(p.1, v) :: vs, s₃,
          hpair.bind (hvs.bind (Comp.ends_pure.mpr ⟨rfl, rfl⟩)), .cons hPv hs₂ hsteps,
          fun hm => (hst' hm).trans (hst hm)⟩
      · exact Or.inr ⟨e, s₃, hpair.bind he.bind_error, hE⟩
    · exact Or.inr ⟨e, s₂, (he.bind_error).bind_error, hE⟩

end Slots

/-! ### Assembly -/

section Assembly

variable {s₀ s s' : Store} {b : Addr .builder} {env : Env} {all : List Definition} {may : Prop}
  {C : String → Prop} {E : Error → Prop} {slots : List (String × Slot)}

/-- A set has been made from `s` to `s'` as definitions ask for, without touching what was there. -/
structure Made (ref s s' : Store) (env : Env) (ds : List Definition) (a : Addr .set) : Prop where
  grows : s.Extends s'
  laid : Laid ref s' env ds a
  spread : Spread s s' (.set a)

/-- What becomes of a slot in the finished set: a leaf is kept, and a tree becomes a set that is
made as the definitions inside it ask for. What else is known of the names of trees is `C`. -/
def Becomes (s₀ : Store) (env : Env) (all : List Definition) (C : String → Prop)
    (p : String × Slot) (v : Value) (s s' : Store) : Prop :=
  match p.2 with
  | .leaf w => v = w
  | .tree _ => C p.1 ∧ ∃ a, v = .set a ∧ Made s₀ s s' env (inside s₀ (under p.1 all)) a

/-- The nested attributes can be built in every later store, or fail in a known way. -/
def NestedEnds (s₀ : Store) (env : Env) (all : List Definition) (may : Prop) (C : String → Prop)
    (E : Error → Prop) : Prop :=
  ∀ k, Nested (under k all) → ∀ s₁, s₀.Extends s₁ →
    (C k ∧ ∃ a s₂, (Comp.construct env ((inside s₀ (under k all)).map entry) false).Ends s₁
      (.ok a) s₂ ∧ Made s₀ s₁ s₂ env (inside s₀ (under k all)) a ∧
      (¬ may → s₂.started = s₁.started)) ∨
    ∃ e s₂, (Comp.construct env ((inside s₀ (under k all)).map entry) false).Ends s₁
      (.error e) s₂ ∧ E e

namespace Definition.Gathered

theorem slotValue (h : Gathered s₀ env all slots s) (hn : NestedEnds s₀ env all may C E)
    {p : String × Slot} (hp : p ∈ slots) {s₁ : Store} (hs : s.Extends s₁) :
    (∃ v s₂, (Comp.slotValue env p.2).Ends s₁ (.ok v) s₂ ∧ s₁.Extends s₂ ∧
      Becomes s₀ env all C p v s₁ s₂ ∧ (¬ may → s₂.started = s₁.started)) ∨
    ∃ e s₂, (Comp.slotValue env p.2).Ends s₁ (.error e) s₂ ∧ E e := by
  obtain ⟨k, x⟩ := p
  have hk := Attrs.lookup_of_mem h.names hp
  cases x with
  | leaf v =>
    exact Or.inl ⟨v, s₁, Comp.ends_pure.mpr ⟨rfl, rfl⟩, .refl s₁, rfl, fun _ => rfl⟩
  | tree es =>
    have hnk : Nested (under k all) := h.of_tree hk
    rw [h.tree k hnk] at hk
    cases hk
    rcases hn k hnk s₁ (h.old.trans hs) with ⟨hC, a, s₂, ha, hmade, hst⟩ | ⟨e, s₂, he, hE⟩
    · exact Or.inl ⟨.set a, s₂, ha.bind (Comp.ends_pure.mpr ⟨rfl, rfl⟩), hmade.grows,
        ⟨hC, a, rfl, hmade⟩, hst⟩
    · exact Or.inr ⟨e, s₂, he.bind_error, hE⟩

section Finished

variable {vs : List (String × Value)} (h : Gathered s₀ env all slots s)
  (hvs : Steps (Becomes s₀ env all C) s slots vs s')

include h hvs

theorem get?_ofList (k : String) : (Attrs.ofList vs).get? k = vs.lookup k := by
  rw [Attrs.get?_ofList, Attrs.lookup_reverse_of_nodup (hvs.names ▸ h.names)]

/-- A name that is defined alone is bound to its leaf. -/
theorem get?_leaf {k : String} {e : Expr} (hk : alone? (under k all) = some e) :
    ∃ t, (Attrs.ofList vs).get? k = some (.thunk t) ∧
      s'.thunks.get? t = some (.unforced env e) ∧ Spread s₀ s' (.thunk t) := by
  obtain ⟨t, hl, hc, hf⟩ := h.leaf k e hk
  obtain ⟨v, y, z, hv, hP, -⟩ := hvs.get hl
  cases hP
  have hc' : s'.thunks.get? t = some (.unforced env e) := hvs.grows.thunk hc
  refine ⟨t, (h.get?_ofList hvs k).trans hv, hc', spread_thunk ⟨_, hc'⟩ ?_⟩
  rintro ⟨c, hc⟩
  rw [hf] at hc
  cases hc

/-- A nested name is bound to the set that is made of its definitions. -/
theorem get?_node {k : String} (hk : Nested (under k all)) :
    C k ∧ ∃ a, (Attrs.ofList vs).get? k = some (.set a) ∧
      Laid s₀ s' env (inside s₀ (under k all)) a ∧ Spread s₀ s' (.set a) := by
  obtain ⟨v, y, z, hv, ⟨hC, a, rfl, hmade⟩, hy, hz⟩ := hvs.get (h.tree k hk)
  exact ⟨hC, a, (h.get?_ofList hvs k).trans hv, hmade.laid.mono hz.thunk hz.set,
    hmade.spread.mono (h.old.trans hy).holds hz.holds⟩

/-- What names are bound to is new. -/
theorem spread_of_get? {k : String} {v : Value} (hk : (Attrs.ofList vs).get? k = some v) :
    Spread s₀ s' v := by
  rcases cases_under (under k all) with hu | ⟨e, hu⟩ | hu
  · rw [h.get?_ofList hvs, hvs.absent (h.absent k hu)] at hk
    cases hk
  · obtain ⟨t, ht, -, hs⟩ := h.get?_leaf hvs hu
    cases hk.symm.trans ht
    exact hs
  · obtain ⟨-, a, ha, -, hs⟩ := h.get?_node hvs hu
    cases hk.symm.trans ha
    exact hs

theorem slot_of_get? {k : String} {v : Value} (hk : (Attrs.ofList vs).get? k = some v) :
    ∃ x, slots.lookup k = some x := by
  rw [h.get?_ofList hvs] at hk
  cases hx : slots.lookup k with
  | none =>
    rw [hvs.absent hx] at hk
    cases hk
  | some x => exact ⟨x, rfl⟩

/-- Different names are bound to values that have nothing in common. -/
theorem parted {k j : String} {v w : Value} (hkj : k ≠ j)
    (hk : (Attrs.ofList vs).get? k = some v) (hj : (Attrs.ofList vs).get? j = some w) :
    s'.Parted v w := by
  obtain ⟨x, hx⟩ := h.slot_of_get? hvs hk
  obtain ⟨x', hx'⟩ := h.slot_of_get? hvs hj
  obtain ⟨v', y, z, w', y', z', hv, hw, hP, hP', hy, hy', hz, hz', ho⟩ := hvs.get_two hx hx' hkj
  rw [h.get?_ofList hvs] at hk hj
  cases hk.symm.trans hv
  cases hj.symm.trans hw
  -- a leaf is older than every set that is made, and there is one leaf for each name
  have hleaf : ∀ {i u}, slots.lookup i = some (.leaf u) → ∃ t, u = .thunk t ∧ s.Has (.thunk t) := by
    intro i u hu
    obtain ⟨t, e, rfl, -, hc, -⟩ := h.of_leaf hu
    exact ⟨t, rfl, _, hc⟩
  intro p q u hp hq
  cases x with
  | leaf r =>
    cases hP
    obtain ⟨t, rfl, ht⟩ := hleaf hx
    obtain ⟨-, rfl⟩ := Store.at?_thunk hp
    cases x' with
    | leaf r' =>
      cases hP'
      obtain ⟨t', rfl, -⟩ := hleaf hx'
      obtain ⟨-, hu⟩ := Store.at?_thunk hq
      cases hu
      exact hkj (h.apart k j t hx hx')
    | tree es =>
      obtain ⟨-, a, rfl, hmade⟩ := hP'
      rw [hz'.holds.at? hmade.spread.has] at hq
      exact hmade.spread.made hq (hy'.holds.has ht)
  | tree es =>
    obtain ⟨-, a, rfl, hmade⟩ := hP
    cases x' with
    | leaf r' =>
      cases hP'
      obtain ⟨t, rfl, ht⟩ := hleaf hx'
      obtain ⟨-, rfl⟩ := Store.at?_thunk hq
      rw [hz.holds.at? hmade.spread.has] at hp
      exact hmade.spread.made hp (hy.holds.has ht)
    | tree es' =>
      obtain ⟨-, a', rfl, hmade'⟩ := hP'
      rcases ho with ho | ho
      · exact hmade.spread.parted hmade'.spread ho.holds hz.holds hz'.holds hp hq
      · exact hmade'.spread.parted hmade.spread ho.holds hz'.holds hz.holds hq hp

variable {s₂ : Store} (hs : s'.Holds s₂) {a : Addr .set}
  (ha : s₂.sets.get? a = some (.ofList vs))

include hs ha

/-- The set of what becomes of the slots is laid out as the definitions ask for. -/
theorem laid : Laid s₀ s₂ env all a := by
  have hnode : ∀ k, ∃ a', Nested (under k all) → (Attrs.ofList vs).get? k = some (.set a') ∧
      Laid s₀ s₂ env (inside s₀ (under k all)) a' := by
    intro k
    by_cases hk : Nested (under k all)
    · obtain ⟨-, a', ha', hlaid, -⟩ := h.get?_node hvs hk
      exact ⟨a', fun _ => ⟨ha', hlaid.mono hs.thunk hs.set⟩⟩
    · exact ⟨a, fun h => absurd h hk⟩
  refine .intro (fun k => (hnode k).choose) ha (fun k hk => ?_) (fun k e hk => ?_)
    (fun k hk => ((hnode k).choose_spec hk).1) fun k hk => ((hnode k).choose_spec hk).2
  · exact (h.get?_ofList hvs k).trans (hvs.absent (h.absent k hk))
  · obtain ⟨t, ht, hc, -⟩ := h.get?_leaf hvs hk
    exact ⟨t, ht, hs.thunk hc⟩

/-- What is inside the set of what becomes of the slots is new, and at one place only. -/
theorem spread (hnew : ¬ s'.Has (.set a)) : Spread s₀ s₂ (.set a) := by
  have hat : ∀ {k v}, (Attrs.ofList vs).get? k = some v → ∀ {p}, s₂.at? v p = s'.at? v p :=
    fun hk => hs.at? (h.spread_of_get? hvs hk).has
  refine spread_set ha (fun hold => hnew ((h.old.trans hvs.grows).holds.has hold))
    (fun hk => ?_) (fun hk hp => ?_) fun hkj hk hj p q x hp => ?_
  · exact (h.spread_of_get? hvs hk).mono ⟨id, id⟩ hs
  · rw [hat hk] at hp
    exact hnew ((h.spread_of_get? hvs hk).has hp)
  · rw [hat hk] at hp
    rw [hat hj]
    exact h.parted hvs hkj hk hj hp

end Finished

end Definition.Gathered

/-- The assembly of a set whose entries have all been taken up. -/
theorem Underway.assemble (h : Underway s₀ b env all all.length s)
    (hn : NestedEnds s₀ env all may C E) :
    (∃ a s', (Request.assemble b).Ends s (.ok a) s' ∧ Made s₀ s₀ s' env all a ∧
      (∀ k, Nested (under k all) → C k) ∧
      (∃ c, s'.builders.get? b = some c ∧ c.outcome = .built a) ∧
      (¬ may → s'.started = s.started)) ∨
    ∃ e s', (Request.assemble b).Ends s (.error e) s' ∧ E e := by
  obtain ⟨hfresh, slots, hb, hg⟩ := h
  rw [List.take_length] at hg
  set s₁ := Store.record { s with builders := s.builders.modify b fun c =>
    { c with active := c.active + 1 } } (.assemble b)
  have hstart : (Request.assemble b).start s = .run (Comp.assemble b) s₁ := rfl
  have hb₁ : s₁.builders.get? b =
      some ⟨env, (all.map entry).toArray, all.length, 1, slots.map Prod.fst, slots, none,
        none⟩ := by
    refine (Heap.get?_modify ..).trans ?_
    rw [if_pos rfl, hb]
    rfl
  have hg₁ : Gathered s₀ env all slots s₁ :=
    hg.move ((hg.old.modifyBuilder hfresh _).record _) rfl
  -- every slot has become a value, or one of them has failed
  rcases mapM_slotValue (P := Becomes s₀ env all C) slots
    (fun p hp s₂ hs₂ => hg₁.slotValue hn hp hs₂) s₁ (.refl s₁) with
    ⟨vs, s₂, hvs, hsteps, hst⟩ | ⟨e, s₂, he, hE⟩
  · have hs₂ := hsteps.grows
    have hb₃ : (s₂.newSet (.ofList vs)).2.builders.get? b = _ := hs₂.builder hb₁
    set s₃ := (s₂.newSet (.ofList vs)).2.finishBuilder b (some (.ok s₂.sets.next))
    have hs₃ : s₂.Holds s₃ := ⟨id, Heap.get?_push_of_some⟩
    have ha : s₃.sets.get? s₂.sets.next = some (.ofList vs) := Heap.get?_push_next _ _
    refine Or.inl ⟨s₂.sets.next, s₃, ?_, ⟨?_, ?_, ?_⟩, fun k hk => ?_,
      ⟨_, (Heap.get?_modify ..).trans (by rw [if_pos rfl, hb₃]; rfl), rfl⟩, hst⟩
    · rw [Request.ends_run hstart]
      refine ⟨_, (Comp.ends_assemble hb₁ ⟨rfl, hg.names⟩).mpr ?_, rfl⟩
      exact Comp.Ends.bind hvs (Comp.perform_ends _ _)
    · exact ((hg₁.old.trans hs₂).newSet _).modifyBuilder hfresh _
    · exact hg₁.laid hsteps hs₃ ha
    · refine hg₁.spread hsteps hs₃ ha ?_
      rintro ⟨m, hm⟩
      exact Heap.get?_ne_next hm rfl
    · exact (hg₁.get?_node hsteps hk).1
  · refine Or.inr ⟨e, s₂.finishBuilder b (some (.error e)), ?_, hE⟩
    rw [Request.ends_run hstart]
    exact ⟨s₂, (Comp.ends_assemble hb₁ ⟨rfl, hg.names⟩).mpr (Comp.Ends.bind_error he), rfl⟩

/-- The store in which a construction starts. -/
theorem underway_newBuilder (s : Store) (env : Env) (ds : List Definition) (recursive : Bool) :
    Underway s s.builders.next
      (if recursive then env.withShadow (.builder s.builders.next) else env) ds 0
      (s.newBuilder env (ds.map entry) recursive).2 :=
  ⟨Heap.get?_next _, [], Heap.get?_push_next _ _,
    Gathered.nil ((Store.Extends.refl s).newBuilder ..)⟩

/-- A set is built from its entries and then assembled. -/
theorem build_assemble (h : Underway s₀ b env all 0 s) {s₁ : Store}
    (h₁ : (Comp.takeEntries b all.length).Ends s (.ok ()) s₁)
    (hu : Underway s₀ b env all all.length s₁) {r : Except Error (Addr .set)} {s₂ : Store}
    (h₂ : (Request.assemble b).Ends s₁ r s₂) :
    (Request.build b).Ends s (r.map fun _ => ()) s₂ := by
  obtain ⟨-, slots, hb, -⟩ := h
  obtain ⟨-, slots₁, hb₁, -⟩ := hu
  rw [Request.ends_run rfl]
  refine ⟨s₂, (Comp.perform_ends (.builder b) s).bind ?_, rfl⟩
  simp only [Action.perform, hb, List.size_toArray, List.length_map]
  refine h₁.bind ((Comp.perform_ends (.builder b) s₁).bind ?_)
  simp only [Action.perform, hb₁, Option.map_some]
  cases r with
  | ok a => exact (Comp.ends_request.mpr h₂).bind (Comp.ends_pure.mpr ⟨rfl, rfl⟩)
  | error e => exact (Comp.ends_request.mpr h₂).bind_error

/-- An entry that fails ends the construction. -/
theorem build_fails (h : Underway s₀ b env all 0 s) {e : Error} {s₁ : Store}
    (h₁ : (Comp.takeEntries b all.length).Ends s (.error e) s₁) :
    (Request.build b).Ends s (.error e) s₁ := by
  obtain ⟨-, slots, hb, -⟩ := h
  rw [Request.ends_run rfl]
  refine ⟨s₁, (Comp.perform_ends (.builder b) s).bind ?_, rfl⟩
  simp only [Action.perform, hb, List.size_toArray, List.length_map]
  exact h₁.bind_error

end Assembly

end NixKernel
