import NixKernel.Proofs.Extends

/-!
What is inside a set that has just been made: new thunks and new sets, each of them at one place
only. Sets that are made one after the other have nothing in common.
-/

namespace NixKernel

namespace Store

/-! ### Cells and places -/

/-- The value is a thunk or a set of the store. -/
def Has (s : Store) : Value → Prop
  | .thunk t => ∃ c, s.thunks.get? t = some c
  | .set a => ∃ m, s.sets.get? a = some m
  | _ => False

/-- The thunks and sets of a store are in another one as they were. -/
structure Holds (s s' : Store) : Prop where
  thunk : ∀ {t c}, s.thunks.get? t = some c → s'.thunks.get? t = some c
  set : ∀ {a m}, s.sets.get? a = some m → s'.sets.get? a = some m

/-- The value at a path that leads through sets only. -/
def at? (s : Store) : Value → List String → Option Value
  | v, [] => some v
  | .set a, k :: p => ((s.sets.get? a).bind fun m => m.get? k).bind fun w => s.at? w p
  | _, _ :: _ => none

section Places

variable {s s' s'' : Store} {v w : Value}

theorem Extends.holds (h : s.Extends s') : s.Holds s' := ⟨h.thunk, h.set⟩

theorem Holds.has (h : s.Holds s') (hv : s.Has v) : s'.Has v := by
  cases v with
  | thunk t =>
    obtain ⟨c, hc⟩ := hv
    exact ⟨c, h.thunk hc⟩
  | set a =>
    obtain ⟨m, hm⟩ := hv
    exact ⟨m, h.set hm⟩
  | _ => exact hv.elim

theorem at?_nil (s : Store) (v : Value) : s.at? v [] = some v := by
  cases v <;> rfl

theorem at?_thunk {t : Addr .thunk} {p : List String} (h : s.at? (.thunk t) p = some w) :
    p = [] ∧ w = .thunk t := by
  cases p with
  | nil =>
    cases h
    exact ⟨rfl, rfl⟩
  | cons k p => cases h

theorem at?_set {a : Addr .set} {m : Attrs Value} (h : s.sets.get? a = some m) (k : String)
    (p : List String) : s.at? (.set a) (k :: p) = (m.get? k).bind fun w => s.at? w p := by
  simp only [at?, h, Option.bind_some]

theorem at?_append (s : Store) (v : Value) (p q : List String) :
    s.at? v (p ++ q) = (s.at? v p).bind fun w => s.at? w q := by
  induction p generalizing v with
  | nil =>
    rw [at?_nil]
    rfl
  | cons k p ih =>
    cases v with
    | set a => simp only [List.cons_append, at?, ih, Option.bind_assoc]
    | _ => rfl

/-- What is inside a value is the same in every store that holds all of it. -/
theorem Holds.at? (h : s.Holds s') {p : List String}
    (hv : ∀ {p w}, s.at? v p = some w → s.Has w) : s'.at? v p = s.at? v p := by
  induction p generalizing v with
  | nil => rw [at?_nil, at?_nil]
  | cons k p ih =>
    cases v with
    | set a =>
      obtain ⟨m, hm⟩ := hv (at?_nil s (.set a))
      rw [at?_set hm, at?_set (h.set hm)]
      cases hk : m.get? k with
      | none => rfl
      | some w =>
        refine ih fun {q x} hx => hv (p := k :: q) ?_
        rw [at?_set hm, hk]
        exact hx
    | _ => rfl

end Places

end Store

/-! ### Sets that have been made -/

/-- Everything in a value has been made from the store `s` to the store `s'`, and is at one place in
it only. -/
structure Spread (s s' : Store) (v : Value) : Prop where
  has : ∀ {p w}, s'.at? v p = some w → s'.Has w
  made : ∀ {p w}, s'.at? v p = some w → ¬ s.Has w
  once : ∀ {p q w}, s'.at? v p = some w → s'.at? v q = some w → p = q

section Spread

variable {s s₁ s₂ s' : Store} {v : Value}

theorem Spread.mono (h : Spread s₁ s₂ v) (h₁ : s.Holds s₁) (h₂ : s₂.Holds s') :
    Spread s s' v := by
  have hat : ∀ p, s'.at? v p = s₂.at? v p := fun p => h₂.at? h.has
  refine ⟨fun {p w} hw => ?_, fun {p w} hw hs => ?_, fun {p q w} hp hq => ?_⟩
  · rw [hat] at hw
    exact h₂.has (h.has hw)
  · rw [hat] at hw
    exact h.made hw (h₁.has hs)
  · rw [hat] at hp hq
    exact h.once hp hq

theorem spread_thunk {t : Addr .thunk} (hs' : s'.Has (.thunk t)) (hs : ¬ s.Has (.thunk t)) :
    Spread s s' (.thunk t) := by
  refine ⟨fun hw => ?_, fun hw => ?_, fun hp hq => ?_⟩
  · obtain ⟨-, rfl⟩ := Store.at?_thunk hw
    exact hs'
  · obtain ⟨-, rfl⟩ := Store.at?_thunk hw
    exact hs
  · rw [(Store.at?_thunk hp).1, (Store.at?_thunk hq).1]

/-- Two values have nothing in common. -/
def Store.Parted (s : Store) (v w : Value) : Prop :=
  ∀ {p q x}, s.at? v p = some x → s.at? w q ≠ some x

/-- Values that are made one after the other have nothing in common. -/
theorem Spread.parted {x y : Store} {w : Value} (hv : Spread s s₁ v) (hw : Spread x y w)
    (h₁ : s₁.Holds x) (hs : s₁.Holds s') (hy : y.Holds s') : s'.Parted v w := by
  intro p q u hp hq
  rw [hs.at? hv.has] at hp
  rw [hy.at? hw.has] at hq
  exact hw.made hq (h₁.has (hv.has hp))

/-- A new set of parted new values is spread. -/
theorem spread_set {a : Addr .set} {m : Attrs Value} (ha : s'.sets.get? a = some m)
    (hs : ¬ s.Has (.set a)) (hm : ∀ {k v}, m.get? k = some v → Spread s s' v)
    (hout : ∀ {k v p}, m.get? k = some v → s'.at? v p ≠ some (.set a))
    (hpart : ∀ {k j v w}, k ≠ j → m.get? k = some v → m.get? j = some w → s'.Parted v w) :
    Spread s s' (.set a) := by
  have hat : ∀ {k p w}, s'.at? (.set a) (k :: p) = some w →
      ∃ v, m.get? k = some v ∧ s'.at? v p = some w := by
    intro k p w hw
    rw [Store.at?_set ha] at hw
    exact Option.bind_eq_some_iff.mp hw
  -- a way is empty and leads to the set itself, or goes on in an attribute
  refine ⟨fun {p w} hw => ?_, fun {p w} hw => ?_, fun {p q w} hp hq => ?_⟩
  · cases p with
    | nil =>
      cases hw
      exact ⟨m, ha⟩
    | cons k p =>
      obtain ⟨v, hk, hv⟩ := hat hw
      exact (hm hk).has hv
  · cases p with
    | nil =>
      cases hw
      exact hs
    | cons k p =>
      obtain ⟨v, hk, hv⟩ := hat hw
      exact (hm hk).made hv
  · cases p with
    | nil =>
      cases hp
      cases q with
      | nil => rfl
      | cons j q =>
        obtain ⟨v, hj, hv⟩ := hat hq
        exact absurd hv (hout hj)
    | cons k p =>
      obtain ⟨v, hk, hv⟩ := hat hp
      cases q with
      | nil =>
        cases hq
        exact absurd hv (hout hk)
      | cons j q =>
        obtain ⟨u, hj, hu⟩ := hat hq
        by_cases hkj : k = j
        · subst hkj
          cases hk.symm.trans hj
          rw [(hm hk).once hv hu]
        · exact absurd hu (hpart hkj hk hj hv)

end Spread

end NixKernel
