import NixKernel.Proofs.Alike.Store
import NixKernel.Proofs.Walk

/-!
Computations that do not depend on addresses. Two computations simulate each other if from alike
stores they come to alike ends; parts that do so make up computations that do. `Answers` says it of
the requests.
-/

namespace NixKernel

namespace Comp

variable {α β γ δ : Type} {n : Nat} {ρ : Link} {R : α → β → Prop} {S : γ → δ → Prop}

/-- With `n` levels, whatever one of two computations comes to from alike stores, the other comes
to as well, up to addresses. -/
def Sim (n : Nat) (ρ : Link) (R : α → β → Prop) (c : Comp α) (c' : Comp β) : Prop :=
  ∀ s s', s.Alike ρ s' →
    (∀ r s₁, c.run n s = some (r, s₁) →
      ∃ r' s₁', c'.Ends s' r' s₁' ∧ Both R r r' ∧ s₁.Alike ρ s₁') ∧
    ∀ r' s₁', c'.run n s' = some (r', s₁') →
      ∃ r s₁, c.Ends s r s₁ ∧ Both R r r' ∧ s₁.Alike ρ s₁'

/-! ### Composition -/

section Sim

variable {c : Comp α} {c' : Comp β}

/-- Two computations that end at once. -/
theorem Sim.ends
    (h : ∀ s s', s.Alike ρ s' → ∃ r r' s₁ s₁', c.Ends s r s₁ ∧ c'.Ends s' r' s₁' ∧
      Both R r r' ∧ s₁.Alike ρ s₁') : Sim n ρ R c c' := by
  intro s s' hs
  obtain ⟨r, r', s₁, s₁', hc, hc', hr, hs₁⟩ := h s s' hs
  refine ⟨fun q t ht => ?_, fun q t ht => ?_⟩
  · obtain ⟨rfl, rfl⟩ := hc.unique ⟨n, ht⟩
    exact ⟨r', s₁', hc', hr, hs₁⟩
  · obtain ⟨rfl, rfl⟩ := hc'.unique ⟨n, ht⟩
    exact ⟨r, s₁, hc, hr, hs₁⟩

theorem Sim.done {r : Except Error α} {r' : Except Error β} (h : Both R r r') :
    Sim n ρ R (Comp.done r) (Comp.done r') :=
  .ends fun s s' hs => ⟨r, r', s, s', ends_done.mpr ⟨rfl, rfl⟩, ends_done.mpr ⟨rfl, rfl⟩, h, hs⟩

theorem Sim.pure {a : α} {b : β} (h : R a b) : Sim n ρ R (Pure.pure a) (Pure.pure b) :=
  .done (.ok h)

theorem Sim.fail (e : Error) : Sim n ρ R (Comp.fail e) (Comp.fail e) := .done (.error e)

theorem Sim.refuse (e : Cause) : Sim n ρ R (Comp.refuse e) (Comp.refuse e) := .done (.error _)

theorem Sim.bind {f : α → Comp γ} {f' : β → Comp δ} (h : Sim n ρ R c c')
    (hf : ∀ a b, R a b → Sim n ρ S (f a) (f' b)) : Sim n ρ S (c >>= f) (c' >>= f') := by
  intro s s' hs
  obtain ⟨hl, hr⟩ := h s s' hs
  refine ⟨fun r s₁ hrun => ?_, fun r' s₁' hrun => ?_⟩
  · rcases runWith_bind_iff.mp hrun with ⟨a, s₂, h₁, h₂⟩ | ⟨e, h₁, rfl⟩
    · obtain ⟨-, s₂', hc', ⟨hab⟩, hs₂⟩ := hl _ s₂ h₁
      obtain ⟨r', s₁', hf', hrr, hs₁⟩ := (hf _ _ hab s₂ s₂' hs₂).1 r s₁ h₂
      exact ⟨r', s₁', hc'.bind hf', hrr, hs₁⟩
    · obtain ⟨-, s₂', hc', ⟨⟩, hs₂⟩ := hl _ s₁ h₁
      exact ⟨_, s₂', hc'.bind_error, .error e, hs₂⟩
  · rcases runWith_bind_iff.mp hrun with ⟨b, s₂', h₁, h₂⟩ | ⟨e, h₁, rfl⟩
    · obtain ⟨-, s₂, hc, ⟨hab⟩, hs₂⟩ := hr _ s₂' h₁
      obtain ⟨r, s₁, hf', hrr, hs₁⟩ := (hf _ _ hab s₂ s₂' hs₂).2 r' s₁' h₂
      exact ⟨r, s₁, hc.bind hf', hrr, hs₁⟩
    · obtain ⟨-, s₂, hc, ⟨⟩, hs₂⟩ := hr _ s₁' h₁
      exact ⟨_, s₂, hc.bind_error, .error e, hs₂⟩

theorem Sim.mapM {P : γ → δ → Prop} {l : List γ} {l' : List δ} (hl : List.Forall₂ P l l')
    {f : γ → Comp α} {f' : δ → Comp β} (hf : ∀ x y, P x y → Sim n ρ R (f x) (f' y)) :
    Sim n ρ (List.Forall₂ R) (l.mapM f) (l'.mapM f') := by
  induction hl with
  | nil => exact .pure .nil
  | cons hxy _ ih =>
    rw [List.mapM_cons, List.mapM_cons]
    exact (hf _ _ hxy).bind fun a b hab => ih.bind fun as bs has => .pure (.cons hab has)

theorem Sim.ofExcept {r : Except Cause α} {r' : Except Cause β} (h : Both R r r') :
    Sim n ρ R (Comp.ofExcept r) (Comp.ofExcept r') := by
  cases h with
  | ok h => exact .pure h
  | error e => exact .refuse e

theorem Sim.ofCell {x : Option α} {y : Option β} (h : Option.Rel R x y) :
    Sim n ρ R (Comp.ofCell x) (Comp.ofCell y) := by
  cases h with
  | none => exact .fail _
  | some h => exact .pure h

theorem Sim.attempt (h : Sim n ρ R c c') : Sim n ρ (Both R) c.attempt c'.attempt := by
  have hends : ∀ {α : Type} {c : Comp α} {s s₁ : Store} {r : Except Error α}, c.Ends s r s₁ →
      c.attempt.Ends s (.ok r) s₁ := by
    rintro α c s s₁ r ⟨m, hm⟩
    exact ⟨m, by rw [run, runWith_attempt, show c.runWith _ s = _ from hm]; rfl⟩
  intro s s' hs
  obtain ⟨hl, hr⟩ := h s s' hs
  refine ⟨fun r s₁ hrun => ?_, fun r' s₁' hrun => ?_⟩
  · rw [run, runWith_attempt] at hrun
    obtain ⟨⟨q, t⟩, hq, he⟩ := Option.map_eq_some_iff.mp hrun
    cases he
    obtain ⟨r', s₁', hc', hrr, hs₁⟩ := hl _ _ hq
    exact ⟨_, s₁', hends hc', .ok hrr, hs₁⟩
  · rw [run, runWith_attempt] at hrun
    obtain ⟨⟨q, t⟩, hq, he⟩ := Option.map_eq_some_iff.mp hrun
    cases he
    obtain ⟨r, s₁, hc, hrr, hs₁⟩ := hr _ _ hq
    exact ⟨_, s₁, hends hc, .ok hrr, hs₁⟩

end Sim

/-- Two actions whose answers are related and which keep stores alike. -/
theorem Sim.perform (a a' : Action) {R : a.Answer → a'.Answer → Prop}
    (h : ∀ s s', s.Alike ρ s' → R (a.perform s).1 (a'.perform s').1 ∧
      (a.perform s).2.Alike ρ (a'.perform s').2) :
    Sim n ρ R (Comp.perform a) (Comp.perform a') :=
  .ends fun s s' hs =>
    ⟨_, _, _, _, perform_ends a s, perform_ends a' s', .ok (h s s' hs).1, (h s s' hs).2⟩

end Comp

/-- Two walks end at alike values, or for want of the same thing. -/
inductive Comp.Walk.Alike (ρ : Link) : Walk → Walk → Prop
  | found {v w : Value} (h : v.Alike ρ w) : Alike ρ (.found v) (.found w)
  | nonSet (t : TypeName) : Alike ρ (.nonSet t) (.nonSet t)
  | missing {l l' : List Value} (h : List.Forall₂ (Value.Alike ρ) l l') :
      Alike ρ (.missing l) (.missing l')

/-- Two sweeps have found alike values and have seen alike containers. -/
def SweptAlike (ρ : Link) (p q : Value × List Container) : Prop :=
  p.1.Alike ρ q.1 ∧ List.Forall₂ (Container.Alike ρ) p.2 q.2

/-- With `n` levels, requests for alike things simulate each other. The entries and the assembly of
a set are asked for by its own construction only, so there the sets themselves are linked. -/
structure Answers (n : Nat) (ρ : Link) : Prop where
  force : ∀ {t t' : Addr .thunk}, t.Alike ρ t' →
    Comp.Sim n ρ (Value.Alike ρ) (Comp.request (.force t)) (Comp.request (.force t'))
  eval : ∀ {env env' : Env} {e e' : Expr}, env.Alike ρ env' → e.Alike ρ e' →
    Comp.Sim n ρ (Value.Alike ρ) (Comp.request (.eval env e)) (Comp.request (.eval env' e'))
  build : ∀ {b b' : Addr .builder}, b.Alike ρ b' →
    Comp.Sim n ρ Eq (Comp.request (.build b)) (Comp.request (.build b'))
  entry : ∀ {b b' : Addr .builder}, b.Alike ρ b' →
    Comp.Sim n ρ Eq (Comp.request (.entry b)) (Comp.request (.entry b'))
  assemble : ∀ {b b' : Addr .builder}, b.Alike ρ b' →
    Comp.Sim n ρ (Addr.Alike ρ) (Comp.request (.assemble b)) (Comp.request (.assemble b'))
  equal : ∀ {l l' r r' : Value}, l.Alike ρ l' → r.Alike ρ r' →
    Comp.Sim n ρ Eq (Comp.request (.equal l r)) (Comp.request (.equal l' r'))
  less : ∀ {l l' r r' : Value}, l.Alike ρ l' → r.Alike ρ r' →
    Comp.Sim n ρ Eq (Comp.request (.less l r)) (Comp.request (.less l' r'))
  spell : ∀ {above above' : List Container} {v v' : Value},
    List.Forall₂ (Container.Alike ρ) above above' → v.Alike ρ v' →
    Comp.Sim n ρ Eq (Comp.request (.spell above v)) (Comp.request (.spell above' v'))
  sweep : ∀ {seen seen' : List Container} {v v' : Value},
    List.Forall₂ (Container.Alike ρ) seen seen' → v.Alike ρ v' →
    Comp.Sim n ρ (SweptAlike ρ) (Comp.request (.sweep seen v)) (Comp.request (.sweep seen' v'))

namespace Comp

variable {n : Nat} {ρ : Link} {env env' : Env} {e e' : Expr} {v v' w w' : Value}

/-! ### Actions -/

theorem Sim.newThunk (henv : env.Alike ρ env') (he : e.Alike ρ e') :
    Sim n ρ (Value.Alike ρ) (Comp.newThunk env e) (Comp.newThunk env' e') := by
  refine (Sim.perform (.newThunk env e) (.newThunk env' e') (R := Addr.Alike ρ)
    fun s s' hs => ?_).bind fun t t' ht => .pure (.thunk ht)
  exact ⟨hs.thunks.next_alike, hs.newThunk henv he⟩

theorem Sim.newList {xs xs' : List Value} (h : List.Forall₂ (Value.Alike ρ) xs xs') :
    Sim n ρ (Value.Alike ρ) (Comp.newList xs) (Comp.newList xs') := by
  refine (Sim.perform (.newList xs) (.newList xs') (R := Addr.Alike ρ)
    fun s s' hs => ?_).bind fun a a' ha => .pure (.list ha)
  exact ⟨hs.lists.next_alike, hs.newList h⟩

theorem Sim.performNewSet {m m' : Attrs Value} (h : m.Alike ρ m') :
    Sim n ρ (Addr.Alike ρ) (Comp.perform (.newSet m)) (Comp.perform (.newSet m')) :=
  .perform (.newSet m) (.newSet m') fun _ _ hs => ⟨hs.sets.next_alike, hs.pushSet h⟩

theorem Sim.newSet {m m' : Attrs Value} (h : m.Alike ρ m') :
    Sim n ρ (Value.Alike ρ) (Comp.newSet m) (Comp.newSet m') :=
  (Sim.performNewSet h).bind fun _ _ ha => .pure (.set ha)

theorem Sim.newBuilder (henv : env.Alike ρ env') {es es' : List Entry}
    (he : List.Forall₂ (EntryOf.Alike ρ) es es') (recursive : Bool) :
    Sim n ρ (Addr.Alike ρ) (Comp.perform (.newBuilder env es recursive))
      (Comp.perform (.newBuilder env' es' recursive)) :=
  .perform (.newBuilder env es recursive) (.newBuilder env' es' recursive) fun _ _ hs =>
    ⟨hs.builders.next_alike, hs.newBuilder henv he recursive⟩

theorem Sim.attrs {a a' : Addr .set} (ha : a.Alike ρ a') :
    Sim n ρ (Attrs.Alike ρ) (Comp.attrs a) (Comp.attrs a') := by
  refine (Sim.perform (.attrs a) (.attrs a') (R := Option.Rel (Attrs.Alike ρ))
    fun s s' hs => ?_).bind fun m m' hm => .ofCell hm
  exact ⟨hs.sets.cell ha, hs⟩

theorem Sim.items {a a' : Addr .list} (ha : a.Alike ρ a') :
    Sim n ρ (List.Forall₂ (Value.Alike ρ)) (Comp.items a) (Comp.items a') := by
  refine (Sim.perform (.list a) (.list a') (R := Option.Rel (List.Forall₂ (Value.Alike ρ)))
    fun s s' hs => ?_).bind fun xs xs' hx => .ofCell hx
  exact ⟨hs.lists.cell ha, hs⟩

theorem Sim.lambda {a a' : Addr .lambda} (ha : a.Alike ρ a') :
    Sim n ρ (Option.Rel (Lambda.Alike ρ)) (Comp.perform (.lambda a))
      (Comp.perform (.lambda a')) :=
  .perform (.lambda a) (.lambda a') fun _ _ hs => ⟨hs.lambdas.cell ha, hs⟩

theorem Sim.builder {b b' : Addr .builder} (hb : b.Alike ρ b') :
    Sim n ρ (Option.Rel (Builder.Alike ρ)) (Comp.perform (.builder b))
      (Comp.perform (.builder b')) :=
  .perform (.builder b) (.builder b') fun _ _ hs => ⟨hs.builders.cell hb, hs⟩

theorem Sim.setSlot {b b' : Addr .builder} (hb : b.Alike ρ b') (k : String) {x x' : Slot}
    (hx : x.Alike ρ x') (isNew : Bool) :
    Sim n ρ Eq (Comp.perform (.setSlot b k x isNew)) (Comp.perform (.setSlot b' k x' isNew)) :=
  .perform (.setSlot b k x isNew) (.setSlot b' k x' isNew) fun _ _ hs =>
    ⟨rfl, hs.setSlot hb k hx isNew⟩

theorem Sim.record {x x' : Event} (hx : x.Alike ρ x') :
    Sim n ρ Eq (Comp.perform (.record x)) (Comp.perform (.record x')) :=
  .perform (.record x) (.record x') fun _ _ hs => ⟨rfl, hs.record hx⟩

theorem Sim.scriptDir (henv : env.Alike ρ env') :
    Sim n ρ Eq (Comp.perform (.scriptDir env)) (Comp.perform (.scriptDir env')) :=
  .perform (.scriptDir env) (.scriptDir env') fun _ _ hs => ⟨hs.scriptDir henv, hs⟩

end Comp

end NixKernel
