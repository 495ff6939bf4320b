import NixKernel.Proofs.Later

/-!
A sweep is complete. It visits each container once, so that sharing and cycles do no harm, and what
it has visited in the end is closed: every value inside a container that it has visited is forced,
and the container that this value stands for has been visited too.
-/

namespace NixKernel

/-! ### The inside of containers -/

/-- The container that a value is. -/
def Value.container? : Value → Option Container
  | .list a => some (.list a)
  | .set a => some (.set a)
  | _ => none

namespace Store

/-- The values inside a container of the store. -/
def parts? (s : Store) : Container → Option (List Value)
  | .list a => s.lists.get? a
  | .set a => (s.sets.get? a).map fun m => m.bindings.map Prod.snd

theorem parts?_set {s : Store} {a : Addr .set} {m : Attrs Value} (h : s.sets.get? a = some m) :
    s.parts? (.set a) = some (m.bindings.map Prod.snd) := by
  rw [parts?, h]
  rfl

theorem Later.parts? {s s' : Store} (h : s.Later s') {c : Container} {xs : List Value}
    (hc : s.parts? c = some xs) : s'.parts? c = some xs := by
  cases c with
  | list a => exact h.list hc
  | set a =>
    obtain ⟨m, hm, rfl⟩ := Option.map_eq_some_iff.mp hc
    rw [Store.parts?, h.set hm]
    rfl

/-! ### What has been visited -/

/-- A value is known: it is forced if it is a thunk, and if it stands for a container, this is one
of those seen. -/
structure Known (s : Store) (seen : List Container) (v : Value) : Prop where
  forced : ∀ t, v = .thunk t → ∃ w, s.thunks.get? t = some (.forced w)
  seen : ∀ c, (s.resolve v).container? = some c → c ∈ seen

theorem Known.mono {s s' : Store} {seen seen' : List Container} {v : Value}
    (h : s.Known seen v) (hs : s.Later s') (hsub : seen ⊆ seen') : s'.Known seen' v where
  forced t ht := by
    obtain ⟨w, hw⟩ := h.forced t ht
    exact ⟨w, hs.forced hw⟩
  seen c hc := hsub (h.seen c (hs.resolve h.forced ▸ hc))

/-- What is inside a container is known. -/
def Closed (s : Store) (seen : List Container) (c : Container) : Prop :=
  ∃ xs, s.parts? c = some xs ∧ ∀ x ∈ xs, s.Known seen x

theorem Closed.mono {s s' : Store} {seen seen' : List Container} {c : Container}
    (h : s.Closed seen c) (hs : s.Later s') (hsub : seen ⊆ seen') : s'.Closed seen' c := by
  obtain ⟨xs, hxs, hx⟩ := h
  exact ⟨xs, hs.parts? hxs, fun x hm => (hx x hm).mono hs hsub⟩

/-- From `s` to `s'` containers have been visited: those in `seen'` that are not in `seen`. -/
structure Visited (s s' : Store) (seen seen' : List Container) : Prop where
  later : s.Later s'
  subset : seen ⊆ seen'
  closed : ∀ c ∈ seen', c ∈ seen ∨ s'.Closed seen' c

section Visited

variable {s s₁ s' : Store} {seen seen₁ seen' : List Container}

theorem Visited.none (h : s.Later s') : Visited s s' seen seen :=
  ⟨h, List.Subset.refl seen, fun _ hc => Or.inl hc⟩

theorem Visited.trans (h : Visited s s₁ seen seen₁) (h' : Visited s₁ s' seen₁ seen') :
    Visited s s' seen seen' where
  later := h.later.trans h'.later
  subset := List.Subset.trans h.subset h'.subset
  closed c hc := by
    rcases h'.closed c hc with hc | hc
    · exact (h.closed c hc).imp_right fun hc => hc.mono h'.later h'.subset
    · exact Or.inr hc

/-- A container is visited by making known what is inside it. -/
theorem Visited.close {c : Container} {xs : List Value} (hs : s.Later s₁)
    (hc : s₁.parts? c = some xs) (h : Visited s₁ s' (c :: seen) seen')
    (hx : ∀ x ∈ xs, s'.Known seen' x) : Visited s s' seen seen' where
  later := hs.trans h.later
  subset := fun _ hd => h.subset (List.mem_cons_of_mem c hd)
  closed d hd := by
    rcases h.closed d hd with hd | hd
    · rcases List.mem_cons.mp hd with rfl | hd
      · exact Or.inr ⟨xs, h.later.parts? hc, hx⟩
      · exact Or.inl hd
    · exact Or.inr hd

end Visited

end Store

/-! ### A sweep that succeeds -/

namespace Comp

open Store

/-- Reads what is inside a container. -/
def partsOf : Container → Comp (List Value)
  | .list a => items a
  | .set a => return (← attrs a).bindings.map Prod.snd

theorem runWith_partsOf_ok {c : Container} {answer : Answerer} {s s' : Store} {xs : List Value} :
    (partsOf c).runWith answer s = some (.ok xs, s') ↔ s.parts? c = some xs ∧ s' = s := by
  cases c with
  | list a => exact runWith_items_ok
  | set a =>
    simp only [partsOf, runWith_bind_ok, runWith_attrs_ok, runWith_pure_ok, Store.parts?,
      Option.map_eq_some_iff]
    constructor
    · rintro ⟨m, s₁, ⟨hm, rfl⟩, rfl, rfl⟩
      exact ⟨⟨m, hm, rfl⟩, rfl⟩
    · rintro ⟨⟨m, hm, rfl⟩, rfl⟩
      exact ⟨m, s', ⟨hm, rfl⟩, rfl, rfl⟩

/-- What a sweep does once the value is forced: it goes into a container that is new. -/
def visit (seen : List Container) (w : Value) : Comp (Value × List Container) :=
  match w.container? with
  | none => pure (w, seen)
  | some c =>
    if c ∈ seen then pure (w, seen)
    else do return (w, ← sweepAll (c :: seen) (← partsOf c))

theorem sweep_eq (seen : List Container) (v : Value) : sweep seen v = force v >>= visit seen := by
  refine congrArg (force v >>= ·) (funext fun w => ?_)
  cases w with
  | list a =>
    simp only [visit, Value.container?]
    split <;> rfl
  | set a =>
    simp only [visit, Value.container?]
    split
    · rfl
    · simp only [partsOf, bind_assoc, pure_bind]
  | _ => rfl

section Run

variable {answer : Answerer} {s s' : Store} {seen seen' : List Container} {v w x : Value}

/-- A visit adds nothing, or it sweeps what is inside a new container. -/
theorem visit_runWith (h : (visit seen w).runWith answer s = some (.ok (x, seen'), s')) :
    x = w ∧ ((seen' = seen ∧ s' = s ∧ ∀ c, w.container? = some c → c ∈ seen) ∨
      ∃ c xs, w.container? = some c ∧ s.parts? c = some xs ∧
        (sweepAll (c :: seen) xs).runWith answer s = some (.ok seen', s')) := by
  unfold visit at h
  split at h
  · rename_i hc
    obtain ⟨hx, rfl⟩ := runWith_pure_ok.mp h
    cases hx
    exact ⟨rfl, Or.inl ⟨rfl, rfl, fun c h' => by rw [hc] at h'; cases h'⟩⟩
  · rename_i c hc
    split at h
    · rename_i hmem
      obtain ⟨hx, rfl⟩ := runWith_pure_ok.mp h
      cases hx
      exact ⟨rfl, Or.inl ⟨rfl, rfl, fun c' h' => by rw [hc] at h'; cases h'; exact hmem⟩⟩
    · obtain ⟨xs, s₁, h₁, h₂⟩ := runWith_bind_ok.mp h
      obtain ⟨hxs, rfl⟩ := runWith_partsOf_ok.mp h₁
      obtain ⟨seen₂, s₂, h₃, h₄⟩ := runWith_bind_ok.mp h₂
      obtain ⟨hx, rfl⟩ := runWith_pure_ok.mp h₄
      cases hx
      exact ⟨rfl, Or.inr ⟨c, xs, hc, hxs, h₃⟩⟩

/-- Sweeping values one after the other makes all of them known. -/
theorem sweepAll_visited (ha : ∀ {seen v w seen'} {s s' : Store},
      answer (.sweep seen v) s = some (.ok (w, seen'), s') →
      Visited s s' seen seen' ∧ s'.Known seen' v) {xs : List Value}
    (h : (sweepAll seen xs).runWith answer s = some (.ok seen', s')) :
    Visited s s' seen seen' ∧ ∀ x ∈ xs, s'.Known seen' x := by
  induction xs generalizing seen s with
  | nil =>
    obtain ⟨rfl, rfl⟩ := runWith_pure_ok.mp h
    exact ⟨.none (.refl _), fun x hx => nomatch hx⟩
  | cons y xs ih =>
    obtain ⟨⟨w, seen₁⟩, s₁, h₁, h₂⟩ := runWith_bind_ok.mp h
    rw [runWith_request] at h₁
    obtain ⟨hv, hy⟩ := ha h₁
    obtain ⟨hv', hxs⟩ := ih h₂
    refine ⟨hv.trans hv', fun x hx => ?_⟩
    rcases List.mem_cons.mp hx with rfl | hx
    · exact hy.mono hv'.later hv'.subset
    · exact hxs x hx

end Run

/-- A sweep that succeeds has made its value known, and all that is inside what it has visited. -/
theorem sweep_visited (n : Nat) {seen seen' : List Container} {v w : Value} {s s' : Store}
    (h : (Request.sweep seen v).run n s = some (.ok (w, seen'), s')) :
    Visited s s' seen seen' ∧ s'.Known seen' v ∧ s'.resolve v = w := by
  induction n generalizing seen seen' v w s s' with
  | zero => cases h
  | succ n ih =>
    obtain ⟨s₂, h₂, rfl⟩ := Request.run_of_start rfl h
    rw [sweep_eq] at h₂
    obtain ⟨w', s₁, h₁, h₂⟩ := runWith_bind_ok.mp h₂
    have hlater : s.Later s₁ := later_law.ends ⟨n, h₁⟩
    obtain ⟨hres, hforced⟩ := force_forced ⟨n, h₁⟩
    obtain ⟨rfl, ⟨rfl, rfl, hseen⟩ | ⟨c, xs, hc, hxs, hall⟩⟩ := visit_runWith h₂
    · exact ⟨.none hlater, ⟨fun t ht => ⟨_, hforced t ht⟩, fun c hc => hseen c (hres ▸ hc)⟩, hres⟩
    · obtain ⟨hv, hx⟩ := sweepAll_visited
        (fun hq => ⟨(ih hq).1, (ih hq).2.1⟩) hall
      have hres' := (hv.later.resolve fun t ht => ⟨_, hforced t ht⟩).trans hres
      refine ⟨hv.close hlater hxs hx, ⟨fun t ht => ⟨_, hv.later.forced (hforced t ht)⟩, ?_⟩, hres'⟩
      intro d (hd : (s'.resolve v).container? = some d)
      rw [hres', hc] at hd
      cases hd
      exact hv.subset List.mem_cons_self

/-- **Full evaluation is complete**: the value is known among containers that are closed. -/
theorem deepForce_known {v w : Value} {s s' : Store} (h : (deepForce v).Ends s (.ok w) s') :
    s'.resolve v = w ∧ ∃ seen, s'.Known seen v ∧ ∀ c ∈ seen, s'.Closed seen c := by
  obtain ⟨⟨w', seen⟩, s₁, ⟨n, h₁⟩, h₂⟩ := ends_bind_ok.mp h
  obtain ⟨hw, rfl⟩ := ends_pure.mp h₂
  cases hw
  rw [run, runWith_request] at h₁
  obtain ⟨hv, hk, hres⟩ := sweep_visited n h₁
  exact ⟨hres, seen, hk, fun c hc => (hv.closed c hc).resolve_left (by simp)⟩

end Comp

end NixKernel
