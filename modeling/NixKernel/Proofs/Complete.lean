import NixKernel.Proofs.Datum
import NixKernel.Proofs.Forcing

/-!
Full evaluation leaves nothing behind. What a sweep has visited is closed, so whatever can be
reached from a value that has been swept is known: however the values share their parts, and
whatever cycles there are, no thunk among them is left to be forced. So a second sweep finds
everything as it is and runs nothing.
-/

namespace NixKernel

variable {s : Store} {seen : List Container} {v x : Value}

/-! ### What can be reached -/

namespace Store

/-- One value can be reached from another: through the elements of lists, the attributes of sets and
the values that thunks have been forced to. -/
inductive Reaches (s : Store) (v : Value) : Value → Prop
  | here : Reaches s v v
  | element {a : Addr .list} {xs : List Value} {x : Value} (h : Reaches s v (.list a))
      (cell : s.lists.get? a = some xs) (mem : x ∈ xs) : Reaches s v x
  | attr {a : Addr .set} {m : Attrs Value} {name : String} {x : Value}
      (h : Reaches s v (.set a)) (cell : s.sets.get? a = some m)
      (bound : m.get? name = some x) : Reaches s v x
  | memo {t : Addr .thunk} {x : Value} (h : Reaches s v (.thunk t))
      (cell : s.thunks.get? t = some (.forced x)) : Reaches s v x

/-- What is inside a container that is known is known. -/
theorem Known.part {c : Container} {xs : List Value} (hv : s.Known seen v)
    (hc : (s.resolve v).container? = some c) (hclosed : ∀ c ∈ seen, s.Closed seen c)
    (hxs : s.parts? c = some xs) (hx : x ∈ xs) : s.Known seen x := by
  obtain ⟨ys, hys, hall⟩ := hclosed c (hv.seen c hc)
  cases hys.symm.trans hxs
  exact hall x hx

/-- **What can be reached from a known value is known**, if what has been seen is closed. -/
theorem Reaches.known (h : s.Reaches v x) (hflat : s.Flat) (hv : s.Known seen v)
    (hclosed : ∀ c ∈ seen, s.Closed seen c) : s.Known seen x := by
  induction h with
  | here => exact hv
  | element _ cell mem ih => exact ih.part rfl hclosed cell mem
  | attr _ cell bound ih =>
    exact ih.part rfl hclosed (parts?_set cell) (List.mem_map_of_mem (Attrs.get?_eq_some.mp bound))
  | @memo t x _ cell ih =>
    -- the value of a thunk is no thunk, so it is what the thunk stands for
    have hx := hflat t x cell
    refine ⟨fun t' ht' => ?_, fun c hc => ?_⟩
    · subst ht'
      cases hx
    · rw [(Forced.self hx).resolve, ← (forced_thunk cell).resolve] at hc
      exact ih.seen c hc

end Store

/-! ### Sweeping again -/

/-- Where everything is known there is nothing left to do. -/
theorem Comp.deepForce_closed (hv : s.Known seen v) (hclosed : ∀ c ∈ seen, s.Closed seen c) :
    (Comp.deepForce v).Ends s (.ok (s.resolve v)) s := by
  have hspell := spell_known s.within_view (fun c hc => .inr (hclosed c hc)) hv
  obtain ⟨n, hn⟩ := hspell
  obtain ⟨r, hr, hsame⟩ := (spell_meets n (.nil s) v).1 _ _ hn
  obtain ⟨⟨w, seen'⟩, rfl⟩ := failure?_eq_none hsame
  obtain ⟨m, hm⟩ := ends_request.mp hr
  obtain ⟨-, -, rfl⟩ := sweep_visited m hm
  exact hr.bind (ends_pure.mpr ⟨rfl, rfl⟩)

/-- **Full evaluation is complete.** In a store where no thunk has a thunk for its value, which all
stores are that can come about, a full evaluation that succeeds answers what its value has been
forced to, and this is no thunk. Every thunk that can be reached then has been forced. From there on
another full evaluation of the value gives the same answer and has no effect, so that it runs
nothing. -/
theorem deepForce_complete {s s' : Store} {v w : Value} (hflat : s.Flat)
    (h : (Comp.deepForce v).Ends s (.ok w) s') :
    s'.Forced v w ∧ w.isWhnf = true ∧
    (∀ t, s'.Reaches v (.thunk t) → ∃ x, s'.thunks.get? t = some (.forced x)) ∧
    (Comp.deepForce v).Stays w s' := by
  obtain ⟨hw, seen, hknown, hclosed⟩ := Comp.deepForce_known h
  have hflat' := Store.flat_law.ends h hflat
  have hforced : s'.Forced v w := hw ▸ hknown.forcedTo
  refine ⟨hforced, hforced.isWhnf hflat', fun t ht => ?_, fun s'' hs => ?_⟩
  · exact (ht.known hflat' hknown hclosed).forced t rfl
  · have hsub := List.Subset.refl seen
    have hknown' := hknown.mono hs hsub
    have hagain := Comp.deepForce_closed hknown' fun c hc => (hclosed c hc).mono hs hsub
    rwa [(hforced.mono hs).resolve] at hagain

/-- The list `[ x x builtins ]`, where `x` is a thunk for the list `[ builtins ]` and `builtins`
holds itself: after it has been evaluated the thunk is forced, and to evaluate it again has no
effect. -/
theorem deepForce_complete_cyclic : ∃ s s' : Store, s.Reachable ∧
    s.thunks.get? ⟨0⟩ = some (.unforced .empty (.eagerList [.lit (.set .builtins)])) ∧
    (Comp.deepForce (.list ⟨1⟩)).Ends s (.ok (.list ⟨1⟩)) s' ∧
    (∃ x, s'.thunks.get? ⟨0⟩ = some (.forced x)) ∧
    (Comp.deepForce (.list ⟨1⟩)).Ends s' (.ok (.list ⟨1⟩)) s' := by
  obtain ⟨s, hs⟩ : ∃ s : Store, s = ((Store.initial.newThunk .empty
    (.eagerList [.lit (.set .builtins)])).2.newList
      [.thunk ⟨0⟩, .thunk ⟨0⟩, .set .builtins]).2 := ⟨_, rfl⟩
  have hreachable : s.Reachable := by
    rw [hs]
    exact Store.Reachable.step (Store.Reachable.step (.refl _)
      (.run (Comp.perform_ends (.newThunk _ _) _))) (.run (Comp.perform_ends (.newList _) _))
  have hcell : s.lists.get? ⟨1⟩ = some [.thunk ⟨0⟩, .thunk ⟨0⟩, .set .builtins] := by
    rw [hs]
    rfl
  obtain ⟨s', hend⟩ : ∃ s', (Comp.deepForce (.list ⟨1⟩)).run 5 s = some (.ok (.list ⟨1⟩), s') := by
    rw [hs]
    exact ⟨_, rfl⟩
  have hdeep : (Comp.deepForce (.list ⟨1⟩)).Ends s (.ok (.list ⟨1⟩)) s' := ⟨5, hend⟩
  obtain ⟨-, -, hthunks, hagain⟩ := deepForce_complete hreachable.flat hdeep
  have hlater := Store.later_law.ends hdeep
  refine ⟨s, s', hreachable, by rw [hs]; rfl, hdeep, hthunks ⟨0⟩ ?_, hagain.ends⟩
  exact .element .here (hlater.list hcell) List.mem_cons_self

end NixKernel
