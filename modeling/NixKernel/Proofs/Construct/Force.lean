import NixKernel.Proofs.Construct.Definition
import NixKernel.Proofs.Later

/-!
Forcing what is known. A value that is no thunk, or a forced one, is forced without any effect; an
unforced thunk of a literal comes to the value of the literal, and leaves nothing behind but that
value and a note in the journal. Whatever else is run, a thunk of a literal comes to no other value.
-/

namespace NixKernel

namespace Store

variable {s : Store}

theorem forced?_of_resolve {t : Addr .thunk} {w : Value} (h : s.resolve (.thunk t) = w)
    (hw : w.isWhnf) : s.thunks.get? t = some (.forced w) := by
  rw [resolve_thunk] at h
  cases ht : s.forced? t with
  | none => rw [ht] at h; subst h; cases hw
  | some v => rw [ht] at h; subst h; exact forced?_eq_some.mp ht

/-- The store after a thunk has come to a value without any other effect. -/
def settle (s : Store) (t : Addr .thunk) (w : Value) : Store :=
  { s with thunks := s.thunks.modify t fun _ => .forced w, journal := .force t :: s.journal }

/-- A thunk that is started and finished without any effect in between is settled. -/
theorem finishForce_start {t : Addr .thunk} {env : Env} {e : Expr} (w : Value)
    (ht : s.thunks.get? t = some (.unforced env e)) :
    (((s.enter env).setThunk t (.forcing env e)).record (.force t)).finishForce t (.ok w) =
      s.settle t w := by
  have hthunks : (s.enter env).thunks = s.thunks := by rw [enter, changeDepth_eq]
  have hcell : (((s.enter env).setThunk t (.forcing env e)).record (.force t)).thunks.get? t =
      some (.forcing env e) := by
    rw [record, setThunk, hthunks, Heap.get?_modify_self ht]
  have hthreads := threads_leave (((s.enter env).setThunk t (.forcing env e)).record (.force t))
    env (s := s) rfl
  rw [finishForce, hcell]
  dsimp only
  rw [leave, changeDepth_eq, ← leave, hthreads, setThunk, settle]
  simp only [record, setThunk]
  rw [enter, changeDepth_eq, ← enter, Heap.modify_modify]
  rfl

end Store

namespace Comp

variable {s : Store}

theorem eval_literal (env : Env) (v : Value) : (eval env (.lit v)).Ends s (.ok v) s := by
  rw [eval, ends_request, Request.ends_run rfl]
  exact ⟨s, ends_pure.mpr ⟨rfl, rfl⟩, rfl⟩

/-- Forcing what is known has no effect. -/
theorem force_known {v w : Value} (h : s.resolve v = w) (hw : w.isWhnf) :
    (force v).Ends s (.ok w) s :=
  Store.Forced.ends ⟨h, fun _ ht => Store.forced?_of_resolve (ht ▸ h) hw⟩

/-- An unforced thunk of a literal comes to the value of the literal. -/
theorem force_literal {t : Addr .thunk} {env : Env} {e : Expr} {w : Value}
    (ht : s.thunks.get? t = some (.unforced env e)) (hl : s.atLimit env = false)
    (he : s.literal? e = some w) : (force (.thunk t)).Ends s (.ok w) (s.settle t w) := by
  obtain ⟨v, rfl, hv, hw⟩ := Store.literal?_eq_some.mp he
  have hstart : (Request.force t).start s = .run (do Comp.force (← Comp.eval env (.lit v)))
      (((s.enter env).setThunk t (.forcing env (.lit v))).record (.force t)) := by
    simp only [Request.start, Store.startForce, ht, hl]
    rfl
  rw [force, ends_request, Request.ends_run hstart]
  refine ⟨_, (eval_literal env v).bind (force_known ?_ hw), (Store.finishForce_start w ht).symm⟩
  -- the literal is not the thunk itself, which is being forced
  cases v with
  | thunk t' =>
    have hf := Store.forced?_of_resolve hv hw
    rw [Store.resolve_thunk, Store.forced?_eq_some.mpr]
    · rfl
    · have hne : t ≠ t' := by rintro rfl; rw [ht] at hf; cases hf
      rw [Store.record, Store.setThunk, Heap.get?_modify, if_neg hne, Store.enter,
        Store.changeDepth_eq]
      exact hf
  | _ => exact hv

/-- At the limit no unforced thunk is started. -/
theorem force_at_limit {t : Addr .thunk} {env : Env} {e : Expr}
    (ht : s.thunks.get? t = some (.unforced env e)) (hl : s.atLimit env = true) :
    (force (.thunk t)).Ends s (.error (.eval .depthLimit)) s := by
  have hstart : (Request.force t).start s = .answer (.error (.eval .depthLimit)) s := by
    simp only [Request.start, Store.startForce, ht, hl]
    rfl
  rw [force, ends_request, Request.ends_answer hstart]
  exact ⟨rfl, rfl⟩

end Comp

/-! ### Thunks of literals in any run -/

namespace Store

variable {s s' s'' : Store}

theorem Later.literal? (h : s.Later s') {e : Expr} {w : Value} (he : s.literal? e = some w) :
    s'.literal? e = some w := by
  obtain ⟨v, rfl, hv, hw⟩ := literal?_eq_some.mp he
  refine literal?_eq_some.mpr ⟨v, rfl, (h.resolve fun t ht => ⟨w, ?_⟩).trans hv, hw⟩
  subst ht
  exact forced?_of_resolve hv hw

/-- A later store in which the thunks of literals have come to nothing but the values of their
literals. -/
structure Ripens (s s' : Store) : Prop where
  later : s.Later s'
  literal : ∀ {t env e w v}, s.thunks.get? t = some (.unforced env e) → s.literal? e = some w →
    s'.thunks.get? t = some (.forced v) → v = w

theorem Ripens.trans (h : s.Ripens s') (h' : s'.Ripens s'') : s.Ripens s'' where
  later := h.later.trans h'.later
  literal := by
    intro t env e w v ht he hv
    obtain ⟨c, hc, hm⟩ := h.later.thunk ht
    cases hm with
    | stay => exact h'.literal hc (h.later.literal? he) hv
    | forced _ _ u =>
      rw [h'.later.forced hc] at hv
      cases hv
      exact h.literal ht he hc

/-- The body of a literal ends with the value of the literal. -/
theorem eq_of_force_eval {env : Env} {e : Expr} {v w : Value} (he : s.literal? e = some w)
    (h : (do Comp.force (← Comp.eval env e)).Ends s (.ok v) s') : v = w := by
  obtain ⟨u, rfl, hu, hw⟩ := literal?_eq_some.mp he
  have hl := (Comp.eval_literal env u).bind (Comp.force_known hu hw)
  cases (h.unique hl).1
  rfl

theorem Ripens.finishForce {t : Addr .thunk} {c : Comp Value} {r : Except Error Value}
    (hs : s.startForce t = .run c s') (hc : c.Ends s' r s'') (h : s'.Ripens s'') :
    s.Ripens (s''.finishForce t r) := by
  refine ⟨h.later.finishForce hs, fun {t' env' e w v} ht' he hv => ?_⟩
  obtain ⟨env, body, ht, -, rfl, hs'⟩ := startForce_run hs
  -- what is known when the body is started is known while it runs
  have hthunks : ∀ {t'}, t ≠ t' → s'.thunks.get? t' = s.thunks.get? t' := by
    intro t' hne
    rw [hs', enter, changeDepth_eq]
    simp only [record, setThunk, Heap.get?_modify, if_neg hne]
  have he' : s'.literal? e = some w := by
    obtain ⟨u, rfl, hu, hw⟩ := literal?_eq_some.mp he
    refine literal?_eq_some.mpr ⟨u, rfl, ?_, hw⟩
    cases u with
    | thunk t₁ =>
      have hf := forced?_of_resolve hu hw
      have hne : t ≠ t₁ := by rintro rfl; rw [ht] at hf; cases hf
      rw [resolve_thunk, forced?_eq_some.mpr ((hthunks hne).trans hf)]
      rfl
    | _ => exact hu
  have hcell : s''.thunks.get? t = some (.forcing env body) := by
    refine h.later.forcing ?_
    rw [hs', enter, changeDepth_eq]
    simp only [record, setThunk, Heap.get?_modify, if_true, ht, Option.map_some]
  rw [finishForce_eq hcell, leave, changeDepth_eq] at hv
  simp only [setThunk, Heap.get?_modify] at hv
  by_cases hne : t = t'
  · subst hne
    rw [ht] at ht'
    cases ht'
    cases r with
    | ok u =>
      rw [if_pos rfl, hcell] at hv
      cases hv
      exact eq_of_force_eval he' hc
    | error e =>
      rw [if_pos rfl, hcell] at hv
      cases hv
  · rw [if_neg hne] at hv
    exact h.literal ((hthunks hne).trans ht') he' hv

/-- In every run a thunk of a literal comes to no other value than the literal's. -/
theorem ripens_law : RunLaw Ripens where
  refl s := ⟨.refl s, fun ht _ hv => by rw [ht] at hv; cases hv⟩
  trans := .trans
  act a s := ⟨.perform a s, fun ht _ hv => by
    rw [get?_thunks_perform a ht] at hv
    cases hv⟩
  run := by
    intro q s s₁ s₂ c r hq hc h
    cases q with
    | force t => exact h.finishForce hq hc
    | entry b =>
      obtain ⟨d, e, -, -, -, rfl⟩ := startEntry_run hq
      cases r <;> exact ⟨later_law.run (q := .entry b) hq hc h.later, h.literal⟩
    | assemble b =>
      cases hq
      cases r <;> exact ⟨{ h.later with }, h.literal⟩
    | _ => cases hq; exact h

end Store

end NixKernel
