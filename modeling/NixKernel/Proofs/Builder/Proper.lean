import NixKernel.Proofs.Builder.Frames

/-!
Proper sets under construction. If no expression goes on after an error, then no set has both a
finished set and an error, and its names in order are the names of its slots.
-/

namespace NixKernel

variable {α : Type} {s s' : Store} {b : Addr .builder}

/-- The names go together with the slots, and no more than one thing has come of the set. -/
structure Builder.Proper (d : Builder) : Prop extends d.Ordered where
  apart : d.set = none ∨ d.err = none

namespace Builder

variable {d : Builder}

/-- A set that is under way or has failed has not been finished. -/
theorem Proper.set_eq_none (h : d.Proper)
    (hd : d.outcome = .underway ∨ ∃ e, d.outcome = .failed e) : d.set = none := by
  rcases hd with hd | ⟨e, hd⟩
  · exact (outcome_eq_underway.mp hd).2
  · exact h.apart.resolve_right fun herr => by cases herr.symm.trans (outcome_eq_failed.mp hd)

theorem Proper.leave_none (h : d.Proper) : (d.leave none).Proper :=
  ⟨h.toOrdered.keeps (d.keeps_leave none), h.apart⟩

theorem Proper.leave_ok (h : d.Proper) (hd : d.outcome = .underway) (a : Addr .set) :
    (d.leave (some (.ok a))).Proper :=
  ⟨h.toOrdered.keeps (d.keeps_leave _), .inr (outcome_eq_underway.mp hd).1⟩

theorem Proper.leave_error (h : d.Proper) {e : Error}
    (hd : d.outcome = .underway ∨ ∃ x, d.outcome = .failed x) :
    (d.leave (some (.error e))).Proper :=
  ⟨h.toOrdered.keeps (d.keeps_leave _), .inl (h.set_eq_none hd)⟩

end Builder

/-- A set under construction, if it is there, is proper. -/
def Store.ProperAt (s : Store) (b : Addr .builder) : Prop :=
  ∀ d, s.builders.get? b = some d → d.Proper

/-- A new set under construction is proper. -/
theorem Store.properAt_newBuilder (s : Store) (env : Env) (entries : List Entry)
    (recursive : Bool) : (s.newBuilder env entries recursive).2.ProperAt s.builders.next := by
  intro d hb
  cases (Heap.get?_push_next _ _).symm.trans hb
  exact ⟨⟨rfl, List.nodup_nil⟩, .inl rfl⟩

namespace Store.ProperAt

theorem perform (h : s.ProperAt b) {a : Action}
    (ha : ∀ name x isNew, a = .setSlot b name x isNew → isNew = (s.known b name).isNone) :
    (a.perform s).2.ProperAt b := by
  intro d hb
  refine ⟨OrderedAt.perform (fun d hb => (h d hb).toOrdered) ha d hb, ?_⟩
  cases a with
  | newBuilder env entries recursive =>
    simp only [Action.perform, newBuilder, Heap.get?_push] at hb
    split at hb
    · cases hb
      exact .inl rfl
    · exact (h d hb).apart
  | setSlot b' name x isNew =>
    obtain ⟨d₀, hb₀, rfl⟩ := builder_setSlot hb
    split <;> exact ((h d₀ hb₀).apart :)
  | _ => exact (h d hb).apart

theorem start (h : s.ProperAt b) {q : Request} {c : Comp q.Answer} (hq : q.start s = .run c s') :
    s'.ProperAt b := by
  obtain ⟨f, hf, hcell⟩ := Request.start_cells hq
  intro d hb
  obtain ⟨d₀, hb₀, rfl⟩ := Option.map_eq_some_iff.mp ((hf b).symm.trans hb)
  obtain ⟨hkeeps, ⟨hset, herr⟩, -⟩ := hcell b d₀
  exact ⟨(h d₀ hb₀).toOrdered.keeps hkeeps, hset ▸ herr ▸ (h d₀ hb₀).apart⟩

/-- An entry or the assembly of a set has ended, which was under way all the time until it may have
failed. -/
theorem leave {out : Option (Except Error (Addr .set))} {b' : Addr .builder} (h : s.ProperAt b)
    (hb : ∀ d, b' = b → s.builders.get? b = some d → d.Proper → (d.leave out).Proper) :
    (s.finishBuilder b' out).ProperAt b := by
  intro d hd
  rw [finishBuilder, Heap.get?_modify] at hd
  split at hd
  · obtain ⟨d₀, hd₀, rfl⟩ := Option.map_eq_some_iff.mp hd
    exact hb d₀ ‹_› hd₀ (h d₀ hd₀)
  · exact h d hd

/-- The end of a request that was due when it was started. -/
theorem finish {s₁ s₂ : Store} {q : Request} {c : Comp q.Answer} {r : Except Error q.Answer}
    (hl : q.Legal s) (hq : q.start s = .run c s₁) (ht : s₁.Turn (failure? r) s₂)
    (h : s₂.ProperAt b) : (q.finish r s₂).ProperAt b := by
  cases q with
  | force t =>
    intro d hb
    rw [Request.finish, s₂.builders_finishForce t r] at hb
    exact h d hb
  | entry b' =>
    cases r with
    | ok x => exact h.leave fun d _ _ hd => hd.leave_none
    | error e =>
      refine h.leave fun d hbb hb hd => hd.leave_error ?_
      exact (hl.inside hq (.inl (hbb ▸ rfl)) ht hb).imp_right (.imp fun _ => And.right)
  | assemble b' =>
    refine h.leave fun d hbb hb hd => ?_
    have hopen := hl.inside hq (.inr (hbb ▸ rfl)) ht hb
    cases r with
    | ok a => exact hd.leave_ok (hopen.resolve_right (by rintro ⟨e, he, -⟩; cases he)) a
    | error e => exact hd.leave_error (hopen.imp_right (.imp fun _ => And.right))
  | _ => exact h

end Store.ProperAt

/-- **Sets stay proper** in every request that is due. -/
theorem Request.Legal.proper {q : Request} {r : Except Error q.Answer} (h : q.Legal s)
    (hr : q.Ends s r s') (hs : s.ProperAt b) : s'.ProperAt b := by
  refine Request.Legal.law (T := fun _ s _ s' => s.ProperAt b → s'.ProperAt b)
    (U := fun s _ s' => s.ProperAt b → s'.ProperAt b) (fun _ _ h => h) (fun _ _ _ h => h)
    (fun h h' hs => h' (h hs)) (fun _ ha hs => hs.perform fun name x isNew hx => ?_)
    (fun _ _ _ h => h) (fun hl hq _ ht h hs => .finish hl hq ht (h (hs.start hq))) h hr hs
  rcases Rules.frame_act ha with hp | ⟨b', name', x', isNew', -, hx', ho, -⟩
  · rw [hx] at hp
    exact hp.elim
  · rw [hx] at hx'
    cases hx'
    exact ho.isNew

/-- Sets stay proper in whatever asks only for what is due. -/
theorem Comp.Fair.proper {R : Rules} {c : Comp α} {r : Except Error α}
    (act : ∀ {s a}, R.holds s → R.act s a → R.holds (a.perform s).2 ∧
      ∀ b name x isNew, a = .setSlot b name x isNew → isNew = (s.known b name).isNone)
    (ask : ∀ {s s' : Store} {q : Request} {r : Except Error q.Answer}, R.holds s → R.ask s q →
      q.Ends s r s' → q.Legal s ∧ (failure? r = none ∨ R.catches → R.holds s'))
    (hc : c.Fair R s) (hs : R.holds s) (hr : c.Ends s r s') (hb : s.ProperAt b) :
    s'.ProperAt b := by
  obtain ⟨n, hn⟩ := hr
  refine Comp.Fair.law (T := fun s _ s' => s.ProperAt b → s'.ProperAt b) (fun _ _ h => h)
    (fun h h' hs => h' (h hs)) (fun _ _ _ _ h => h) (fun hs ha => ?_) (fun hs hq hr => ?_) hc hs
    hn hb
  · obtain ⟨hs', hset⟩ := act hs ha
    exact ⟨fun hb => hb.perform (hset b), hs'⟩
  · obtain ⟨hlegal, hs'⟩ := ask hs hq ⟨n, hr⟩
    exact ⟨fun hb => hlegal.proper ⟨n, hr⟩ hb, hs'⟩

end NixKernel
