import NixKernel.Proofs.Fair

/-!
Expressions of one kind. Whatever runs in a store whose expressions all have a property, and is
asked only about such expressions, leaves a store of the same kind. This holds of errors that are
passed over too, so it holds of all programs.
-/

namespace NixKernel

variable {α : Type} {s s' : Store} {P : Expr → Prop}

/-- Anything that brings in only expressions with a property. -/
def Rules.within (P : Expr → Prop) : Rules where
  holds s := s.All P
  act _ a := a.Brings P
  ask _ q := q.Brings P
  catches := True

theorem Rules.within_permits (hP : Expr.Hereditary P) : (Rules.within P).Permits P where
  toHereditary := hP
  act _ ha := ha.brings
  ask _ hq := hq.brings
  lambda hs hf := hs.lambda hf
  orElse _ := trivial

/-- A set may be built if its entries may be taken up and it may be assembled. -/
theorem Comp.build_fairly {R : Rules} {b : Addr .builder}
    (hread : ∀ s, R.holds s → R.act s (.builder b)) (hentry : ∀ s, R.holds s → R.ask s (.entry b))
    (hassemble : ∀ s, R.holds s → R.ask s (.assemble b)) : Fairly R (Comp.build b) := by
  have htake : ∀ n, Fairly R (Comp.takeEntries b n) := by
    intro n
    induction n with
    | zero => exact .pure ()
    | succ n ih =>
      refine (Fairly.request hentry).bind fun x => ?_
      cases x with
      | true => exact ih
      | false => exact .pure ()
  refine (Fairly.perform hread).bind fun c => ?_
  cases c with
  | none => exact .pure ()
  | some c =>
    dsimp only
    split
    · exact .fail _
    · exact .pure ()
    · refine (htake _).bind fun _ => (Fairly.perform hread).bind fun c' => ?_
      split
      · exact (Fairly.request hassemble).bind fun _ => .pure ()
      · exact .pure ()

/-- The computation of a request brings in only what is in the store already. -/
theorem Request.Brings.start {q : Request} {c : Comp q.Answer} (hq : q.Brings P)
    (hP : Expr.Hereditary P) (h : s.All P) (hs : q.start s = .run c s') :
    c.Fair (.within P) s' := by
  have hR := Rules.within_permits hP
  have hs' := h.start hs
  have hplain : q.Plain P → (∀ b, q ≠ .build b) → c.Fair (.within P) s' := fun hq hb =>
    hR.start hq hb (fun t env body _ ht => h.thunk ht) hs s' hs'
  cases q with
  | build b =>
    cases hs
    exact Comp.build_fairly (fun _ _ => trivial) (fun _ _ => trivial) (fun _ _ => trivial) s hs'
  | entry b =>
    obtain ⟨d, e, hb, he, rfl, -⟩ := Store.startEntry_run hs
    have hmem : e ∈ d.entries.toList := Array.mem_toList_iff.mpr (Array.mem_of_getElem? he)
    exact ((hR.define (fun _ _ hx => hx) (fun hs hx => hs.known hx) d.env
      (h.entries hb e hmem)).bind fun _ => .pure true) s' hs'
  | assemble b =>
    cases hs
    exact hR.assemble hs' fun c hc => hs'.slots hc
  | eval env e => exact hplain hq fun b h => by cases h
  | _ => exact hplain trivial fun b h => by cases h

/-- **Expressions stay of one kind** in every run. -/
theorem Store.All.run {n : Nat} {q : Request} {r : Except Error q.Answer} (h : s.All P)
    (hP : Expr.Hereditary P) (hq : q.Brings P) (hr : q.run n s = some (r, s')) : s'.All P := by
  induction n generalizing q s s' with
  | zero => cases hr
  | succ n ih =>
    rcases Request.run_succ_cases hr with hstart | ⟨c, s₁, s₂, hstart, h₂, rfl⟩
    · rwa [Request.start_answer hstart]
    · have hall : s₂.All P := (hq.start hP h hstart).stays (fun hs ha => All.perform hs ha)
        (fun hs hq hr => ih hs hq hr) (h.start hstart) h₂
      exact hall.finish q r

theorem Store.All.ends {q : Request} {r : Except Error q.Answer} (h : s.All P)
    (hP : Expr.Hereditary P) (hq : q.Brings P) (hr : q.Ends s r s') : s'.All P := by
  obtain ⟨n, hn⟩ := hr
  exact h.run hP hq hn

theorem Comp.Fair.all {c : Comp α} {r : Except Error α} (hc : c.Fair (.within P) s)
    (hP : Expr.Hereditary P) (h : s.All P) (hr : c.Ends s r s') : s'.All P := by
  obtain ⟨n, hn⟩ := hr
  exact hc.stays (fun hs ha => Store.All.perform hs ha)
    (fun hs hq hr => Store.All.run hs hP hq hr) h hn

end NixKernel
