import NixKernel.Proofs.Alike.Expr

/-!
Runs do not depend on addresses. Requests for alike things start and finish alike, so with any
number of levels they simulate each other; whatever is computed from alike data in alike stores
comes to alike ends.
-/

namespace NixKernel

namespace Comp

variable {n : Nat} {ρ : Link} {q q' : Request} {R : q.Answer → q'.Answer → Prop}

/-- How two requests start in alike stores: with answers, or with computations that simulate each
other and leave stores that are finished alike. -/
inductive Starts (n : Nat) (ρ : Link) (R : q.Answer → q'.Answer → Prop) (s s' : Store) : Prop
  | answer (r : Except Error q.Answer) (r' : Except Error q'.Answer)
      (left : q.start s = .answer r s) (right : q'.start s' = .answer r' s') (both : Both R r r')
  | run (c : Comp q.Answer) (c' : Comp q'.Answer) (s₁ s₁' : Store) (left : q.start s = .run c s₁)
      (right : q'.start s' = .run c' s₁') (alike : s₁.Alike ρ s₁') (sim : Sim n ρ R c c')
      (finish : ∀ {r r' s₂ s₂'}, Both R r r' → s₂.Alike ρ s₂' →
        (q.finish r s₂).Alike ρ (q'.finish r' s₂'))

/-- Requests that start alike simulate each other with one more level. -/
theorem Sim.request (q q' : Request) {R : q.Answer → q'.Answer → Prop}
    (h : ∀ s s', s.Alike ρ s' → Starts n ρ R s s') :
    Sim (n + 1) ρ R (Comp.request q) (Comp.request q') := by
  intro s s' hs
  simp only [ends_request, run, runWith_request, Request.run_succ]
  cases h s s' hs with
  | answer r r' left right both =>
    rw [left, right]
    refine ⟨fun r s₁ hr => ?_, fun r' s₁' hr => ?_⟩
    · cases hr
      exact ⟨_, s', (Request.ends_answer right).mpr ⟨rfl, rfl⟩, both, hs⟩
    · cases hr
      exact ⟨_, s, (Request.ends_answer left).mpr ⟨rfl, rfl⟩, both, hs⟩
  | run c c' s₁ s₁' left right alike sim finish =>
    rw [left, right]
    obtain ⟨hl, hr⟩ := sim _ _ alike
    refine ⟨fun r s₁ hrun => ?_, fun r' s₁' hrun => ?_⟩
    · obtain ⟨⟨r₂, s₂⟩, h₂, he⟩ := Option.map_eq_some_iff.mp hrun
      cases he
      obtain ⟨r', s₂', hends, hrr, hs₂⟩ := hl _ s₂ h₂
      exact ⟨r', _, (Request.ends_run right).mpr ⟨s₂', hends, rfl⟩, hrr, finish hrr hs₂⟩
    · obtain ⟨⟨r₂, s₂'⟩, h₂, he⟩ := Option.map_eq_some_iff.mp hrun
      cases he
      obtain ⟨r, s₂, hends, hrr, hs₂⟩ := hr _ s₂' h₂
      exact ⟨r, _, (Request.ends_run left).mpr ⟨s₂, hends, rfl⟩, hrr, finish hrr hs₂⟩

/-- Requests that only run a computation. -/
theorem Sim.request_plain (q q' : Request) {R : q.Answer → q'.Answer → Prop}
    {c : Comp q.Answer} {c' : Comp q'.Answer}
    (left : ∀ s, q.start s = .run c s) (right : ∀ s, q'.start s = .run c' s)
    (hl : ∀ r s, q.finish r s = s) (hr : ∀ r s, q'.finish r s = s) (h : Sim n ρ R c c') :
    Sim (n + 1) ρ R (Comp.request q) (Comp.request q') := by
  refine .request q q' fun s s' hs => .run c c' s s' (left s) (right s') hs h fun _ h₂ => ?_
  rw [hl, hr]
  exact h₂

end Comp

namespace Store.Alike

variable {ρ : Link} {s s' : Store}

/-- Thunks that are linked are finished alike. -/
theorem finishForce (h : s.Alike ρ s') {t t' : Addr .thunk} (ht : t.Alike ρ t')
    {r r' : Except Error Value} (hr : Both (Value.Alike ρ) r r') :
    (s.finishForce t r).Alike ρ (s'.finishForce t' r') := by
  unfold Store.finishForce
  rcases rel_cases (h.thunks.cell ht) with ⟨hx, hx'⟩ | ⟨c, c', hx, hx', hc⟩
  · rw [hx, hx']
    exact h
  · rw [hx, hx']
    cases hc with
    | unforced | forced => exact h
    | forcing henv he =>
      have hleave := h.changeDepth henv (· - 1)
      cases hr with
      | ok hv => exact hleave.setThunk ht (.forced hv)
      | error e => exact hleave.setThunk ht (.unforced henv he)

end Store.Alike

namespace Answers

open NixKernel.Comp

variable {n : Nat} {ρ : Link} (h : Answers n ρ)

include h

/-- With one more level, thunks that are linked are forced alike. -/
theorem force_succ {t t' : Addr .thunk} (ht : t.Alike ρ t') :
    Sim (n + 1) ρ (Value.Alike ρ) (request (.force t)) (request (.force t')) := by
  refine .request (.force t) (.force t') fun s s' hs => ?_
  -- a missing cell, one that has been or is being forced, and the limit are answered at once
  rcases rel_cases (hs.thunks.cell ht) with ⟨hx, hx'⟩ | ⟨c, c', hx, hx', hc⟩
  · refine .answer (.error .noValue) (.error .noValue) ?_ ?_ (.error _)
    · simp only [Request.start, Store.startForce, hx]
    · simp only [Request.start, Store.startForce, hx']
  · cases hc with
    | @forced v v' hv =>
      refine .answer (.ok v) (.ok v') ?_ ?_ (.ok hv)
      · simp only [Request.start, Store.startForce, hx]
      · simp only [Request.start, Store.startForce, hx']
    | forcing henv he =>
      refine .answer (.error (.eval .cyclicThunk)) (.error (.eval .cyclicThunk))
        ?_ ?_ (.error _)
      · simp only [Request.start, Store.startForce, hx]
      · simp only [Request.start, Store.startForce, hx']
    | @unforced env env' e e' henv he =>
      cases hl : s.atLimit env with
      | true =>
        refine .answer (.error (.eval .depthLimit)) (.error (.eval .depthLimit))
          ?_ ?_ (.error _)
        · simp only [Request.start, Store.startForce, hx, hl, if_true]
        · simp only [Request.start, Store.startForce, hx', ← hs.atLimit henv, hl, if_true]
      | false =>
        -- only an unforced thunk below the limit is run, and with one level less
        refine .run (do Comp.force (← Comp.eval env e))
          (do Comp.force (← Comp.eval env' e'))
          (((s.enter env).setThunk t (.forcing env e)).record (.force t))
          (((s'.enter env').setThunk t' (.forcing env' e')).record (.force t'))
          ?_ ?_ ?_ ?_ fun hr h₂ => h₂.finishForce ht hr
        · simp only [Request.start, Store.startForce, hx, hl]
          rfl
        · simp only [Request.start, Store.startForce, hx', ← hs.atLimit henv, hl]
          rfl
        · exact ((hs.changeDepth henv _).setThunk ht (.forcing henv he)).record (.force ht)
        · exact Sim.bind (h.eval henv he) fun x x' hx => h.forceValue hx

/-- With one more level, sets that are linked take up alike entries. -/
theorem entry_succ {b b' : Addr .builder} (hb : b.Alike ρ b') :
    Sim (n + 1) ρ Eq (request (.entry b)) (request (.entry b')) := by
  refine .request (.entry b) (.entry b') fun s s' hs => ?_
  rcases rel_cases (hs.builders.cell hb) with ⟨hx, hx'⟩ | ⟨c, c', hx, hx', hc⟩
  · refine .answer (.ok false) (.ok false) ?_ ?_ (.ok rfl)
    · simp only [Request.start, Store.startEntry, hx]
    · simp only [Request.start, Store.startEntry, hx']
  · have hentry := getElem?_alike hc.entries c.next
    rw [Array.getElem?_toList, Array.getElem?_toList] at hentry
    -- both sets have come equally far, so either has a next entry or neither
    rcases rel_cases hentry with ⟨hd, hd'⟩ | ⟨d, d', hd, hd', hdd⟩
    · refine .answer (.ok false) (.ok false) ?_ ?_ (.ok rfl)
      · simp only [Request.start, Store.startEntry, hx, hd]
      · simp only [Request.start, Store.startEntry, hx', ← hc.next, hd']
    · refine .run (do Comp.define b c.env d; return true)
        (do Comp.define b' c'.env d'; return true)
        (Store.record { s with builders := s.builders.modify b fun c =>
          { c with next := c.next + 1, active := c.active + 1 } } (.entry b c.next))
        (Store.record { s' with builders := s'.builders.modify b' fun c =>
          { c with next := c.next + 1, active := c.active + 1 } } (.entry b' c'.next))
        ?_ ?_ ?_ ?_ fun hr h₂ => ?_
      · simp only [Request.start, Store.startEntry, hx, hd]
      · rw [hc.next] at hd'
        simp only [Request.start, Store.startEntry, hx', hd']
      · rw [← hc.next]
        refine (hs.modifyBuilder hb fun c c' hc => ?_).record (.entry hb c.next)
        exact { hc with next := congrArg (· + 1) hc.next, active := congrArg (· + 1) hc.active }
      · exact (h.define hb hc.env hdd).bind fun _ _ _ => .pure rfl
      · cases hr with
        | ok _ => exact h₂.finishBuilder hb .none
        | error e => exact h₂.finishBuilder hb (.some (.error e))

/-- With one more level, sets that are linked are assembled alike. -/
theorem assemble_succ {b b' : Addr .builder} (hb : b.Alike ρ b') :
    Sim (n + 1) ρ (Addr.Alike ρ) (request (.assemble b)) (request (.assemble b')) := by
  refine .request (.assemble b) (.assemble b') fun s s' hs =>
    .run _ _ _ _ rfl rfl ?_ (h.assembleSet hb) fun hr h₂ => ?_
  · refine (hs.modifyBuilder hb fun c c' hc => ?_).record (.assemble hb)
    exact { hc with active := congrArg (· + 1) hc.active }
  · exact h₂.finishBuilder hb (.some hr)

end Answers

open NixKernel.Comp in
/-- **Runs do not depend on addresses**: with any number of levels, requests for alike things
simulate each other. -/
theorem answers (ρ : Link) (n : Nat) : Answers n ρ := by
  induction n with
  | zero =>
    -- without levels no request has an outcome
    constructor <;> intros <;> intro s s' hs <;>
      exact ⟨fun _ _ hr => (nomatch hr), fun _ _ hr => (nomatch hr)⟩
  | succ n ih =>
    exact {
      force := ih.force_succ
      entry := ih.entry_succ
      assemble := ih.assemble_succ
      eval := fun {env env' e e'} henv he =>
        .request_plain (.eval env e) (.eval env' e') (fun _ => rfl) (fun _ => rfl)
          (fun _ _ => rfl) (fun _ _ => rfl) (ih.ofExpr henv he)
      build := fun {b b'} hb =>
        .request_plain (.build b) (.build b') (fun _ => rfl) (fun _ => rfl)
          (fun _ _ => rfl) (fun _ _ => rfl) (ih.buildSet hb)
      equal := fun {l l' r r'} hl hr =>
        .request_plain (.equal l r) (.equal l' r') (fun _ => rfl) (fun _ => rfl)
          (fun _ _ => rfl) (fun _ _ => rfl) (ih.equalValues hl hr)
      less := fun {l l' r r'} hl hr =>
        .request_plain (.less l r) (.less l' r') (fun _ => rfl) (fun _ => rfl)
          (fun _ _ => rfl) (fun _ _ => rfl) (ih.lessValues hl hr)
      spell := fun {above above' v v'} ha hv =>
        .request_plain (.spell above v) (.spell above' v') (fun _ => rfl) (fun _ => rfl)
          (fun _ _ => rfl) (fun _ _ => rfl) (ih.spellValue ha hv)
      sweep := fun {seen seen' v v'} hs hv =>
        .request_plain (.sweep seen v) (.sweep seen' v') (fun _ => rfl) (fun _ => rfl)
          (fun _ _ => rfl) (fun _ _ => rfl) (ih.sweepValue hs hv) }

/-! ### Outcomes -/

/-- Two computations come to the same outcomes, each from its own store. -/
def Comp.SameOutcomes {α : Type} (c c' : Comp α) (s s' : Store) : Prop :=
  ∀ r, (∃ s₁, c.Ends s r s₁) ↔ ∃ s₁', c'.Ends s' r s₁'

/-- Computations that simulate each other up to equal answers have the same outcomes. -/
theorem Comp.sameOutcomes {α : Type} {ρ : Link} {c c' : Comp α} (h : ∀ n, Sim n ρ Eq c c')
    {s s' : Store} (hs : s.Alike ρ s') : SameOutcomes c c' s s' := by
  intro r
  constructor
  · rintro ⟨s₁, n, hn⟩
    obtain ⟨r', s₁', hends, hr, -⟩ := (h n s s' hs).1 r s₁ hn
    exact ⟨s₁', hr.eq id ▸ hends⟩
  · rintro ⟨s₁', n, hn⟩
    obtain ⟨r', s₁, hends, hr, -⟩ := (h n s s' hs).2 r s₁' hn
    exact ⟨s₁, hr.eq id ▸ hends⟩

end NixKernel
