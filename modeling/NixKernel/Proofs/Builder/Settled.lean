import NixKernel.Proofs.Builder.Calls

/-!
What a construction comes to. When the outermost construction of a set ends, there is a set if it
has succeeded, and an error if it has failed. If no expression goes on after an error, the one rules
out the other: the set is built or has failed. From then on it answers at once, and nothing changes
it any more.
-/

namespace NixKernel

variable {s s' : Store} {b : Addr .builder} {d : Builder}

/-- The answer of a construction that has come to something: its error, if there is one. -/
def Builder.answer (d : Builder) : Except Error Unit :=
  match d.err with
  | some e => .error e
  | none => .ok ()

/-- What is left of a construction that has ended: a set if it has succeeded, else its error. -/
def Builder.Ended (d : Builder) : Except Error Unit → Prop
  | .ok _ => ∃ a, d.set = some a
  | .error e => d.outcome = .failed e

theorem Builder.answer_of_built {a : Addr .set} (h : d.outcome = .built a) : d.answer = .ok () := by
  rw [answer, (outcome_eq_built.mp h).1]

theorem Builder.answer_of_failed {e : Error} (h : d.outcome = .failed e) : d.answer = .error e := by
  rw [answer, outcome_eq_failed.mp h]

/-- An entry that fails makes its set fail. -/
theorem Request.entry_failed {e : Error} (hr : (Request.entry b).Ends s (.error e) s') :
    ∃ d, s'.builders.get? b = some d ∧ d.outcome = .failed e := by
  cases hq : (Request.entry b).start s with
  | answer r s₁ =>
    obtain ⟨he, -⟩ := (Request.ends_answer hq).mp hr
    simp only [Request.start, Store.startEntry] at hq
    split at hq
    · cases hq
      cases he
    · split at hq
      · cases hq
        cases he
      · cases hq
  | run c s₁ =>
    obtain ⟨s₂, h₂, rfl⟩ := (Request.ends_run hq).mp hr
    obtain ⟨d, x, hb, -, -, hs₁⟩ := Store.startEntry_run hq
    have hb₁ : s₁.builders.get? b = some { d with next := d.next + 1, active := d.active + 1 } := by
      rw [hs₁]
      show (s.builders.modify b _).get? b = _
      rw [Heap.get?_modify_self hb]
    obtain ⟨d₂, hb₂, -⟩ := (Store.ages_law.ends h₂).builder hb₁
    exact ⟨_, Heap.get?_modify_self hb₂ _, rfl⟩

/-- The assembly of a set leaves the set or its error. -/
theorem Request.assemble_settles {r : Except Error (Addr .set)} (hb : s.builders.get? b = some d)
    (hr : (Request.assemble b).Ends s r s') : ∃ d', s'.builders.get? b = some d' ∧
      ((∃ a, r = .ok a ∧ d'.set = some a) ∨ ∃ e, r = .error e ∧ d'.outcome = .failed e) := by
  obtain ⟨s₂, h₂, rfl⟩ := (Request.ends_run (q := .assemble b) rfl).mp hr
  have hb₁ : (s.builders.modify b fun c => { c with active := c.active + 1 }).get? b =
      some { d with active := d.active + 1 } :=
    Heap.get?_modify_self hb _
  obtain ⟨d₂, hb₂, -⟩ := (Store.ages_law.ends h₂).builder hb₁
  refine ⟨_, Heap.get?_modify_self hb₂ _, ?_⟩
  cases r with
  | ok a => exact .inl ⟨a, rfl, rfl⟩
  | error e => exact .inr ⟨e, rfl, rfl⟩

/-- Entries are taken up until one fails, and then their set has failed. -/
theorem Comp.takeEntries_failed {n m : Nat} {e : Error}
    (hr : (Comp.takeEntries b m).run n s = some (.error e, s')) :
    ∃ d, s'.builders.get? b = some d ∧ d.outcome = .failed e := by
  induction m generalizing s with
  | zero => cases hr
  | succ m ih =>
    rcases Comp.runWith_bind_iff.mp hr with ⟨x, s₁, h₁, h₂⟩ | ⟨e', h₁, he⟩ <;>
      rw [Comp.runWith_request] at h₁
    · cases x with
      | true => exact ih h₂
      | false => cases h₂
    · cases he
      exact Request.entry_failed ⟨n, h₁⟩

/-- A settled set answers at once. -/
theorem Request.build_settled {r : Except Error Unit} (hb : s.builders.get? b = some d)
    (hd : d.outcome ≠ .underway) :
    (Request.build b).Ends s r s' ↔ r = d.answer ∧ s' = s := by
  rw [Request.ends_run (q := .build b) rfl]
  have hrun : (Comp.build b).Ends s d.answer s := by
    refine (Comp.perform_ends (.builder b) s).bind ?_
    simp only [Action.perform, hb]
    cases hd' : d.outcome with
    | underway => exact absurd hd' hd
    | built a =>
      obtain ⟨herr, hset⟩ := Builder.outcome_eq_built.mp hd'
      rw [herr, hset, Builder.answer_of_built hd']
      exact Comp.ends_done.mpr ⟨rfl, rfl⟩
    | failed e =>
      rw [Builder.outcome_eq_failed.mp hd', Builder.answer_of_failed hd']
      exact Comp.ends_done.mpr ⟨rfl, rfl⟩
  constructor
  · rintro ⟨s₂, h₂, rfl⟩
    obtain ⟨h₁, h₃⟩ := hrun.unique h₂
    exact ⟨h₁.symm, h₃.symm⟩
  · rintro ⟨rfl, hs⟩
    exact ⟨s, hrun, hs⟩

/-- **What an outermost construction comes to.** If it has succeeded there is a set, and if it has
failed the set has failed with the same error. -/
theorem Request.build_ended {r : Except Error Unit} (hb : s.builders.get? b = some d)
    (ha : d.active = 0) (hr : (Request.build b).Ends s r s') :
    ∃ d', s'.builders.get? b = some d' ∧ d'.Ended r := by
  obtain ⟨s₂, ⟨n, h₂⟩, rfl⟩ := (Request.ends_run (q := .build b) rfl).mp hr
  rcases Comp.build_cases h₂ with ⟨hsettled, rfl⟩ | ⟨d₀, hb₀, hd₀, h₃⟩
  · refine ⟨d, hb, ?_⟩
    rcases hsettled d hb with ⟨a, h, rfl⟩ | ⟨e, h, rfl⟩
    · exact ⟨a, Builder.set_of_built h⟩
    · exact h
  · cases hb.symm.trans hb₀
    rcases h₃ with ⟨e, h₁, rfl⟩ | ⟨s₁, d₁, h₁, hb₁, h₄⟩
    · exact Comp.takeEntries_failed h₁
    · obtain ⟨d₁', hb₁', hages⟩ := (Store.ages_law.ends ⟨n, h₁⟩).builder hb
      cases hb₁.symm.trans hb₁'
      rcases h₄ with ⟨hne, -, -⟩ | ⟨-, r', h₅, rfl⟩
      · exact absurd (hages.active.trans ha) hne
      · obtain ⟨d', hb', ⟨a, rfl, h⟩ | ⟨e, rfl, h⟩⟩ := Request.assemble_settles hb₁ ⟨n, h₅⟩
        · exact ⟨d', hb', a, h⟩
        · exact ⟨d', hb', h⟩

/-- If no expression goes on after an error, then a construction that succeeds has met none. -/
theorem Request.build_err {u : Unit} {d' : Builder} (hs : s.Propagates)
    (hb : s.builders.get? b = some d) (hr : (Request.build b).Ends s (.ok u) s')
    (hb' : s'.builders.get? b = some d') : d'.err = none := by
  have ht : s.Turn none s' := Request.Legal.turn (q := .build b) ⟨hs, trivial, trivial⟩ hr
  by_cases hd : d.outcome = .underway
  · rcases ht.outcome hb hb' hd with h | ⟨-, a, h⟩ | ⟨e, he, -⟩
    · exact (Builder.outcome_eq_underway.mp h).1
    · exact (Builder.outcome_eq_built.mp h).1
    · cases he
  · obtain ⟨hanswer, rfl⟩ := (Request.build_settled hb hd).mp hr
    cases hb.symm.trans hb'
    cases herr : d.err with
    | none => rfl
    | some e =>
      rw [Builder.answer, herr] at hanswer
      cases hanswer

/-- If no expression goes on after an error, then a set is built when its construction has
succeeded. -/
theorem Request.build_settles {r : Except Error Unit} (hs : s.Propagates)
    (hb : s.builders.get? b = some d) (ha : d.active = 0) (hr : (Request.build b).Ends s r s') :
    ∃ d', s'.builders.get? b = some d' ∧
      ((∃ a, r = .ok () ∧ d'.outcome = .built a) ∨ ∃ e, r = .error e ∧ d'.outcome = .failed e) := by
  obtain ⟨d', hb', hended⟩ := Request.build_ended hb ha hr
  refine ⟨d', hb', ?_⟩
  cases r with
  | error e => exact .inr ⟨e, rfl, hended⟩
  | ok u =>
    obtain ⟨a, hset⟩ := hended
    exact .inl ⟨a, rfl, Builder.outcome_eq_built.mpr ⟨Request.build_err hs hb hr hb', hset⟩⟩

/-- Two entries of a recursive set. The first one looks for `x`, which takes up the second one; this
fails, and the first one goes on and defines `a`. -/
def Entry.heedless : List Entry :=
  [⟨[.orElse (.var "x") (.string "a")], .lit (.int 1)⟩, ⟨[.raise "boom"], .lit (.int 2)⟩]

/-- **The set of some entries is complete.** There is a set as soon as its construction has
succeeded, so the set of some entries fails only as its construction does. -/
theorem Comp.construct_settles {env : Env} {entries : List Entry} {recursive : Bool}
    {r : Except Error (Addr .set)} (hr : (Comp.construct env entries recursive).Ends s r s') :
    (Request.build (s.newBuilder env entries recursive).1).Ends
      (s.newBuilder env entries recursive).2 (r.map fun _ => ()) s' ∧
    ∀ a, r = .ok a → ∃ d, s'.builders.get? (s.newBuilder env entries recursive).1 = some d ∧
      d.set = some a := by
  replace hr := (Comp.perform_ends (.newBuilder env entries recursive) s).bind_iff.mp hr
  have hb : (s.newBuilder env entries recursive).2.builders.get?
      (s.newBuilder env entries recursive).1 = some _ := Heap.get?_push_next _ _
  rcases Comp.ends_bind_iff.mp hr with ⟨u, s₁, h₁, h₂⟩ | ⟨e, h₁, rfl⟩ <;>
    replace h₁ := Comp.ends_request.mp h₁
  · obtain ⟨d', hb', a, hset⟩ := Request.build_ended hb rfl h₁
    replace h₂ := (Comp.perform_ends (.builder _) s₁).bind_iff.mp h₂
    simp only [Action.perform] at h₂
    rw [hb', Option.bind_some, hset] at h₂
    obtain ⟨rfl, rfl⟩ := Comp.ends_pure.mp h₂
    exact ⟨h₁, fun a' ha' => by cases ha'; exact ⟨d', hb', hset⟩⟩
  · exact ⟨h₁, fun a ha => by cases ha⟩

/-! ### Settled sets stay -/

/-- As long as the set `b` is as `d`: anything but to set a slot of it, to take up an entry of it or
to assemble it. An error may be passed over. -/
def Rules.sparing (b : Addr .builder) (d : Builder) : Rules where
  holds s := s.builders.get? b = some d
  act _ a := ∀ name x isNew, a ≠ .setSlot b name x isNew
  ask _ q := q ≠ .entry b ∧ q ≠ .assemble b
  catches := True

theorem Rules.sparing_permits (b : Addr .builder) (d : Builder) :
    (Rules.sparing b d).Permits fun _ => True where
  toHereditary := Expr.hereditary_true
  act _ ha := by
    rintro name x isNew rfl
    exact ha
  ask _ hq := by constructor <;> (rintro rfl; exact hq)
  lambda _ _ := ⟨trivial, fun _ _ => trivial⟩
  orElse _ := trivial

/-- What a request runs spares a settled set: if it asks the set itself, this answers at once. -/
theorem Rules.start_sparing {q : Request} {c : Comp q.Answer} (hd : d.outcome ≠ .underway)
    (hq : q ≠ .entry b ∧ q ≠ .assemble b) (hs : q.start s = .run c s')
    (hb : s'.builders.get? b = some d) : c.Fair (.sparing b d) s' := by
  have hP := Rules.sparing_permits b d
  have hplain : q.Plain (fun _ => True) → (∀ b, q ≠ .build b) → c.Fair (.sparing b d) s' :=
    fun hq hne => hP.start hq hne (fun _ _ _ _ _ => trivial) hs s' hb
  cases q with
  | build b' =>
    cases hs
    by_cases hbb : b' = b
    · subst hbb
      refine (hP.perform (a := .builder b') trivial s hb).bind hb fun c s₁ hc hs₁ => ?_
      obtain ⟨hc, -⟩ := Comp.ends_perform.mp hc
      replace hc : c = some d := (Except.ok.inj hc).trans hb
      subst hc
      dsimp only
      split
      · trivial
      · trivial
      · rename_i herr hset
        exact absurd (Builder.outcome_eq_underway.mpr ⟨herr, hset⟩) hd
    · refine Comp.build_fairly (R := .sparing b d) (fun _ _ name x isNew h => by cases h)
        (fun _ _ => ⟨fun h => ?_, fun h => by cases h⟩)
        (fun _ _ => ⟨fun h => (by cases h), fun h => ?_⟩) s hb <;>
      · cases h
        exact hbb rfl
  | entry b' =>
    obtain ⟨d', e, -, -, rfl, -⟩ := Store.startEntry_run hs
    refine ((hP.define (fun {_ name x isNew} _ _ _ name' x' isNew' h => ?_)
      (fun _ _ => Slot.all_of_forall (fun _ => trivial) _) d'.env
      (e.all_of_forall fun _ => trivial)).bind fun _ => .pure true) s' hb
    cases h
    exact hq.1 rfl
  | assemble b' =>
    cases hs
    exact hP.assemble hb fun _ _ p _ => p.2.all_of_forall fun _ => trivial
  | eval env e => exact hplain trivial fun b h => by cases h
  | _ => exact hplain trivial fun b h => by cases h

/-- A set is as before when a request has started or ended that is not for one of its entries or its
assembly. -/
theorem Request.start_elsewhere {q : Request} {c : Comp q.Answer}
    (hq : q ≠ .entry b ∧ q ≠ .assemble b) (hs : q.start s = .run c s') :
    s'.builders.get? b = s.builders.get? b := by
  rcases Request.start_builders hs with ⟨b', d', e, rfl, -, -, hs', -⟩ | ⟨b', rfl, hs', -⟩ |
    ⟨-, hs', -⟩
  · rw [hs', Heap.get?_modify, if_neg fun h => hq.1 (congrArg Request.entry h)]
  · rw [hs', Heap.get?_modify, if_neg fun h => hq.2 (congrArg Request.assemble h)]
  · rw [hs']

theorem Request.finish_elsewhere {q : Request} (hq : q ≠ .entry b ∧ q ≠ .assemble b)
    (r : Except Error q.Answer) (s : Store) :
    (q.finish r s).builders.get? b = s.builders.get? b := by
  have hleave : ∀ b' out, b' ≠ b → (s.finishBuilder b' out).builders.get? b =
      s.builders.get? b := fun b' out hne => by
    rw [Store.finishBuilder, Heap.get?_modify, if_neg hne]
  cases q with
  | force t => rw [Request.finish, s.builders_finishForce t r]
  | entry b' =>
    have hne : b' ≠ b := fun h => hq.1 (congrArg Request.entry h)
    cases r <;> exact hleave b' _ hne
  | assemble b' => exact hleave b' _ fun h => hq.2 (congrArg Request.assemble h)
  | _ => rfl

/-- What spares a settled set leaves it as it is, if all requests do. -/
theorem Comp.Fair.spared {α : Type} {n : Nat} {c : Comp α} {r : Except Error α}
    (hn : ∀ {q : Request} {s s' : Store} {r : Except Error q.Answer},
      q ≠ .entry b ∧ q ≠ .assemble b → s.builders.get? b = some d →
      q.run n s = some (r, s') → s'.builders.get? b = some d)
    (hc : c.Fair (.sparing b d) s) (hb : s.builders.get? b = some d)
    (hr : c.run n s = some (r, s')) : s'.builders.get? b = some d := by
  refine hc.stays (fun {s a} hs ha => ?_) (fun hs hq hr => hn hq hs hr) hb hr
  cases a with
  | newBuilder env entries recursive => exact Heap.get?_push_of_some hs
  | setSlot b' name x isNew =>
    refine (Heap.get?_modify ..).trans ((if_neg ?_).trans hs)
    rintro rfl
    exact ha name x isNew rfl
  | _ => exact hs

/-- **A settled set stays as it is** in every run, also in one that goes on after errors: no entry
of it is taken up any more, and it is not assembled again. -/
theorem Request.run_settled {n : Nat} {q : Request} {r : Except Error q.Answer}
    (hd : d.outcome ≠ .underway) (hq : q ≠ .entry b ∧ q ≠ .assemble b)
    (hb : s.builders.get? b = some d) (hr : q.run n s = some (r, s')) :
    s'.builders.get? b = some d := by
  induction n generalizing q s s' with
  | zero => cases hr
  | succ n ih =>
    rcases Request.run_succ_cases hr with hstart | ⟨c, s₁, s₂, hstart, h₂, rfl⟩
    · rwa [Request.start_answer hstart]
    · have hb₁ := (Request.start_elsewhere hq hstart).trans hb
      exact (Request.finish_elsewhere hq r s₂).trans
        ((Rules.start_sparing hd hq hstart hb₁).spared ih hb₁ h₂)

theorem Comp.Fair.settled {α : Type} {c : Comp α} {r : Except Error α}
    (hc : c.Fair (.sparing b d) s) (hd : d.outcome ≠ .underway)
    (hb : s.builders.get? b = some d) (hr : c.Ends s r s') : s'.builders.get? b = some d := by
  obtain ⟨n, hn⟩ := hr
  exact hc.spared (Request.run_settled hd) hb hn

end NixKernel
