import NixKernel.Proofs.Builder.Turn

/-!
The rules of each request. The computation of a request keeps to rules of its own: the construction
of a set asks for its entries and its assembly, an entry sets slots of its set, and all others leave
sets under construction alone. So a law for all requests needs to be shown only of the single
actions that the rules allow, and of how each request starts and ends.
-/

namespace NixKernel

variable {α : Type} {s s' : Store} {b : Addr .builder}

/-! ### The rules -/

/-- What the construction of a set may do: look at the set, and ask for its entries and its assembly
when these are due. -/
def Rules.build (b : Addr .builder) : Rules where
  holds s := s.Propagates
  act _ a := a = .builder b
  ask s q := (q = .entry b ∨ q = .assemble b) ∧ q.Legal s
  catches := False

theorem Comp.takeEntries_fair (m : Nat) (hp : s.Propagates) (hs : s.Underway b) :
    (Comp.takeEntries b m).Fair (.build b) s := by
  induction m generalizing s with
  | zero => trivial
  | succ m ih =>
    refine Fair.bind ⟨⟨.inl rfl, hp, trivial, hs⟩, fun _ _ _ _ => trivial, fun _ _ _ => .inl rfl⟩ hp
      fun x s₁ hx hp₁ => ?_
    cases x with
    | false => trivial
    | true =>
      obtain ⟨n, hn⟩ := ends_request.mp hx
      obtain ⟨d, hb, hd⟩ := hs
      obtain ⟨d₁, hb₁, hd₁, -⟩ := (turns n).entry hp hb hd hn
      exact ih hp₁ ⟨d₁, hb₁, hd₁⟩

theorem Comp.build_fair (b : Addr .builder) (hp : s.Propagates) :
    (Comp.build b).Fair (.build b) s := by
  have hread : ∀ s, (Comp.perform (.builder b)).Fair (.build b) s :=
    fun s => ⟨rfl, fun _ => trivial⟩
  refine (hread s).bind hp fun c s₁ hc hp => ?_
  obtain ⟨hc, hs₁⟩ := ends_perform.mp hc
  replace hs₁ : s₁ = s := hs₁
  replace hc : c = s.builders.get? b := Except.ok.inj hc
  subst hs₁ hc
  cases hb : s₁.builders.get? b with
  | none => trivial
  | some d =>
    dsimp only
    split
    · trivial
    · trivial
    · have hd : d.outcome = .underway := Builder.outcome_eq_underway.mpr ⟨‹_›, ‹_›⟩
      -- the entries first; after them there is no further one, or the set has failed
      refine (takeEntries_fair _ hp ⟨d, hb, hd⟩).bind hp fun _ s₂ hs₂ hp₂ => ?_
      obtain ⟨n, hn⟩ := hs₂
      obtain ⟨ht, -, hnext⟩ := (turns n).takeEntries _ hp hb hd hn
      obtain ⟨d', hb', hd', hle⟩ := hnext rfl
      refine (hread s₂).bind hp₂ fun c' s₃ hc' hp₃ => ?_
      obtain ⟨hc', hs₃⟩ := ends_perform.mp hc'
      replace hs₃ : s₃ = s₂ := hs₃
      replace hc' : c' = s₂.builders.get? b := Except.ok.inj hc'
      subst hs₃ hc'
      simp only [hb', Option.map_some]
      split
      · rename_i ha
        obtain ⟨d'', hb'', hages⟩ := ht.builder hb
        cases hb'.symm.trans hb''
        -- no entry is in progress and none is left: the assembly is due
        have hlegal : (Request.assemble b).Legal s₃ := ⟨hp₃, trivial,
          d', hb', hd', Option.some.inj ha, hle.elim id fun hle => by rw [hages.entries]; omega⟩
        exact Fair.bind ⟨⟨.inr rfl, hlegal⟩, fun _ _ _ _ => trivial, fun _ _ _ => .inl rfl⟩ hp₃
          fun _ _ _ _ => trivial
      · trivial

/-- The rules of the computation of a request. -/
def Rules.frame : Request → Rules
  | .entry b => .entry b
  | .build b => .build b
  | _ => .plain

section Frame

variable {q q' : Request}

theorem Rules.frame_propagates (h : (Rules.frame q).holds s) : s.Propagates := by
  cases q with
  | entry b => exact h.2
  | _ => exact h

theorem Rules.frame_not_catches : ¬ (Rules.frame q).catches := by
  cases q <;> exact id

/-- All that is ever asked is due. -/
theorem Rules.frame_ask (hs : (Rules.frame q).holds s) (h : (Rules.frame q).ask s q') :
    q'.Legal s := by
  cases q with
  | build b => exact h.2
  | entry b => exact Request.Plain.legal h hs.2
  | _ => exact Request.Plain.legal h hs

/-- An action leaves sets under construction alone, or sets a slot of the set of its entry. -/
theorem Rules.frame_act {a : Action} (h : (Rules.frame q).act s a) : a.Plain Expr.Propagates ∨
    ∃ b name x isNew, q = .entry b ∧ a = .setSlot b name x isNew ∧ s.Open b name x isNew ∧
      x.All Expr.Propagates := by
  cases q with
  | build b => cases h; exact .inl trivial
  | entry b =>
    rcases h with h | ⟨name, x, isNew, rfl, ho, hx⟩
    · exact .inl h
    · exact .inr ⟨b, name, x, isNew, rfl, rfl, ho, hx⟩
  | _ => exact .inl h

theorem Rules.frame_keep (h : (Rules.frame q).holds s) (ht : s.Turn none s')
    (hs' : s'.Propagates) : (Rules.frame q).holds s' := by
  cases q with
  | entry b => exact ⟨ht.inProgress h.1, hs'⟩
  | _ => exact hs'

theorem Rules.frame_brings {a : Action} (h : (Rules.frame q).act s a) :
    a.Brings Expr.Propagates := by
  rcases Rules.frame_act h with ha | ⟨b, name, x, isNew, -, rfl, -, hx⟩
  · exact ha.brings
  · exact hx

theorem Rules.frame_turn {a : Action} (h : (Rules.frame q).holds s)
    (ha : (Rules.frame q).act s a) :
    s.Turn none (a.perform s).2 ∧ (Rules.frame q).holds (a.perform s).2 := by
  have ht : s.Turn none (a.perform s).2 := by
    rcases Rules.frame_act ha with ha | ⟨b, name, x, isNew, rfl, rfl, -, -⟩
    · exact ha.turn s
    · exact .setSlot h.1 name x isNew
  exact ⟨ht, Rules.frame_keep h ht ((Rules.frame_propagates h).perform (Rules.frame_brings ha))⟩

/-- The computation of a request that is due keeps to its rules. -/
theorem Request.Legal.start_fair {c : Comp q.Answer} (h : q.Legal s)
    (hs : q.start s = .run c s') : (Rules.frame q).holds s' ∧ c.Fair (Rules.frame q) s' := by
  have hs' : s'.Propagates := h.propagates.start hs
  have hplain : q.Plain Expr.Propagates → (∀ b, q ≠ .build b) → c.Fair .plain s' := fun hq hb =>
    Rules.plain_permits.start hq hb (fun t env body _ ht => h.propagates.thunk ht) hs s' hs'
  cases q with
  | build b =>
    cases hs
    exact ⟨hs', Comp.build_fair b hs'⟩
  | entry b =>
    obtain ⟨d, hb, hd⟩ := h.due
    obtain ⟨-, -, hfair⟩ := Store.startEntry_fair hb hs
    exact hfair hd h.propagates
  | assemble b =>
    cases hs
    exact ⟨hs', Rules.assemble_fair b hs'⟩
  | eval env e => exact ⟨hs', hplain h.brings fun b hb => by cases hb⟩
  | _ => exact ⟨hs', hplain trivial fun b hb => by cases hb⟩

end Frame

/-! ### Laws of requests -/

/-- **Laws of requests.** What every allowed action does inside the computation of a request, and
what it makes of the request if its computation does so, every request does that is due. -/
theorem Request.Legal.law {T : Request → Store → Option Error → Store → Prop}
    {U : Store → Option Error → Store → Prop} (refl : ∀ s o, U s o s) (refl' : ∀ q s o, T q s o s)
    (trans : ∀ {q s s' s'' o}, T q s none s' → T q s' o s'' → T q s o s'')
    (act : ∀ {q s a}, (Rules.frame q).holds s → (Rules.frame q).act s a →
      T q s none (a.perform s).2)
    (ask : ∀ {q q' s s' o}, (Rules.frame q).holds s → (Rules.frame q).ask s q' →
      s.Turn o s' → U s o s' → T q s o s')
    (finish : ∀ {q : Request} {s s₁ s₂ : Store} {c : Comp q.Answer} {r : Except Error q.Answer},
      q.Legal s → q.start s = .run c s₁ → c.Ends s₁ r s₂ → s₁.Turn (failure? r) s₂ →
        T q s₁ (failure? r) s₂ → U s (failure? r) (q.finish r s₂))
    {q : Request} {r : Except Error q.Answer} (h : q.Legal s) (hr : q.Ends s r s') :
    U s (failure? r) s' := by
  obtain ⟨n, hn⟩ := hr
  induction n generalizing q s s' with
  | zero => cases hn
  | succ n ih =>
    rcases Request.run_succ_cases hn with hq | ⟨c, s₁, s₂, hq, h₂, rfl⟩
    · obtain rfl := Request.start_answer hq
      exact refl _ _
    · obtain ⟨hholds, hfair⟩ := h.start_fair hq
      have hboth := Comp.Fair.law (R := .frame q) (n := n)
        (T := fun s o s' => s.Turn o s' ∧ T q s o s')
        (fun s o => ⟨.refl s o, refl' q s o⟩)
        (fun h h' => ⟨h.1.trans h'.1, trans h.2 h'.2⟩)
        (fun h => absurd h Rules.frame_not_catches)
        (fun hs ha => by
          obtain ⟨ht, hs'⟩ := Rules.frame_turn hs ha
          exact ⟨⟨ht, act hs ha⟩, hs'⟩)
        (fun hs hq' hrun => by
          have hlegal := Rules.frame_ask hs hq'
          have ht := hlegal.turn ⟨n, hrun⟩
          refine ⟨⟨ht, ask hs hq' ht (ih hlegal hrun)⟩, fun ho => ?_⟩
          rw [ho.resolve_right Rules.frame_not_catches] at ht
          exact Rules.frame_keep hs ht (hlegal.kept ⟨n, hrun⟩)) hfair hholds h₂
      exact finish h hq ⟨n, h₂⟩ hboth.1 hboth.2

end NixKernel
