import NixKernel.Proofs.Alike.Sim

/-!
What is computed from values does not depend on addresses: forcing, full evaluation, comparison and
the operators simulate each other on alike values, as long as requests do.
-/

namespace NixKernel

namespace Answers

open NixKernel.Comp

variable {n : Nat} {ρ : Link} (h : Answers n ρ) {v v' w w' : Value} {env env' : Env}

include h

/-! ### Forcing -/

theorem forceValue (hv : v.Alike ρ v') :
    Sim n ρ (Value.Alike ρ) (Comp.force v) (Comp.force v') := by
  cases hv with
  | thunk ht => exact h.force ht
  | _ => exact .pure (by constructor <;> assumption)

theorem forceBool (hv : v.Alike ρ v') : Sim n ρ Eq (Comp.forceBool v) (Comp.forceBool v') := by
  refine (h.forceValue hv).bind fun x x' hx => ?_
  cases hx with
  | bool b => exact .pure rfl
  | _ => exact .refuse _

theorem forceName (hv : v.Alike ρ v') : Sim n ρ Eq (Comp.forceName v) (Comp.forceName v') := by
  refine (h.forceValue hv).bind fun x x' hx => ?_
  cases hx with
  | str t => exact .pure rfl
  | null => exact .pure rfl
  | _ => exact .refuse _

theorem forceBoth (hv : v.Alike ρ v') (hw : w.Alike ρ w') :
    Sim n ρ (fun p q => p.1.Alike ρ q.1 ∧ p.2.Alike ρ q.2) (Comp.forceBoth v w)
      (Comp.forceBoth v' w') :=
  (h.forceValue hv).bind fun _ _ hx => (h.forceValue hw).bind fun _ _ hy => .pure ⟨hx, hy⟩

/-! ### Full evaluation -/

theorem spellValue {above above' : List Container}
    (ha : List.Forall₂ (Container.Alike ρ) above above') (hv : v.Alike ρ v') :
    Sim n ρ Eq (Comp.spell above v) (Comp.spell above' v') := by
  refine (h.forceValue hv).bind fun x x' hx => ?_
  cases hx with
  | @list a a' hl =>
    have hmem := (Container.Alike.list hl).mem_iff ha
    dsimp only
    simp only [hmem]
    split
    · exact .pure rfl
    · refine (Sim.items hl).bind fun xs xs' hxs => ?_
      refine Sim.bind (Sim.mapM hxs (R := Eq) fun x x' hx => ?_) fun ts ts' hts => .pure ?_
      · exact h.spell (.cons (.list hl) ha) hx
      · rw [List.forall₂_eq_eq_eq] at hts
        rw [hts]
  | @set a a' hl =>
    have hmem := (Container.Alike.set hl).mem_iff ha
    dsimp only
    simp only [hmem]
    split
    · exact .pure rfl
    · refine (Sim.attrs hl).bind fun m m' hm => ?_
      refine Sim.bind (Sim.mapM hm (R := Eq) fun p q hpq => ?_) fun ts ts' hts => .pure ?_
      · exact (h.spell (.cons (.set hl) ha) hpq.2).bind fun t t' ht => .pure (by rw [hpq.1, ht])
      · rw [List.forall₂_eq_eq_eq] at hts
        rw [hts]
  | _ => exact .pure rfl

theorem sweepAll {seen seen' : List Container}
    (hs : List.Forall₂ (Container.Alike ρ) seen seen') {xs xs' : List Value}
    (hx : List.Forall₂ (Value.Alike ρ) xs xs') :
    Sim n ρ (List.Forall₂ (Container.Alike ρ)) (Comp.sweepAll seen xs)
      (Comp.sweepAll seen' xs') := by
  induction hx generalizing seen seen' with
  | nil => exact .pure hs
  | cons hx _ ih => exact (h.sweep hs hx).bind fun p q hpq => ih hpq.2

theorem sweepValue {seen seen' : List Container}
    (hs : List.Forall₂ (Container.Alike ρ) seen seen') (hv : v.Alike ρ v') :
    Sim n ρ (SweptAlike ρ) (Comp.sweep seen v) (Comp.sweep seen' v') := by
  refine (h.forceValue hv).bind fun x x' hx => ?_
  cases hx with
  | @list a a' hl =>
    have hmem := (Container.Alike.list hl).mem_iff hs
    dsimp only
    simp only [hmem]
    split
    · exact .pure ⟨.list hl, hs⟩
    · exact (Sim.items hl).bind fun xs xs' hxs =>
        (h.sweepAll (.cons (.list hl) hs) hxs).bind fun l l' hl' => .pure ⟨.list hl, hl'⟩
  | @set a a' hl =>
    have hmem := (Container.Alike.set hl).mem_iff hs
    dsimp only
    simp only [hmem]
    split
    · exact .pure ⟨.set hl, hs⟩
    · exact (Sim.attrs hl).bind fun m m' hm =>
        (h.sweepAll (.cons (.set hl) hs) (values_alike hm)).bind fun l l' hl' =>
          .pure ⟨.set hl, hl'⟩
  | _ => exact .pure ⟨by constructor <;> assumption, hs⟩

theorem deepForce (hv : v.Alike ρ v') :
    Sim n ρ (Value.Alike ρ) (Comp.deepForce v) (Comp.deepForce v') :=
  (h.sweep .nil hv).bind fun _ _ hp => .pure hp.1

theorem print (hv : v.Alike ρ v') : Sim n ρ Eq (Comp.print v) (Comp.print v') :=
  (h.spell .nil hv).bind fun _ _ ht => .pure (congrArg Tree.text ht)

theorem typeOf (hv : v.Alike ρ v') : Sim n ρ Eq (Comp.typeOf v) (Comp.typeOf v') :=
  (h.forceValue hv).bind fun _ _ hx => .pure hx.typeName

/-! ### Comparison -/

theorem equalItems {xs xs' ys ys' : List Value} (hx : List.Forall₂ (Value.Alike ρ) xs xs')
    (hy : List.Forall₂ (Value.Alike ρ) ys ys') :
    Sim n ρ Eq (Comp.equalItems xs ys) (Comp.equalItems xs' ys') := by
  induction hx generalizing ys ys' with
  | nil => exact .pure rfl
  | cons hxx _ ih =>
    cases hy with
    | nil => exact .pure rfl
    | cons hyy hy =>
      refine Sim.bind (h.equal hxx hyy) fun c c' hc => ?_
      subst hc
      split
      · exact ih hy
      · exact .pure rfl

theorem equalAttrs {other other' : Attrs Value} (ho : other.Alike ρ other')
    {l l' : List (String × Value)} (hl : List.Forall₂ (Binding (Value.Alike ρ)) l l') :
    Sim n ρ Eq (Comp.equalAttrs other l) (Comp.equalAttrs other' l') := by
  induction hl with
  | nil => exact .pure rfl
  | @cons p q l l' hpq _ ih =>
    obtain ⟨k, x⟩ := p
    obtain ⟨k', x'⟩ := q
    obtain ⟨rfl, hx⟩ := hpq
    unfold Comp.equalAttrs
    rcases rel_cases (ho.get? k) with ⟨hy, hy'⟩ | ⟨y, y', hy, hy', hyy⟩
    · rw [hy, hy']
      exact .pure rfl
    · rw [hy, hy']
      refine Sim.bind (h.equal hx hyy) fun c c' hc => ?_
      subst hc
      split
      · exact ih
      · exact .pure rfl

theorem equalValues (hv : v.Alike ρ v') (hw : w.Alike ρ w') :
    Sim n ρ Eq (Comp.equal v w) (Comp.equal v' w') := by
  refine (h.forceBoth hv hw).bind fun p q hpq => ?_
  obtain ⟨x, y⟩ := p
  obtain ⟨x', y'⟩ := q
  obtain ⟨hx, hy⟩ := hpq
  have hplain := hx.plainEq hy
  cases hx with
  | list ha =>
    cases hy with
    | list hb =>
      refine (Sim.items ha).bind fun xs xs' hxs => (Sim.items hb).bind fun ys ys' hys => ?_
      rw [hxs.length_eq, hys.length_eq]
      split
      · exact h.equalItems hxs hys
      · exact .pure rfl
    | _ => exact .pure hplain
  | set ha =>
    cases hy with
    | set hb =>
      refine (Sim.attrs ha).bind fun m m' hm => (Sim.attrs hb).bind fun k k' hk => ?_
      rw [hm.size, hk.size]
      split
      · exact h.equalAttrs hk hm
      · exact .pure rfl
    | _ => exact .pure hplain
  | _ => exact .pure hplain

theorem lessItems {xs xs' ys ys' : List Value} (hx : List.Forall₂ (Value.Alike ρ) xs xs')
    (hy : List.Forall₂ (Value.Alike ρ) ys ys') :
    Sim n ρ Eq (Comp.lessItems xs ys) (Comp.lessItems xs' ys') := by
  induction hx generalizing ys ys' with
  | nil => cases hy <;> exact .pure rfl
  | cons hxx _ ih =>
    cases hy with
    | nil => exact .pure rfl
    | cons hyy hy =>
      refine (h.forceBoth hxx hyy).bind fun p q hpq => ?_
      obtain ⟨a, b⟩ := p
      obtain ⟨a', b'⟩ := q
      obtain ⟨ha, hb⟩ := hpq
      dsimp only
      rw [ha.isSameConstant hb]
      split
      · exact ih hy
      · refine Sim.bind (h.less ha hb) fun c c' hc => ?_
        subst hc
        split
        · exact .pure rfl
        · refine Sim.bind (Sim.attempt (h.less hb ha)) fun r r' hr => ?_
          cases hr with
          | error e => exact ih hy
          | @ok c c' hc =>
            subst hc
            cases c with
            | true => exact .pure rfl
            | false => exact ih hy

theorem lessValues (hv : v.Alike ρ v') (hw : w.Alike ρ w') :
    Sim n ρ Eq (Comp.less v w) (Comp.less v' w') := by
  have hplain : Sim n ρ Eq (Comp.ofExcept (v.plainLess w)) (Comp.ofExcept (v'.plainLess w')) := by
    rw [hv.plainLess hw]
    cases v'.plainLess w' with
    | ok c => exact .pure rfl
    | error e => exact .refuse e
  cases hv with
  | list ha =>
    cases hw with
    | list hb =>
      exact (Sim.items ha).bind fun xs xs' hxs => (Sim.items hb).bind fun ys ys' hys =>
        h.lessItems hxs hys
    | _ => exact hplain
  | _ => exact hplain

theorem compareForced {test : Value → Value → Comp Bool}
    (ht : ∀ x x' y y', x.Alike ρ x' → y.Alike ρ y' → Sim n ρ Eq (test x y) (test x' y'))
    (hv : v.Alike ρ v') (hw : w.Alike ρ w') :
    Sim n ρ (Value.Alike ρ) (Comp.compareForced test v w) (Comp.compareForced test v' w') := by
  refine (h.forceBoth hv hw).bind fun p q hpq => ?_
  refine (ht _ _ _ _ hpq.1 hpq.2).bind fun c c' hc => ?_
  subst hc
  exact .pure (.bool c)

theorem comparison (o : Operator) (hv : v.Alike ρ v') (hw : w.Alike ρ w') :
    Sim n ρ (Value.Alike ρ) (Comp.comparison o v w) (Comp.comparison o v' w') := by
  unfold Comp.comparison
  split
  · refine Sim.bind (h.equal hv hw) fun c c' hc => ?_
    subst hc
    exact .pure (.bool c)
  · refine Sim.bind (h.equal hv hw) fun c c' hc => ?_
    subst hc
    exact .pure (.bool !c)
  · exact h.compareForced (fun x x' y y' hx hy => h.less hx hy) hv hw
  · exact h.compareForced (fun x x' y y' hx hy => h.less hy hx) hv hw
  · refine h.compareForced (fun x x' y y' hx hy => ?_) hv hw
    exact Sim.bind (h.less hy hx) fun c c' hc => .pure (congrArg _ hc)
  · refine h.compareForced (fun x x' y y' hx hy => ?_) hv hw
    exact Sim.bind (h.less hx hy) fun c c' hc => .pure (congrArg _ hc)
  · exact .refuse _

/-! ### Operators -/

theorem unary (o : Operator) (hv : v.Alike ρ v') :
    Sim n ρ (Value.Alike ρ) (Comp.unary o v) (Comp.unary o v') := by
  unfold Comp.unary
  split
  · exact (h.forceValue hv).bind fun x x' hx => .ofExcept hx.neg
  · refine (h.forceBool hv).bind fun c c' hc => ?_
    subst hc
    exact .pure (.bool !c)
  · exact .refuse _

theorem onForced {f : Value → Value → Except Cause Value}
    (hf : ∀ x x' y y', x.Alike ρ x' → y.Alike ρ y' → Both (Value.Alike ρ) (f x y) (f x' y'))
    (hv : v.Alike ρ v') (hw : w.Alike ρ w') :
    Sim n ρ (Value.Alike ρ) (Comp.onForced f v w) (Comp.onForced f v' w') :=
  (h.forceBoth hv hw).bind fun _ _ hpq => .ofExcept (hf _ _ _ _ hpq.1 hpq.2)

theorem update (hv : v.Alike ρ v') (hw : w.Alike ρ w') :
    Sim n ρ (Value.Alike ρ) (Comp.update v w) (Comp.update v' w') := by
  refine (h.forceBoth hv hw).bind fun p q hpq => ?_
  obtain ⟨x, y⟩ := p
  obtain ⟨x', y'⟩ := q
  obtain ⟨hx, hy⟩ := hpq
  have hrefuse : Sim n ρ (Value.Alike ρ)
      (Comp.refuse (.badOperands .update x.typeName y.typeName))
      (Comp.refuse (.badOperands .update x'.typeName y'.typeName)) := by
    rw [hx.typeName, hy.typeName]
    exact .refuse _
  cases hx with
  | set ha =>
    cases hy with
    | set hb =>
      exact (Sim.attrs ha).bind fun m m' hm => (Sim.attrs hb).bind fun k k' hk =>
        .newSet (hm.union hk)
    | _ => exact hrefuse
  | _ => exact hrefuse

theorem concat (hv : v.Alike ρ v') (hw : w.Alike ρ w') :
    Sim n ρ (Value.Alike ρ) (Comp.concat v w) (Comp.concat v' w') := by
  refine (h.forceBoth hv hw).bind fun p q hpq => ?_
  obtain ⟨x, y⟩ := p
  obtain ⟨x', y'⟩ := q
  obtain ⟨hx, hy⟩ := hpq
  have hrefuse : Sim n ρ (Value.Alike ρ)
      (Comp.refuse (.badOperands .concat x.typeName y.typeName))
      (Comp.refuse (.badOperands .concat x'.typeName y'.typeName)) := by
    rw [hx.typeName, hy.typeName]
    exact .refuse _
  cases hx with
  | list ha =>
    cases hy with
    | list hb =>
      exact (Sim.items ha).bind fun xs xs' hxs => (Sim.items hb).bind fun ys ys' hys =>
        .newList (List.rel_append hxs hys)
    | _ => exact hrefuse
  | _ => exact hrefuse

theorem shortCut (test decided : Bool) (hv : v.Alike ρ v') (hw : w.Alike ρ w') :
    Sim n ρ (Value.Alike ρ) (Comp.shortCut test decided v w)
      (Comp.shortCut test decided v' w') := by
  refine (h.forceBool hv).bind fun c c' hc => ?_
  subst hc
  split
  · exact .pure (.bool decided)
  · refine (h.forceBool hw).bind fun d d' hd => ?_
    subst hd
    exact .pure (.bool d)

theorem binary (o : Operator) (hv : v.Alike ρ v') (hw : w.Alike ρ w') :
    Sim n ρ (Value.Alike ρ) (Comp.binary o v w) (Comp.binary o v' w') := by
  have hnum : ∀ (o : Operator) (ints : Int64 → Int64 → Int64) (floats : Float → Float → Float),
      ∀ x x' y y' : Value, x.Alike ρ x' → y.Alike ρ y' →
        Both (Value.Alike ρ) (x.arithmetic o ints floats y) (x'.arithmetic o ints floats y') :=
    fun o ints floats x x' y y' hx hy => hx.arithmetic hy o ints floats
  cases o with
  | add => exact h.onForced (fun x x' y y' hx hy => hx.add hy) hv hw
  | sub => exact h.onForced (hnum _ _ _) hv hw
  | mul => exact h.onForced (hnum _ _ _) hv hw
  | div => exact h.onForced (fun x x' y y' hx hy => hx.div hy) hv hw
  | update => exact h.update hv hw
  | concat => exact h.concat hv hw
  | and | or | implies => exact h.shortCut _ _ hv hw
  | eq => exact h.comparison .eq hv hw
  | ne => exact h.comparison .ne hv hw
  | lt => exact h.comparison .lt hv hw
  | gt => exact h.comparison .gt hv hw
  | ge => exact h.comparison .ge hv hw
  | le => exact h.comparison .le hv hw
  | _ => exact .refuse _

end Answers

end NixKernel
