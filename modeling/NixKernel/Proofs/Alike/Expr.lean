import NixKernel.Proofs.Alike.Scopes

/-!
Expressions do not depend on addresses: in alike scopes, alike expressions simulate each other, as
long as requests do.
-/

namespace NixKernel

namespace Answers

open NixKernel.Comp

variable {n : Nat} {ρ : Link} (h : Answers n ρ) {v v' w w' : Value} {env env' : Env}

include h

/-! ### Expressions -/

omit h in
theorem probe (p : Probe) (hv : v.Alike ρ v') :
    Sim n ρ (Value.Alike ρ) (Comp.probe p v) (Comp.probe p v') := by
  have hfail : Sim n ρ (Value.Alike ρ) (Comp.fail (.noProbe p v.typeName))
      (Comp.fail (.noProbe p v'.typeName)) := by
    rw [hv.typeName]
    exact .fail _
  cases p with
  | paramName =>
    cases hv with
    | lambda ha =>
      refine (Sim.lambda ha).bind fun f f' hf => (Sim.ofCell hf).bind fun g g' hg => .pure ?_
      rw [hg.param]
      exact .str _
    | _ => exact hfail
  | length =>
    cases hv with
    | list ha =>
      refine (Sim.items ha).bind fun xs xs' hxs => .pure ?_
      rw [hxs.length_eq]
      exact .int _
    | set ha =>
      refine (Sim.attrs ha).bind fun m m' hm => .pure ?_
      rw [hm.size]
      exact .int _
    | _ => exact hfail
  | index i =>
    cases hv with
    | list ha =>
      refine (Sim.items ha).bind fun xs xs' hxs => ?_
      rcases rel_cases (getElem?_alike hxs i) with ⟨hx, hx'⟩ | ⟨x, x', hx, hx', hxx⟩
      · rw [hx, hx']
        exact .fail _
      · rw [hx, hx']
        exact .pure hxx
    | _ => exact hfail
  | get name =>
    cases hv with
    | set ha =>
      refine (Sim.attrs ha).bind fun m m' hm => .pure ?_
      rcases rel_cases (hm.get? name) with ⟨hx, hx'⟩ | ⟨x, x', hx, hx', hxx⟩
      · rw [hx, hx']
        exact .null
      · rw [hx, hx']
        exact hxx
    | _ => exact hfail
  | keys =>
    cases hv with
    | set ha =>
      refine (Sim.attrs ha).bind fun m m' hm => ?_
      rw [hm.keys]
      exact .newList (List.forall₂_same.mpr fun x hx => by
        obtain ⟨k, -, rfl⟩ := List.mem_map.mp hx
        exact .str k)
    | _ => exact hfail

omit h in
theorem wrap (henv : env.Alike ρ env') (m : Nat) (hv : v.Alike ρ v') :
    Sim n ρ (Value.Alike ρ) (Comp.wrap env m v) (Comp.wrap env' m v') := by
  induction m generalizing v v' with
  | zero => exact .pure hv
  | succ m ih => exact (Sim.newThunk henv (.lit hv)).bind fun t t' ht => ih ht

theorem evalAll (henv : env.Alike ρ env') {es es' : List Expr}
    (he : List.Forall₂ (Expr.Alike ρ) es es') :
    Sim n ρ (List.Forall₂ (Value.Alike ρ)) (Comp.evalAll env es) (Comp.evalAll env' es') :=
  Sim.mapM he fun _ _ hee => h.eval henv hee

theorem threeWay (hv : v.Alike ρ v') (hw : w.Alike ρ w') :
    Sim n ρ (Value.Alike ρ) (Comp.threeWay v w) (Comp.threeWay v' w') := by
  have hord : ∀ o, (Comp.ordinal o).Alike ρ (Comp.ordinal o) := fun o => by
    cases o <;> exact .int _
  refine (h.forceBoth hv hw).bind fun p q hpq => ?_
  obtain ⟨x, y⟩ := p
  obtain ⟨x', y'⟩ := q
  obtain ⟨hx, hy⟩ := hpq
  have hrefuse : Sim n ρ (Value.Alike ρ) (Comp.refuse (.incomparable x.typeName y.typeName))
      (Comp.refuse (.incomparable x'.typeName y'.typeName)) := by
    rw [hx.typeName, hy.typeName]
    exact .refuse _
  cases hx with
  | int i =>
    cases hy with
    | int j => exact .pure (hord _)
    | _ => exact hrefuse
  | str s =>
    cases hy with
    | str t => exact .pure (hord _)
    | _ => exact hrefuse
  | _ => exact hrefuse

theorem forcePath {cs cs' : List Value} (hc : List.Forall₂ (Value.Alike ρ) cs cs') :
    Sim n ρ (List.Forall₂ (Value.Alike ρ)) (Comp.forcePath cs) (Comp.forcePath cs') := by
  refine Sim.mapM hc fun c c' hcc => (h.forceValue hcc).bind fun x x' hx => ?_
  cases hx with
  | str t => exact .pure (.str t)
  | null => exact .pure .null
  | _ => exact .refuse _

omit h in
theorem flaky (id : String) (failures : Nat) :
    Sim n ρ Eq (Comp.flaky id failures) (Comp.flaky id failures) := by
  refine (Sim.perform (.count id) (.count id) (R := Eq) fun s s' hs => hs.count id).bind
    fun m m' hm => ?_
  subst hm
  split
  · exact .fail _
  · exact .pure rfl

omit h in
theorem fetch (r : String) : Sim n ρ (Value.Alike ρ) (Comp.fetch r) (Comp.fetch r) := by
  refine (Sim.perform (.fetch r) (.fetch r) (R := Option.Rel (Value.Alike ρ)) fun s s' hs =>
    ⟨lookup_alike hs.registers r, hs⟩).bind fun x x' hx => ?_
  cases hx with
  | none => exact .fail _
  | some hv => exact .pure hv

section Expressions

variable (henv : env.Alike ρ env')

include henv

/-- Two forced operands of an expression that stands for itself. -/
theorem evalTwo {e l r : Expr} (he : e.Fixed ρ) (hl : l ∈ e.parts) (hr : r ∈ e.parts)
    {f : Value → Value → Comp Value}
    (hf : ∀ x x' y y', x.Alike ρ x' → y.Alike ρ y' → Sim n ρ (Value.Alike ρ) (f x y) (f x' y')) :
    Sim n ρ (Value.Alike ρ) (do let x ← Comp.eval env l; f x (← Comp.eval env r))
      (do let x ← Comp.eval env' l; f x (← Comp.eval env' r)) :=
  Sim.bind (h.eval henv (he.alike hl)) fun _ _ hx =>
    Sim.bind (h.eval henv (he.alike hr)) fun _ _ hy => hf _ _ _ _ hx hy

/-- **An expression that stands for itself** does alike things in alike scopes. -/
theorem ofFixed {e : Expr} (he : e.Fixed ρ) :
    Sim n ρ (Value.Alike ρ) (Comp.ofExpr env e) (Comp.ofExpr env' e) := by
  -- parts of the expression are evaluated in the same two scopes
  have hone : ∀ {e' : Expr}, e' ∈ e.parts →
      Sim n ρ (Value.Alike ρ) (Comp.eval env e') (Comp.eval env' e') :=
    fun hm => h.eval henv (he.alike hm)
  have hall : ∀ {es : List Expr}, es ⊆ e.parts →
      Sim n ρ (List.Forall₂ (Value.Alike ρ)) (Comp.evalAll env es) (Comp.evalAll env' es) :=
    fun hm => h.evalAll henv (he.all hm)
  have hfirst : ∀ {x : Expr} {l : List Expr}, x ∈ x :: l := List.mem_cons_self
  have hrest : ∀ {x y : Expr} {l : List Expr}, y ∈ l → y ∈ x :: l := List.mem_cons_of_mem _
  cases e with
  | lit v =>
    obtain ⟨hlit, -, -⟩ := he
    exact .pure (hlit v rfl)
  | nothing => exact .fail _
  | raise t => exact .fail _
  | toPath t =>
    refine (Sim.scriptDir henv).bind fun p p' hp => ?_
    subst hp
    exact .pure (.path _)
  | list es =>
    exact Sim.bind (Sim.mapM (he.all fun _ hx => hx) fun x x' hx => Sim.newThunk henv hx)
      fun l l' hl => .newList hl
  | eagerList es => exact (hall fun _ hx => hx).bind fun l l' hl => .newList hl
  | eagerSet es =>
    have hes : List.Forall₂ (fun p q => p = q ∧ p ∈ es) es es :=
      List.forall₂_same.mpr fun p hp => ⟨rfl, hp⟩
    refine Sim.bind (Sim.mapM hes (R := Binding (Value.Alike ρ)) fun p q hpq => ?_)
      fun l l' hl => .newSet (.ofList hl)
    obtain ⟨rfl, hp⟩ := hpq
    exact (hone (List.mem_map.mpr ⟨p, hp, rfl⟩)).bind fun x x' hx => .pure ⟨rfl, hx⟩
  | attrset recursive entries =>
    exact (h.construct henv (he.entries fun _ hx => hx) recursive).bind fun a a' ha =>
      .pure (.set ha)
  | pending b name =>
    obtain ⟨-, hpending, -⟩ := he
    exact lookupComplete (hpending b name rfl) name
  | var name => exact h.lookup henv name
  | letIn entries body =>
    exact (h.letScope henv (he.entries fun _ hx => hrest hx)).bind fun i i' hi =>
      h.eval hi (he.alike hfirst)
  | withIn scope body =>
    refine (hone hfirst).bind fun x x' hx => (h.forceValue hx).bind fun y y' hy => ?_
    cases hy with
    | set ha => exact h.eval (henv.withNamespace ha) (he.alike (hrest hfirst))
    | _ => exact .refuse _
  | lambda param body =>
    refine (Sim.perform (.newLambda ⟨env, param, body⟩) (.newLambda ⟨env', param, body⟩)
      (R := Addr.Alike ρ) fun s s' hs => ?_).bind fun a a' ha => .pure (.lambda ha)
    exact ⟨hs.lambdas.next_alike, hs.newLambda ⟨henv, rfl, rfl, he⟩⟩
  | call f args =>
    exact (hone hfirst).bind fun x x' hx =>
      (hall fun _ hp => hrest hp).bind fun l l' hl => h.applyAll hx hl
  | cond c yes no =>
    refine (hone hfirst).bind fun x x' hx => (h.forceValue hx).bind fun y y' hy => ?_
    have hno := @hone no (hrest (hrest hfirst))
    cases hy with
    | bool b =>
      cases b with
      | true => exact hone (hrest hfirst)
      | false => exact hno
    | _ => exact hno
  | unary o e => exact (hone hfirst).bind fun x x' hx => h.unary o hx
  | binary o l r => exact h.evalTwo henv he hfirst (hrest hfirst) fun _ _ _ _ => h.binary o
  | comparison o l r =>
    exact h.evalTwo henv he hfirst (hrest hfirst) fun _ _ _ _ => h.comparison o
  | threeWay l r => exact h.evalTwo henv he hfirst (hrest hfirst) fun _ _ _ _ => h.threeWay
  | has e path =>
    refine (hone hfirst).bind fun x x' hx => (hall fun _ hp => hrest hp).bind fun l l' hl => ?_
    refine (h.has hx hl).bind fun c c' hc => ?_
    subst hc
    exact .pure (.bool c)
  | select e path fallback =>
    cases fallback with
    | none =>
      exact (hone hfirst).bind fun x x' hx => (hall fun _ hp => hrest hp).bind fun l l' hl =>
        h.select hx hl .none
    | some d =>
      exact (hone hfirst).bind fun x x' hx => (hall fun _ hp => hrest (hrest hp)).bind
        fun l l' hl => (hone (hrest hfirst)).bind fun y y' hy => h.select hx hl (.some hy)
  | attrPath components =>
    exact (hall fun _ hx => hx).bind fun l l' hl => (h.forcePath hl).bind fun m m' hm =>
      .newList hm
  | interpolate e =>
    refine (hone hfirst).bind fun x x' hx => (h.forceValue hx).bind fun y y' hy => ?_
    cases hy with
    | str t => exact .pure (.str t)
    | _ => exact .refuse _
  | typeOf e =>
    refine (hone hfirst).bind fun x x' hx => (h.typeOf hx).bind fun t t' ht => ?_
    subst ht
    exact .pure (.str _)
  | print e =>
    refine (hone hfirst).bind fun x x' hx => (h.print hx).bind fun t t' ht => ?_
    subst ht
    exact .pure (.str _)
  | delay e => exact .newThunk henv (he.alike hfirst)
  | detach e => exact .newThunk (.empty ρ) (he.alike hfirst)
  | wrap layers e => exact (hone hfirst).bind fun x x' hx => wrap henv layers hx
  | orElse e other =>
    refine (Sim.attempt (hone hfirst)).bind fun r r' hr => ?_
    cases hr with
    | ok hv => exact .pure hv
    | error x => exact hone (by simp [Expr.parts])
  | force e => exact (hone hfirst).bind fun x x' hx => h.forceValue hx
  | deepForce e => exact (hone hfirst).bind fun x x' hx => h.deepForce hx
  | lazyText e =>
    refine (hone hfirst).bind fun x x' hx => (Sim.perform (.view x) (.view x') (R := Eq)
      fun s s' hs => ⟨hs.view hx, hs⟩).bind fun t t' ht => ?_
    subst ht
    exact .pure (.str _)
  | lazyType e =>
    refine (hone hfirst).bind fun x x' hx => (Sim.perform (.typeName x) (.typeName x') (R := Eq)
      fun s s' hs => ⟨hs.typeName hx, hs⟩).bind fun t t' ht => ?_
    subst ht
    exact .pure (.str _)
  | isForced e =>
    refine (hone hfirst).bind fun x x' hx => ?_
    cases hx with
    | @thunk t t' ht =>
      refine (Sim.perform (.forced? t) (.forced? t') (R := Option.Rel (Value.Alike ρ))
        fun s s' hs => ⟨hs.forced? ht, hs⟩).bind fun o o' ho => ?_
      cases ho <;> exact .pure (.bool _)
    | _ => exact .pure (.bool true)
  | probe p e =>
    exact (hone hfirst).bind fun x x' hx => (h.forceValue hx).bind fun y y' hy => probe p hy
  | scriptDir =>
    refine (Sim.scriptDir henv).bind fun p p' hp => ?_
    subst hp
    exact .pure (.str _)
  | depth =>
    refine (Sim.perform (.depth env) (.depth env') (R := Eq) fun s s' hs =>
      ⟨hs.depth henv, hs⟩).bind fun d d' hd => ?_
    subst hd
    exact .pure (.int _)
  | trace tag e => exact (Sim.record (.tag tag)).bind fun _ _ _ => hone hfirst
  | flaky id failures e => exact (flaky id failures).bind fun _ _ _ => hone hfirst
  | save r e =>
    exact (hone hfirst).bind fun x x' hx => (Sim.perform (.save r x) (.save r x') (R := Eq)
      fun s s' hs => ⟨rfl, hs.save r hx⟩).bind fun _ _ _ => .pure hx
  | fetch r => exact fetch r

/-- Alike expressions do alike things in alike scopes. -/
theorem ofExpr {e e' : Expr} (he : e.Alike ρ e') :
    Sim n ρ (Value.Alike ρ) (Comp.ofExpr env e) (Comp.ofExpr env' e') := by
  cases he with
  | fixed he => exact h.ofFixed henv he
  | lit hv => exact .pure hv
  | pending name hb => exact lookupComplete hb name

end Expressions

end Answers

end NixKernel
