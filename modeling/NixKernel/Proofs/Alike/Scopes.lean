import NixKernel.Proofs.Alike.Values

/-!
Calls, look-ups, attribute paths and the construction of sets do not depend on addresses, as long as
requests do not.
-/

namespace NixKernel

namespace Answers

open NixKernel.Comp

variable {n : Nat} {ρ : Link} (h : Answers n ρ) {v v' w w' : Value} {env env' : Env}

include h

/-! ### Functions -/

omit h in
theorem checkArgs {args args' : Attrs Value} (ha : args.Alike ρ args') (strict : Bool)
    (param : Param) (formals : List Formal) (openEnded : Bool) :
    Comp.checkArgs strict param formals openEnded args =
      Comp.checkArgs strict param formals openEnded args' := by
  have hmissing : Comp.missing? formals args = Comp.missing? formals args' := by
    unfold Comp.missing?
    congr 2
    funext f
    rcases rel_cases (ha.get? f.name) with ⟨hv, hv'⟩ | ⟨v, v', hv, hv', -⟩ <;> rw [hv, hv']
    rfl
  unfold Comp.checkArgs Comp.unexpected?
  rw [hmissing, ha.keys]

theorem enterBody {f f' : Addr .lambda} (hf : f.Alike ρ f') (henv : env.Alike ρ env') {e e' : Expr}
    (he : e.Alike ρ e') :
    Sim n ρ (Value.Alike ρ) (Comp.enterBody f env e) (Comp.enterBody f' env' e') :=
  (Sim.record (.call hf)).bind fun _ _ _ => h.eval henv he

theorem call {f f' : Addr .lambda} (hf : f.Alike ρ f') (hv : v.Alike ρ v') :
    Sim n ρ (Value.Alike ρ) (Comp.call f v) (Comp.call f' v') := by
  refine (Sim.lambda hf).bind fun fn fn' hfn => ?_
  cases hfn with
  | none => exact .fail _
  | @some g g' hg =>
    obtain ⟨genv, param, body⟩ := g
    obtain ⟨genv', param', body'⟩ := g'
    obtain ⟨henv, hparam, hbody, hfix⟩ := hg
    dsimp only at henv hparam hbody hfix
    subst hparam hbody
    have hb : body.Alike ρ body := hfix.alike List.mem_cons_self
    cases param with
    | name x => exact h.enterBody hf (henv.withShadow (.binding x hv)) hb
    | pattern formals whole openEnded =>
      have hformals : ∀ p ∈ formals, ∀ d, p.fallback = some d → d.Alike ρ d := fun p hp d hd =>
        hfix.alike (List.mem_cons_of_mem _ (List.mem_filterMap.mpr ⟨p, hp, hd⟩))
      refine (h.forceValue hv).bind fun x x' hx => ?_
      cases hx with
      | @set a a' ha =>
        -- the check reads names only, which are the same on both sides
        refine (Sim.perform (.strict genv) (.strict genv') (R := Eq) fun s s' hs =>
          ⟨hs.strict henv, hs⟩).bind fun c c' hc => ?_
        subst hc
        refine (Sim.attrs ha).bind fun m m' hm => ?_
        rw [checkArgs hm]
        refine Sim.bind (R := Eq) ?_ fun _ _ _ => ?_
        · cases Comp.checkArgs c (.pattern formals whole openEnded) formals openEnded m' with
          | ok u => exact .pure rfl
          | error e => exact .refuse e
        · exact (Sim.perform (.openScope genv formals whole a) (.openScope genv' formals whole a')
            (R := Env.Alike ρ) fun s s' hs => hs.openScope henv hformals whole ha).bind
              fun i i' hi => h.enterBody hf hi hb
      | _ => exact .refuse _

theorem apply (hv : v.Alike ρ v') (hw : w.Alike ρ w') :
    Sim n ρ (Value.Alike ρ) (Comp.apply v w) (Comp.apply v' w') := by
  refine (h.forceValue hv).bind fun x x' hx => ?_
  cases hx with
  | lambda ha => exact h.call ha hw
  | _ => exact .refuse _

theorem applyAll (hv : v.Alike ρ v') {args args' : List Value}
    (ha : List.Forall₂ (Value.Alike ρ) args args') :
    Sim n ρ (Value.Alike ρ) (Comp.applyAll v args) (Comp.applyAll v' args') := by
  induction ha generalizing v v' with
  | nil => exact .pure hv
  | cons hw _ ih => exact (h.apply hv hw).bind fun x x' hx => ih hx

/-! ### Names and paths -/

theorem lookupBuilder {b b' : Addr .builder} (hb : b.Alike ρ b') (name : String) :
    Sim n ρ (Option.Rel (Value.Alike ρ)) (Comp.lookupBuilder b name)
      (Comp.lookupBuilder b' name) := by
  refine Sim.bind (h.build hb) fun _ _ _ => (Sim.builder hb).bind fun c c' hc => ?_
  cases hc with
  | none => exact .pure .none
  | @some c c' hc =>
    have hslot := lookup_alike hc.slots name
    have hset := hc.set
    revert hslot hset
    dsimp only
    generalize c.slots.lookup name = x, c'.slots.lookup name = x', c.set = o, c'.set = o'
    intro hslot hset
    cases hset with
    | some ha => exact (Sim.attrs ha).bind fun m m' hm => .pure (hm.get? name)
    | none =>
      cases hslot with
      | none => exact .pure .none
      | some hx =>
        cases hx with
        | leaf hv => exact .pure (.some hv)
        | tree hes =>
          exact (Sim.newThunk (.empty ρ) (.pending name (.builder hb))).bind fun t t' ht =>
            .pure (.some ht)

omit h in
/-- A frame that is settled answers at once. -/
theorem lookupFrame_settles {s : Store} {m : Attrs Value} {f : Frame} (hf : f.Settles s m)
    (name : String) : (Comp.lookupFrame name f).Ends s (.ok (m.get? name)) s := by
  have hattrs : ∀ a, s.sets.get? a = some m → (do return (← Comp.attrs a).get? name : Comp _).Ends s
      (.ok (m.get? name)) s := fun a ha =>
    Ends.bind ⟨0, runWith_attrs_ok.mpr ⟨ha, rfl⟩⟩ (ends_pure.mpr ⟨rfl, rfl⟩)
  cases f with
  | set a => exact hattrs a hf
  | binding x v => exact hf.elim
  | builder b =>
    obtain ⟨c, a, hc, ho, ha⟩ := hf
    obtain ⟨herr, hset⟩ := Builder.outcome_eq_built.mp ho
    have hbuild : (Request.build b).Ends s (.ok ()) s := by
      rw [Request.ends_run rfl]
      refine ⟨s, (perform_ends (.builder b) s).bind ?_, rfl⟩
      simp only [Action.perform, hc, herr, hset]
      exact ends_pure.mpr ⟨rfl, rfl⟩
    refine (ends_request.mpr hbuild).bind ((perform_ends (.builder b) s).bind ?_)
    simp only [Action.perform, hc, hset]
    exact hattrs a ha

theorem lookupFrame (name : String) {f f' : Frame} (hf : f.Alike ρ f') :
    Sim n ρ (Option.Rel (Value.Alike ρ)) (Comp.lookupFrame name f)
      (Comp.lookupFrame name f') := by
  cases hf with
  | set ha => exact (Sim.attrs ha).bind fun m m' hm => .pure (hm.get? name)
  | binding x hv =>
    refine .pure ?_
    split
    · exact .some hv
    · exact .none
  | builder hb => exact h.lookupBuilder hb name
  | settled hf =>
    refine .ends fun s s' hs => ?_
    obtain ⟨m, m', hm, hm', hmm⟩ := hs.settled hf
    exact ⟨_, _, s, s', lookupFrame_settles hm name, lookupFrame_settles hm' name,
      .ok (hmm.get? name), hs⟩

theorem lookupFrames (name : String) {fs fs' : List Frame}
    (hf : List.Forall₂ (Frame.Alike ρ) fs fs') :
    Sim n ρ (Option.Rel (Value.Alike ρ)) (Comp.lookupFrames name fs)
      (Comp.lookupFrames name fs') := by
  induction hf with
  | nil => exact .pure .none
  | cons hff _ ih =>
    refine (h.lookupFrame name hff).bind fun x x' hx => ?_
    cases hx with
    | none => exact ih
    | some hv => exact .pure (.some hv)

theorem lookup (henv : env.Alike ρ env') (name : String) :
    Sim n ρ (Value.Alike ρ) (Comp.lookup env name) (Comp.lookup env' name) := by
  refine (h.lookupFrames name henv.framesOf).bind fun x x' hx => ?_
  cases hx with
  | none => exact .refuse _
  | some hv => exact .pure hv

omit h in
/-- A set under construction that is settled gives its attributes. -/
theorem lookupComplete_settles {s : Store} {m : Attrs Value} {b : Addr .builder}
    (hb : Frame.Settles s m (.builder b)) (name : String) :
    (Comp.lookupComplete b name).Ends s
      (match m.get? name with | some v => .ok v | none => .error .noValue) s := by
  obtain ⟨c, a, hc, ho, ha⟩ := hb
  obtain ⟨herr, hset⟩ := Builder.outcome_eq_built.mp ho
  refine (perform_ends (.builder b) s).bind ?_
  simp only [Action.perform, hc, Option.bind_some, herr, hset]
  refine Ends.bind ⟨0, runWith_attrs_ok.mpr ⟨ha, rfl⟩⟩ ?_
  cases m.get? name with
  | none => exact ends_fail.mpr ⟨rfl, rfl⟩
  | some v => exact ends_pure.mpr ⟨rfl, rfl⟩

omit h in
theorem lookupComplete {b b' : Addr .builder} (hb : Frame.Alike ρ (.builder b) (.builder b'))
    (name : String) :
    Sim n ρ (Value.Alike ρ) (Comp.lookupComplete b name) (Comp.lookupComplete b' name) := by
  cases hb with
  | builder hb =>
    refine (Sim.builder hb).bind fun c c' hc => ?_
    cases hc with
    | none => exact .refuse _
    | @some c c' hc =>
      -- the set and the error are made variables, so that their relations can be taken apart
      have hset := hc.set
      have herr := hc.err
      revert hset herr
      dsimp only [Option.bind_some]
      generalize c.set = o, c'.set = o', c.err = x, c'.err = x'
      rintro hset rfl
      cases x with
      | some e => exact .fail e
      | none =>
        cases hset with
        | none => exact .refuse _
        | some ha =>
        refine (Sim.attrs ha).bind fun m m' hm => ?_
        rcases rel_cases (hm.get? name) with ⟨hv, hv'⟩ | ⟨v, v', hv, hv', hvv⟩
        · rw [hv, hv']
          exact .fail _
        · rw [hv, hv']
          exact .pure hvv
  | settled hf =>
    -- a frame that is settled: both sides answer from the finished sets
    refine .ends fun s s' hs => ?_
    obtain ⟨m, m', hm, hm', hmm⟩ := hs.settled hf
    refine ⟨_, _, s, s', lookupComplete_settles hm name, lookupComplete_settles hm' name, ?_, hs⟩
    rcases rel_cases (hmm.get? name) with ⟨hv, hv'⟩ | ⟨v, v', hv, hv', hvv⟩
    · rw [hv, hv']
      exact .error _
    · rw [hv, hv']
      exact .ok hvv

theorem walk {walked walked' path path' : List Value}
    (hw : List.Forall₂ (Value.Alike ρ) walked walked') (hv : v.Alike ρ v')
    (hp : List.Forall₂ (Value.Alike ρ) path path') :
    Sim n ρ (Walk.Alike ρ) (Comp.walk walked v path) (Comp.walk walked' v' path') := by
  induction hp generalizing walked walked' v v' with
  | nil => exact .pure (.found hv)
  | cons hc _ ih =>
    have hw' := List.rel_append hw (.cons hc .nil)
    refine (h.forceValue hv).bind fun x x' hx => ?_
    cases hx with
    | set ha =>
      refine (h.forceName hc).bind fun o o' ho => ?_
      subst ho
      cases o with
      | none => exact .pure (.missing hw')
      | some name =>
        refine (Sim.attrs ha).bind fun m m' hm => ?_
        rcases rel_cases (hm.get? name) with ⟨hu, hu'⟩ | ⟨u, u', hu, hu', huu⟩
        · rw [hu, hu']
          exact .pure (.missing hw')
        · rw [hu, hu']
          exact ih hw' huu
    | _ => exact .pure (.nonSet _)

theorem has (hv : v.Alike ρ v') {path path' : List Value}
    (hp : List.Forall₂ (Value.Alike ρ) path path') :
    Sim n ρ Eq (Comp.has v path) (Comp.has v' path') := by
  rw [has_eq_walk v [], has_eq_walk v' []]
  refine (h.walk .nil hv hp).bind fun x x' hx => ?_
  cases hx <;> exact .pure rfl

theorem pathNames {path path' : List Value} (hp : List.Forall₂ (Value.Alike ρ) path path') :
    Sim n ρ (List.Forall₂ Eq) (Comp.pathNames path) (Comp.pathNames path') :=
  Sim.mapM hp fun _ _ hc => (h.forceName hc).bind fun _ _ ho => .pure (by rw [ho])

theorem select (hv : v.Alike ρ v') {path path' : List Value}
    (hp : List.Forall₂ (Value.Alike ρ) path path') {d d' : Option Value}
    (hd : Option.Rel (Value.Alike ρ) d d') :
    Sim n ρ (Value.Alike ρ) (Comp.select v path d) (Comp.select v' path' d') := by
  rw [select_eq_walk, select_eq_walk]
  refine (h.walk .nil hv hp).bind fun x x' hx => ?_
  cases hx with
  | found hu => exact .pure hu
  | nonSet t =>
    cases hd with
    | none => exact .refuse _
    | some hu => exact .pure hu
  | missing hw =>
    cases hd with
    | none =>
      refine Sim.bind (Sim.attempt (h.pathNames hw)) fun r r' hr => ?_
      cases hr with
      | error e => exact .refuse _
      | ok hl =>
        rw [List.forall₂_eq_eq_eq] at hl
        subst hl
        exact .refuse _
    | some hu => exact .pure hu

/-! ### Construction -/

theorem takeApart (name : String) (hv : v.Alike ρ v') :
    Sim n ρ (List.Forall₂ (EntryOf.Alike ρ)) (Comp.takeApart name v)
      (Comp.takeApart name v') := by
  refine (h.forceValue hv).bind fun x x' hx => ?_
  cases hx with
  | set ha => exact (Sim.attrs ha).bind fun m m' hm => .pure (entriesOf_alike hm)
  | _ => exact .refuse _

omit h in
theorem slot {b b' : Addr .builder} (hb : b.Alike ρ b') (name : String) :
    Sim n ρ (Option.Rel (Slot.Alike ρ)) (Comp.slot b name) (Comp.slot b' name) := by
  refine (Sim.builder hb).bind fun c c' hc => ?_
  cases hc with
  | none => exact .pure .none
  | some hc => exact .pure (lookup_alike hc.slots name)

omit h in
theorem definition (henv : env.Alike ρ env') {rest rest' : List Expr}
    (hr : List.Forall₂ (Expr.Alike ρ) rest rest') {e e' : Expr} (he : e.Alike ρ e') :
    Sim n ρ (Slot.Alike ρ) (Comp.definition env rest e) (Comp.definition env' rest' e') := by
  cases hr with
  | nil => exact (Sim.newThunk henv he).bind fun t t' ht => .pure (.leaf ht)
  | cons hc hr => exact .pure (.tree (.cons ⟨.cons hc hr, he⟩ .nil))

section Builders

variable {b b' : Addr .builder} (hb : b.Alike ρ b')

include hb

omit h in
theorem collect (name : String) {es es' : List Entry}
    (he : List.Forall₂ (EntryOf.Alike ρ) es es') :
    Sim n ρ Eq (Comp.collect b name es) (Comp.collect b' name es') := by
  refine (slot hb name).bind fun x x' hx => ?_
  cases hx with
  | none => exact .setSlot hb name (.tree he) false
  | some hx =>
    cases hx with
    | leaf hv => exact .setSlot hb name (.tree he) false
    | tree ho => exact .setSlot hb name (.tree (List.rel_append ho he)) false

theorem merge (name : String) {old old' new new' : Slot} (ho : old.Alike ρ old')
    (hn : new.Alike ρ new') :
    Sim n ρ Eq (Comp.merge b name old new) (Comp.merge b' name old' new') := by
  cases ho with
  | leaf hv =>
    cases hn with
    | leaf hw => exact .refuse _
    | tree he =>
      exact (h.takeApart name hv).bind fun l l' hl =>
        .setSlot hb name (.tree (List.rel_append hl he)) false
  | tree ho =>
    cases hn with
    | leaf hw => exact (h.takeApart name hw).bind fun l l' hl => collect hb name hl
    | tree he => exact collect hb name he

theorem define (henv : env.Alike ρ env') {d d' : Entry} (hd : d.Alike ρ d') :
    Sim n ρ Eq (Comp.define b env d) (Comp.define b' env' d') := by
  obtain ⟨path, e⟩ := d
  obtain ⟨path', e'⟩ := d'
  obtain ⟨hp, he⟩ := hd
  dsimp only at hp he
  cases hp with
  | nil => exact .refuse _
  | cons hc hr =>
    refine Sim.bind (h.eval henv hc) fun x x' hx => (h.forceName hx).bind fun o o' ho => ?_
    subst ho
    cases o with
    | none => exact .pure rfl
    | some name =>
      refine (definition henv hr he).bind fun new new' hnew => ?_
      refine (slot hb name).bind fun old old' hold => ?_
      cases hold with
      | none => exact .setSlot hb name hnew true
      | some hold => exact h.merge hb name hold hnew

theorem takeEntries (m : Nat) : Sim n ρ Eq (Comp.takeEntries b m) (Comp.takeEntries b' m) := by
  induction m with
  | zero => exact .pure rfl
  | succ m ih =>
    refine Sim.bind (h.entry hb) fun c c' hc => ?_
    subst hc
    cases c with
    | true => exact ih
    | false => exact .pure rfl

theorem buildSet : Sim n ρ Eq (Comp.build b) (Comp.build b') := by
  refine (Sim.builder hb).bind fun c c' hc => ?_
  cases hc with
  | none => exact .pure rfl
  | @some c c' hc =>
    have hset := hc.set
    have herr := hc.err
    have hsize : c.entries.size = c'.entries.size := hc.entries.length_eq
    revert hset herr hsize
    dsimp only
    generalize c.set = o, c'.set = o', c.err = x, c'.err = x', c.entries.size = m,
      c'.entries.size = m'
    rintro hset rfl rfl
    cases x with
    | some e => exact .fail e
    | none =>
      cases hset with
      | some ha => exact .pure rfl
      | none =>
      refine (h.takeEntries hb _).bind fun _ _ _ => (Sim.builder hb).bind fun d d' hd => ?_
      cases hd with
      | none => exact .pure rfl
      | @some d d' hd =>
        have hactive := hd.active
        revert hactive
        dsimp only [Option.map_some]
        generalize d.active = i, d'.active = i'
        intro hactive
        subst hactive
        cases i with
        | zero => exact Sim.bind (h.assemble hb) fun _ _ _ => .pure rfl
        | succ i => exact .pure rfl

end Builders

theorem construct (henv : env.Alike ρ env') {es es' : List Entry}
    (he : List.Forall₂ (EntryOf.Alike ρ) es es') (recursive : Bool) :
    Sim n ρ (Addr.Alike ρ) (Comp.construct env es recursive)
      (Comp.construct env' es' recursive) := by
  refine (Sim.newBuilder henv he recursive).bind fun b b' hb => ?_
  refine Sim.bind (h.build hb) fun _ _ _ => (Sim.builder hb).bind fun c c' hc => ?_
  cases hc with
  | none => exact .refuse _
  | @some c c' hc =>
    have hset := hc.set
    revert hset
    dsimp only [Option.bind_some]
    generalize c.set = o, c'.set = o'
    intro hset
    cases hset with
    | some ha => exact .pure ha
    | none => exact .refuse _

theorem slotValue (henv : env.Alike ρ env') {x x' : Slot} (hx : x.Alike ρ x') :
    Sim n ρ (Value.Alike ρ) (Comp.slotValue env x) (Comp.slotValue env' x') := by
  cases hx with
  | leaf hv => exact .pure hv
  | tree he => exact (h.construct henv he false).bind fun a a' ha => .pure (.set ha)

theorem assembleSet {b b' : Addr .builder} (hb : b.Alike ρ b') :
    Sim n ρ (Addr.Alike ρ) (Comp.assemble b) (Comp.assemble b') := by
  refine (Sim.builder hb).bind fun c c' hc => ?_
  cases hc with
  | none => exact .pure ρ.empty
  | @some c c' hc =>
    have hnames : List.Forall₂ Eq c.order c'.order := by
      rw [List.forall₂_eq_eq_eq]
      exact hc.order
    refine Sim.bind (Sim.mapM hnames (R := Binding (Value.Alike ρ)) fun name name' hname => ?_)
      fun l l' hl => .performNewSet (.ofList hl)
    subst hname
    exact (Sim.ofCell (lookup_alike hc.slots name)).bind fun x x' hx =>
      (h.slotValue hc.env hx).bind fun v v' hv => .pure ⟨rfl, hv⟩

theorem letScope (henv : env.Alike ρ env') {es es' : List Entry}
    (he : List.Forall₂ (EntryOf.Alike ρ) es es') :
    Sim n ρ (Env.Alike ρ) (Comp.letScope env es) (Comp.letScope env' es') := by
  refine (Sim.newBuilder henv he true).bind fun b b' hb => ?_
  refine Sim.bind (h.build hb) fun _ _ _ => (Sim.builder hb).bind fun c c' hc => ?_
  cases hc with
  | none => exact .pure henv
  | some hc => exact .pure hc.env

end Answers

end NixKernel
