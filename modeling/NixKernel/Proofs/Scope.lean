import NixKernel.Proofs.Let

/-!
The two chains of a scope. However the frames of let, recursive sets and parameters and the
namespaces of with have been added, a name is looked for in the first from the innermost frame
outwards, and only if none of them binds it in the namespaces, again from the innermost outwards. So
the order in which the two sorts have been mixed does not matter.
-/

namespace NixKernel

variable {s s' s₁ : Store} {name : String} {f : Frame} {fs gs : List Frame}

/-! ### Extensions -/

/-- A way to make a scope larger: by a frame, or by a namespace. -/
inductive Extension where
  | frame (f : Frame)
  | names (a : Addr .set)

namespace Extension

def frame? : Extension → Option Frame
  | frame f => some f
  | names _ => none

def names? : Extension → Option (Addr .set)
  | frame _ => none
  | names a => some a

/-- The frames among some extensions. -/
def frames (xs : List Extension) : List Frame := xs.filterMap frame?

/-- The namespaces among some extensions. -/
def namespaces (xs : List Extension) : List (Addr .set) := xs.filterMap names?

end Extension

/-- The scope after some extensions, the first one the outermost. -/
def Env.extend (env : Env) : List Extension → Env
  | [] => env
  | .frame f :: xs => (env.withShadow f).extend xs
  | .names a :: xs => (env.withNamespace a).extend xs

namespace Env

theorem extend_shadow (env : Env) (xs : List Extension) :
    (env.extend xs).shadow = (Extension.frames xs).reverse ++ env.shadow := by
  induction xs generalizing env with
  | nil => simp [extend, Extension.frames]
  | cons x xs ih =>
    cases x with
    | frame f => simp [extend, ih, Extension.frames, Extension.frame?, withShadow]
    | names a => exact ih (env.withNamespace a)

theorem extend_namespaces (env : Env) (xs : List Extension) :
    (env.extend xs).namespaces = (Extension.namespaces xs).reverse ++ env.namespaces := by
  induction xs generalizing env with
  | nil => simp [extend, Extension.namespaces]
  | cons x xs ih =>
    cases x with
    | frame f => exact ih (env.withShadow f)
    | names a => simp [extend, ih, Extension.namespaces, Extension.names?, withNamespace]

end Env

/-! ### Asking frames -/

namespace Frame

/-- What a frame answers for a name. A set has an attribute stored under it or not, a parameter has
the one name or not, and neither has an effect; a set under construction answers as it does when it
is asked directly. -/
inductive Answers (name : String) : Frame → Store → Except Error (Option Value) → Store → Prop
  | set {a : Addr .set} {m : Attrs Value} {s : Store} (h : s.sets.get? a = some m) :
      Answers name (.set a) s (.ok (m.get? name)) s
  | nowhere {a : Addr .set} {s : Store} (h : s.sets.get? a = none) :
      Answers name (.set a) s (.error .noValue) s
  | same (v : Value) (s : Store) : Answers name (.binding name v) s (.ok (some v)) s
  | other {x : String} (h : name ≠ x) (v : Value) (s : Store) :
      Answers name (.binding x v) s (.ok none) s
  | builder {b : Addr .builder} {s s' : Store} {r : Except Error (Option Value)}
      (h : (Comp.lookupBuilder b name).Ends s r s') : Answers name (.builder b) s r s'

/-- The frames have been asked one after the other, and none of them binds the name. -/
inductive Passed (name : String) : List Frame → Store → Store → Prop
  | nil (s : Store) : Passed name [] s s
  | cons {f : Frame} {fs : List Frame} {s s₁ s' : Store} (h : f.Answers name s (.ok none) s₁)
      (rest : Passed name fs s₁ s') : Passed name (f :: fs) s s'

/-- What a name comes to in frames that are asked one after the other: the first of them that binds
it gives the value, one that fails before that gives its error, and if there is neither the name is
not bound. -/
inductive Resolves (name : String) (fs : List Frame) (s : Store) :
    Except Error Value → Store → Prop
  | bound {before after : List Frame} {f : Frame} {s₁ s' : Store} {v : Value}
      (order : fs = before ++ f :: after) (passed : Passed name before s s₁)
      (answer : f.Answers name s₁ (.ok (some v)) s') : Resolves name fs s (.ok v) s'
  | failed {before after : List Frame} {f : Frame} {s₁ s' : Store} {e : Error}
      (order : fs = before ++ f :: after) (passed : Passed name before s s₁)
      (answer : f.Answers name s₁ (.error e) s') : Resolves name fs s (.error e) s'
  | unbound {s' : Store} (passed : Passed name fs s s') :
      Resolves name fs s (.error (.eval (.unbound name))) s'

/-- Frames that have been passed one after the other. -/
theorem Passed.of_append (h : Passed name (fs ++ gs) s s') :
    ∃ s₁, Passed name fs s s₁ ∧ Passed name gs s₁ s' := by
  induction fs generalizing s with
  | nil => exact ⟨s, .nil s, h⟩
  | cons f fs ih =>
    cases h with
    | cons hf hrest =>
      obtain ⟨s₁, h₁, h₂⟩ := ih hrest
      exact ⟨s₁, .cons hf h₁, h₂⟩

/-- If not all of the frames are passed, the frame that decides is one of them. -/
theorem Passed.within {before after : List Frame} (h : Passed name before s s₁)
    (horder : fs ++ gs = before ++ f :: after) (hbound : ¬ ∃ s', Passed name fs s s') :
    ∃ after', fs = before ++ f :: after' := by
  rcases List.append_eq_append_iff.mp horder with ⟨c, rfl, -⟩ | ⟨c, rfl, hc⟩
  · obtain ⟨s₂, hfs, -⟩ := h.of_append
    exact absurd ⟨s₂, hfs⟩ hbound
  · cases c with
    | nil =>
      rw [List.append_nil] at hbound
      exact absurd ⟨s₁, h⟩ hbound
    | cons g c =>
      obtain ⟨rfl, -⟩ := List.cons.inj hc
      exact ⟨c, rfl⟩

/-- What is behind the frames that decide a name is not asked. -/
theorem resolves_append {r : Except Error Value} (hbound : ¬ ∃ s₁, Passed name fs s s₁) :
    Resolves name (fs ++ gs) s r s' ↔ Resolves name fs s r s' := by
  constructor
  · intro h
    cases h with
    | bound order passed answer =>
      obtain ⟨after', horder⟩ := passed.within order hbound
      exact .bound horder passed answer
    | failed order passed answer =>
      obtain ⟨after', horder⟩ := passed.within order hbound
      exact .failed horder passed answer
    | unbound passed =>
      obtain ⟨s₁, hfs, -⟩ := passed.of_append
      exact absurd ⟨s₁, hfs⟩ hbound
  · intro h
    have hbehind : ∀ before after : List Frame, ∀ f, fs = before ++ f :: after →
        fs ++ gs = before ++ f :: (after ++ gs) := by
      rintro before after f rfl
      simp
    cases h with
    | bound order passed answer => exact .bound (hbehind _ _ _ order) passed answer
    | failed order passed answer => exact .failed (hbehind _ _ _ order) passed answer
    | unbound passed => exact absurd ⟨_, passed⟩ hbound

end Frame

namespace Comp

section Kinds

variable {r : Except Error (Option Value)}

theorem lookupFrame_set_ends {a : Addr .set} :
    (lookupFrame name (.set a)).Ends s r s' ↔ (Frame.set a).Answers name s r s' := by
  cases ha : s.sets.get? a with
  | none =>
    have hfail : (lookupFrame name (.set a)).Ends s (.error .noValue) s := by
      refine Ends.bind_error ((perform_ends (.attrs a) s).bind ?_)
      simp only [Action.perform, ha]
      exact ends_fail.mpr ⟨rfl, rfl⟩
    constructor
    · intro h
      obtain ⟨rfl, rfl⟩ := h.unique hfail
      exact .nowhere ha
    · intro h
      cases h with
      | set h => cases ha.symm.trans h
      | nowhere h => exact hfail
  | some m =>
    have hlookup : (lookupFrame name (.set a)).Ends s (.ok (m.get? name)) s :=
      (ends_attrs.mpr ⟨ha, rfl⟩).bind (ends_pure.mpr ⟨rfl, rfl⟩)
    constructor
    · intro h
      obtain ⟨rfl, rfl⟩ := h.unique hlookup
      exact .set ha
    · intro h
      cases h with
      | set h =>
        cases ha.symm.trans h
        exact hlookup
      | nowhere h => cases ha.symm.trans h

theorem lookupFrame_binding_ends {x : String} {v : Value} :
    (lookupFrame name (.binding x v)).Ends s r s' ↔ (Frame.binding x v).Answers name s r s' := by
  rw [lookupFrame, ends_pure]
  by_cases hx : name = x
  · subst hx
    rw [if_pos rfl]
    constructor
    · rintro ⟨rfl, rfl⟩
      exact .same v _
    · intro h
      cases h with
      | same => exact ⟨rfl, rfl⟩
      | other hne => exact absurd rfl hne
  · rw [if_neg hx]
    constructor
    · rintro ⟨rfl, rfl⟩
      exact .other hx v _
    · intro h
      cases h with
      | same => exact absurd rfl hx
      | other => exact ⟨rfl, rfl⟩

theorem lookupFrame_ends : (lookupFrame name f).Ends s r s' ↔ f.Answers name s r s' := by
  cases f with
  | set a => exact lookupFrame_set_ends
  | binding x v => exact lookupFrame_binding_ends
  | builder b =>
    constructor
    · exact .builder
    · intro h
      cases h with
      | builder h => exact h

end Kinds

/-- Frames are asked until one of them binds the name or fails. -/
theorem lookupFrames_ends {r : Except Error (Option Value)} :
    (lookupFrames name fs).Ends s r s' ↔
      (Frame.Passed name fs s s' ∧ r = .ok none) ∨
      ∃ before f after s₁, fs = before ++ f :: after ∧ Frame.Passed name before s s₁ ∧
        f.Answers name s₁ r s' ∧ r ≠ .ok none := by
  -- on the frames; each one is passed, or it decides
  induction fs generalizing s with
  | nil =>
    rw [lookupFrames, ends_pure]
    constructor
    · rintro ⟨rfl, rfl⟩
      exact .inl ⟨.nil _, rfl⟩
    · rintro (⟨hpass, rfl⟩ | ⟨before, f, after, s₁, horder, -⟩)
      · cases hpass
        exact ⟨rfl, rfl⟩
      · simp at horder
  | cons f fs ih =>
    constructor
    · intro h
      rcases ends_bind_iff.mp h with ⟨o, s₁, ho, h⟩ | ⟨e, he, rfl⟩
      · rw [lookupFrame_ends] at ho
        cases o with
        | some v =>
          obtain ⟨rfl, rfl⟩ := ends_pure.mp h
          exact .inr ⟨[], f, fs, s, rfl, .nil s, ho, by simp⟩
        | none =>
          rcases ih.mp h with ⟨hpass, rfl⟩ | ⟨before, g, after, s₂, rfl, hpass, hg, hr⟩
          · exact .inl ⟨.cons ho hpass, rfl⟩
          · exact .inr ⟨f :: before, g, after, s₂, rfl, .cons ho hpass, hg, hr⟩
      · exact .inr ⟨[], f, fs, s, rfl, .nil s, lookupFrame_ends.mp he, by simp⟩
    · rintro (⟨hpass, rfl⟩ | ⟨before, g, after, s₁, horder, hpass, hg, hr⟩)
      · cases hpass with
        | cons hf hrest => exact (lookupFrame_ends.mpr hf).bind (ih.mpr (.inl ⟨hrest, rfl⟩))
      · cases hpass with
        | nil =>
          obtain ⟨rfl, rfl⟩ := List.cons.inj horder
          have hf := lookupFrame_ends.mpr hg
          cases r with
          | error e => exact hf.bind_error
          | ok o =>
            cases o with
            | none => exact absurd rfl hr
            | some v => exact hf.bind (ends_pure.mpr ⟨rfl, rfl⟩)
        | cons hf hrest =>
          obtain ⟨rfl, rfl⟩ := List.cons.inj horder
          exact (lookupFrame_ends.mpr hf).bind (ih.mpr (.inr ⟨_, g, after, s₁, rfl, hrest, hg, hr⟩))

/-- A name is looked up in the frames of a scope, and then in its namespaces. -/
theorem lookup_ends {env : Env} {r : Except Error Value} :
    (lookup env name).Ends s r s' ↔ Frame.Resolves name (framesOf env) s r s' := by
  constructor
  · intro h
    rcases ends_bind_iff.mp h with ⟨o, s₁, ho, h⟩ | ⟨e, he, rfl⟩
    · rcases lookupFrames_ends.mp ho with
        ⟨hpass, hr⟩ | ⟨before, f, after, s₂, horder, hpass, hf, hr⟩
      · cases hr
        obtain ⟨rfl, rfl⟩ := ends_refuse.mp h
        exact .unbound hpass
      · cases o with
        | none => exact absurd rfl hr
        | some v =>
          obtain ⟨rfl, rfl⟩ := ends_pure.mp h
          exact .bound horder hpass hf
    · rcases lookupFrames_ends.mp he with ⟨-, hr⟩ | ⟨before, f, after, s₂, horder, hpass, hf, -⟩
      · cases hr
      · exact .failed horder hpass hf
  · intro h
    cases h with
    | bound order passed answer =>
      exact (lookupFrames_ends.mpr (.inr ⟨_, _, _, _, order, passed, answer, by simp⟩)).bind
        (ends_pure.mpr ⟨rfl, rfl⟩)
    | failed order passed answer =>
      exact (lookupFrames_ends.mpr
        (.inr ⟨_, _, _, _, order, passed, answer, by simp⟩)).bind_error
    | unbound passed =>
      exact (lookupFrames_ends.mpr (.inl ⟨passed, rfl⟩)).bind (ends_refuse.mpr ⟨rfl, rfl⟩)

end Comp

/-! ### Names that are bound -/

namespace Frame

/-- A frame binds a name for good: it is a parameter of that name, or a set or a finished
construction with that attribute. -/
def Binds (s : Store) (name : String) (f : Frame) : Prop :=
  (∃ v, f = .binding name v) ∨ ∃ m v, f.Settles s m ∧ m.get? name = some v

/-- What is settled stays so when a frame is asked. -/
theorem Settles.asked {g : Frame} {m : Attrs Value} {r : Except Error (Option Value)}
    (hg : g.Settles s m) (h : f.Answers name s r s') : g.Settles s' m := by
  have hends := Comp.lookupFrame_ends.mpr h
  refine hg.mono (Store.later_law.ends hends).set ?_
  rintro b rfl
  obtain ⟨d, a, hd, hout, -⟩ := hg
  have hover : d.outcome ≠ .underway := by
    rw [hout]
    exact nofun
  have hfair := (Rules.sparing_permits b d).lookupFrame name f s hd
  rw [hd, hfair.settled hover hd hends]

theorem Binds.asked {g : Frame} {r : Except Error (Option Value)} (hg : g.Binds s name)
    (h : f.Answers name s r s') : g.Binds s' name := by
  rcases hg with hg | ⟨m, v, hm, hv⟩
  · exact .inl hg
  · exact .inr ⟨m, v, hm.asked h, hv⟩

theorem Binds.answer {r : Except Error (Option Value)} (hf : f.Binds s name)
    (h : f.Answers name s r s') : r ≠ .ok none := by
  rintro rfl
  rcases hf with ⟨v, rfl⟩ | ⟨m, v, hm, hv⟩
  · cases h with
    | other hne => exact hne rfl
  · have hfound := (Answers.lookupFrame_settles hm name).unique (Comp.lookupFrame_ends.mpr h)
    rw [hv] at hfound
    cases hfound.1

/-- A frame that binds a name for good is not passed. -/
theorem Binds.not_passed (hf : f.Binds s name) (hmem : f ∈ fs) : ¬ ∃ s₁, Passed name fs s s₁ := by
  rintro ⟨s₁, h⟩
  induction h with
  | nil => simp at hmem
  | cons hg hrest ih =>
    rcases List.mem_cons.mp hmem with rfl | hmem
    · exact hf.answer hg rfl
    · exact ih (hf.asked hg) hmem

end Frame

/-! ### The names of every root scope -/

theorem Store.Reachable.globals (h : s.Reachable) :
    s.sets.get? .globals = some globalBindings := by
  refine h.induction (P := fun s => s.sets.get? .globals = some globalBindings) rfl
    fun {s s'} hs hp => ?_
  cases hp with
  | run hr => exact (later_law.ends hr).set hs
  | _ => exact hs

theorem Machine.Reachable.globals {ρ : Type} {m : Machine ρ} (h : m.Reachable) :
    m.store.sets.get? .globals = some Store.globalBindings := by
  obtain ⟨c, s, hs, hp⟩ := h
  exact hp.sets hs.globals

/-- The set of the global names binds them. -/
theorem Machine.Reachable.binds {ρ : Type} {m : Machine ρ} (h : m.Reachable)
    (hname : Store.isGlobal name = true) : (Frame.set .globals).Binds m.store name := by
  obtain ⟨v, hv⟩ := Option.isSome_iff_exists.mp hname
  exact .inr ⟨Store.globalBindings, v, h.globals, hv⟩

/-! ### Both chains -/

theorem Env.framesOf_extend (env : Env) (xs : List Extension) :
    Comp.framesOf (env.extend xs) = (Extension.frames xs).reverse ++ env.shadow ++
      ((Extension.namespaces xs).reverse ++ env.namespaces).map Frame.set := by
  rw [Comp.framesOf, extend_shadow, extend_namespaces]

/-- Namespaces do not matter for a name that the frames decide. -/
theorem Env.lookup_frames {env : Env} {xs ys : List Extension}
    (hxy : Extension.frames ys = Extension.frames xs)
    (hbound : ¬ ∃ s₁, Frame.Passed name (env.extend xs).shadow s s₁) (r : Except Error Value)
    (s' : Store) :
    (Comp.lookup (env.extend ys) name).Ends s r s' ↔
      (Comp.lookup (env.extend xs) name).Ends s r s' := by
  have hshadow : (env.extend ys).shadow = (env.extend xs).shadow := by
    rw [extend_shadow, extend_shadow, hxy]
  rw [Comp.lookup_ends, Comp.lookup_ends, Comp.framesOf, Comp.framesOf, hshadow,
    Frame.resolves_append hbound, Frame.resolves_append hbound]

/-- **A name is resolved in two chains.** In a scope that has been extended in any way, the frames
are asked for a name from the innermost outwards, and if none of them binds it the namespaces are;
the first that binds it gives its value, one that fails before gives its error, and else the name is
not bound. So extensions with the same frames and the same namespaces, mixed in whatever order and
on whatever thread, resolve every name alike. And no namespaces make a difference for a name that is
not passed by all frames: one that a parameter, a set or a finished construction among them binds,
and in a root scope each of the global names. -/
theorem scope_resolution (env : Env) (xs : List Extension) (name : String) :
    (∀ s r s', (Comp.lookup (env.extend xs) name).Ends s r s' ↔
      Frame.Resolves name ((Extension.frames xs).reverse ++ env.shadow ++
        ((Extension.namespaces xs).reverse ++ env.namespaces).map Frame.set) s r s') ∧
    (∀ (env' : Env) (ys : List Extension), env'.shadow = env.shadow →
      env'.namespaces = env.namespaces → Extension.frames ys = Extension.frames xs →
      Extension.namespaces ys = Extension.namespaces xs →
      ∀ s : Store, s.SameNames (env'.extend ys) (env.extend xs)) ∧
    (∀ ys : List Extension, Extension.frames ys = Extension.frames xs →
      ∀ s : Store, (¬ ∃ s₁, Frame.Passed name (env.extend xs).shadow s s₁) →
      ∀ r s', (Comp.lookup (env.extend ys) name).Ends s r s' ↔
        (Comp.lookup (env.extend xs) name).Ends s r s') ∧
    (∀ f ∈ (env.extend xs).shadow, ∀ s : Store, f.Binds s name →
      ¬ ∃ s₁, Frame.Passed name (env.extend xs).shadow s s₁) ∧
    ∀ {ρ : Type} (m : Machine ρ) (s : Store) (t : Addr .thread), m.Reachable →
      env = (s.newEnv t).1 → Store.isGlobal name = true →
      ¬ ∃ s₁, Frame.Passed name (env.extend xs).shadow m.store s₁ := by
  refine ⟨fun s r s' => ?_, fun env' ys hshadow hnames hframes hspaces s name r s' => ?_,
    fun ys hframes s hbound => Env.lookup_frames hframes hbound,
    fun f hf s hbinds => hbinds.not_passed hf, fun m s t hm henv hname => ?_⟩
  · rw [Comp.lookup_ends, Env.framesOf_extend]
  · rw [Comp.lookup_ends, Comp.lookup_ends, Env.framesOf_extend, Env.framesOf_extend, hshadow,
      hnames, hframes, hspaces]
  · refine (hm.binds hname).not_passed ?_
    rw [Env.extend_shadow, henv]
    exact List.mem_append_right _ List.mem_cons_self

/-- The entries of `{ true = 1; x = 2; y = 3; }`. -/
def Entry.rivals : List Entry :=
  [⟨[.string "true"], .lit (.int 1)⟩, ⟨[.string "x"], .lit (.int 2)⟩,
    ⟨[.string "y"], .lit (.int 3)⟩]

/-- A namespace that has the name of a parameter, a global name and a name of its own: whether the
parameter is inside it or around it, only the last is taken from it. -/
theorem scope_resolution_rivals : ∃ (s : Store) (a : Addr .set) (env : Env),
    s.Reachable ∧ env = (Store.initial.newEnv ⟨0⟩).1 ∧
    (Comp.construct .empty Entry.rivals false).Ends .initial (.ok a) s ∧
    s.SameNames (env.extend [.frame (.binding "x" .null), .names a])
      (env.extend [.names a, .frame (.binding "x" .null)]) ∧
    (Comp.lookup (env.extend [.frame (.binding "x" .null), .names a]) "x").Ends s (.ok .null) s ∧
    (Comp.lookup (env.extend [.names a]) "true").Ends s (.ok (.bool true)) s ∧
    (Comp.lookup (env.extend [.names a]) "y").Ends s (.ok (.thunk ⟨2⟩)) s := by
  obtain ⟨s, hrun⟩ : ∃ s, (Comp.construct .empty Entry.rivals false).run 5 .initial =
    some (.ok ⟨3⟩, s) := ⟨_, rfl⟩
  have hcons : (Comp.construct .empty Entry.rivals false).Ends .initial (.ok ⟨3⟩) s := ⟨5, hrun⟩
  have hreach : s.Reachable := Store.Reachable.step (.refl _) (.run hcons)
  have hset : (s.sets.get? ⟨3⟩).map (·.get? "y") = some (some (.thunk ⟨2⟩)) := by
    cases hrun
    rfl
  obtain ⟨m, hm, hy⟩ := Option.map_eq_some_iff.mp hset
  refine ⟨s, ⟨3⟩, _, hreach, rfl, hcons, ?_, ?_, ?_, ?_⟩
  · exact (scope_resolution _ _ "x").2.1 _ _ rfl rfl rfl rfl s
  · obtain ⟨-, -, hnames, hbinds, -⟩ := scope_resolution (Store.initial.newEnv ⟨0⟩).1
      [.frame (.binding "x" .null)] "x"
    refine (hnames _ rfl s (hbinds _ List.mem_cons_self s (.inl ⟨_, rfl⟩)) _ s).mpr ?_
    have hx : Frame.Answers "x" (.binding "x" .null) s (.ok (some .null)) s := .same _ s
    exact Comp.lookup_ends.mpr (.bound (List.nil_append _).symm (.nil s) hx)
  · obtain ⟨-, -, hnames, -, hglobal⟩ := scope_resolution (Store.initial.newEnv ⟨0⟩).1 [] "true"
    have hpassed := hglobal (.load (pure ()) s) .initial ⟨0⟩ ⟨_, s, hreach, .refl _⟩ rfl rfl
    refine (hnames [.names ⟨3⟩] rfl s hpassed _ s).mpr ?_
    have htrue : Frame.Answers "true" (.set .globals) s (.ok (some (.bool true))) s :=
      .set hreach.globals
    exact Comp.lookup_ends.mpr (.bound (List.nil_append _).symm (.nil s) htrue)
  · have hy : Frame.Answers "y" (.set ⟨3⟩) s (.ok (some (.thunk ⟨2⟩))) s := hy ▸ .set hm
    have hpassed : Frame.Passed "y" [.set .globals] s s := .cons (.set hreach.globals) (.nil s)
    exact ((scope_resolution _ [.names ⟨3⟩] "y").1 s _ s).mpr (.bound rfl hpassed hy)

end NixKernel
