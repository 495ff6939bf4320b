import NixKernel.Proofs.Alike.Over
import NixKernel.Proofs.Alike.Run
import NixKernel.Proofs.Builder.Lookup

/-!
A let is a recursive set and a scope with it. The scope of the body holds the set under construction
itself, and so does whatever is made in the body; but it is finished by then, and a finished
construction answers every name just as its set does. So nothing that is evaluated, now or later,
can tell one frame from the other. Only if an entry goes on after the error of another one, the set
is there and the construction has failed all the same.
-/

namespace NixKernel

variable {s s' : Store}

/-! ### The scope of a let -/

section Scope

variable {env : Env} {entries : List Entry}

/-- The set of an assembly is there. -/
theorem Request.assemble_set {b : Addr .builder} {d : Builder} {a : Addr .set}
    (hb : s.builders.get? b = some d) (hr : (Request.assemble b).Ends s (.ok a) s') :
    ∃ m, s'.sets.get? a = some m := by
  obtain ⟨s₂, h₂, rfl⟩ := (Request.ends_run (q := .assemble b) rfl).mp hr
  have hb₁ : (s.builders.modify b fun c => { c with active := c.active + 1 }).get? b =
      some { d with active := d.active + 1 } :=
    Heap.get?_modify_self hb _
  replace h₂ := (Comp.perform_ends (.builder b) _).bind_iff.mp h₂
  simp only [Action.perform, Store.record, hb₁] at h₂
  obtain ⟨l, s₃, -, h₃⟩ := Comp.ends_bind_ok.mp h₂
  obtain ⟨ha, rfl⟩ := Comp.ends_perform.mp h₃
  cases ha
  exact ⟨_, Heap.get?_push_next _ _⟩

/-- A recursive set that has been constructed has itself in its scope. -/
theorem Comp.construct_recursive {a : Addr .set}
    (h : (Comp.construct env entries true).Ends s (.ok a) s') :
    ∃ d, s'.builders.get? s.builders.next = some d ∧
      d.env = env.withShadow (.builder s.builders.next) ∧ d.set = some a := by
  have hb : (s.newBuilder env entries true).2.builders.get? s.builders.next = some _ :=
    Heap.get?_push_next _ _
  obtain ⟨hbuild, hdone⟩ := Comp.construct_settles h
  obtain ⟨d, hd, hset⟩ := hdone a rfl
  obtain ⟨d', hb', hages⟩ := (Store.ages_law.ends (Comp.ends_request.mpr hbuild)).builder hb
  cases hd.symm.trans hb'
  exact ⟨d, hd, hages.env, hset⟩

/-- If no expression goes on after an error, the construction of a set is finished when there is a
set. -/
theorem Comp.construct_settled {a : Addr .set} (hs : s.Propagates)
    (he : ∀ e ∈ entries, e.All Expr.Propagates)
    (h : (Comp.construct env entries true).Ends s (.ok a) s') :
    ∃ d m, s'.builders.get? s.builders.next = some d ∧ d.outcome = .built a ∧
      s'.sets.get? a = some m := by
  have hb : (s.newBuilder env entries true).2.builders.get? s.builders.next = some _ :=
    Heap.get?_push_next _ _
  have hs₀ : (s.newBuilder env entries true).2.Propagates :=
    Store.All.perform (a := .newBuilder env entries true) hs he
  obtain ⟨hbuild, hdone⟩ := Comp.construct_settles h
  obtain ⟨d, hd, hset⟩ := hdone a rfl
  have hout : d.outcome = .built a :=
    Builder.outcome_eq_built.mpr ⟨Request.build_err hs₀ hb hbuild hd, hset⟩
  obtain ⟨s₁, a', hfirm, -, -, -, hasm⟩ := Request.build_taken hs₀ hb rfl rfl hbuild
  obtain ⟨d₁, hb₁, -⟩ := hfirm.ages.builder hb
  obtain ⟨d₂, hb₂, ⟨a₂, ha₂, hset₂⟩ | ⟨e, he, -⟩⟩ := Request.assemble_settles hb₁ hasm
  · cases ha₂
    cases hd.symm.trans hb₂
    cases hset.symm.trans hset₂
    obtain ⟨m, hm⟩ := Request.assemble_set hb₁ hasm
    exact ⟨d, m, hd, hout, hm⟩
  · cases he

/-- The scope of a let is made as the recursive set of its entries is. -/
theorem Comp.letScope_ends {r : Except Error Env} :
    (Comp.letScope env entries).Ends s r s' ↔
      ∃ r', (Comp.construct env entries true).Ends s r' s' ∧
        r = r'.map fun _ => env.withShadow (.builder s.builders.next) := by
  have hnew := Comp.perform_ends (.newBuilder env entries true) s
  have hb : (s.newBuilder env entries true).2.builders.get? s.builders.next = some _ :=
    Heap.get?_push_next _ _
  have hscope : ∀ {r' s'}, (Comp.construct env entries true).Ends s r' s' →
      (Comp.letScope env entries).Ends s
        (r'.map fun _ => env.withShadow (.builder s.builders.next)) s' := by
    intro r' s' h
    have hbuild := Comp.ends_request.mpr (Comp.construct_settles h).1
    cases r' with
    | error e => exact hnew.bind hbuild.bind_error
    | ok a =>
      obtain ⟨d, hd, henv, -⟩ := Comp.construct_recursive h
      refine hnew.bind (hbuild.bind ((Comp.perform_ends (.builder s.builders.next) s').bind ?_))
      refine Comp.ends_pure.mpr ⟨?_, rfl⟩
      rw [Action.perform, hd, Option.map_some, henv]
      rfl
  constructor
  · intro h
    -- the set under construction comes to the same in both
    obtain ⟨r', s₁, hset⟩ : ∃ r' s₁, (Comp.construct env entries true).Ends s r' s₁ := by
      rcases Comp.ends_bind_iff.mp (hnew.bind_iff.mp h) with ⟨u, s₁, h₁, -⟩ | ⟨e, h₁, -⟩
      · obtain ⟨d, hd, a, hset⟩ := Request.build_ended hb rfl (Comp.ends_request.mp h₁)
        refine ⟨.ok a, s₁, hnew.bind (h₁.bind ((Comp.perform_ends (.builder _) s₁).bind ?_))⟩
        have hbuilt : ((Action.builder s.builders.next).perform s₁).1.bind Builder.set = some a :=
          (congrArg (Option.bind · Builder.set) hd).trans hset
        exact hbuilt ▸ Comp.ends_pure.mpr ⟨rfl, rfl⟩
      · exact ⟨.error e, s', hnew.bind h₁.bind_error⟩
    obtain ⟨rfl, rfl⟩ := h.unique (hscope hset)
    exact ⟨r', hset, rfl⟩
  · rintro ⟨r', hset, rfl⟩
    exact hscope hset

end Scope

/-! ### Names -/

/-- Two scopes resolve every name alike: to the same value or with the same error, and they leave
the same store. -/
def Store.SameNames (s : Store) (env env' : Env) : Prop :=
  ∀ name r s', (Comp.lookup env name).Ends s r s' ↔ (Comp.lookup env' name).Ends s r s'

/-- Frames that are settled with the same attributes resolve every name alike. -/
theorem Frame.Settles.sameNames {m : Attrs Value} {f f' : Frame} (hf : f.Settles s m)
    (hf' : f'.Settles s m) (env : Env) : s.SameNames (env.withShadow f) (env.withShadow f') := by
  intro name r s'
  rw [Comp.lookup_withShadow, Comp.lookup_withShadow,
    (Answers.lookupFrame_settles hf name).bind_iff, (Answers.lookupFrame_settles hf' name).bind_iff]

/-! ### A store that is alike itself -/

/-- Every cell stands for itself, and so does every frame. -/
structure Link.Reflexive (ρ : Link) : Prop where
  cell : ∀ {σ : CellSort} (a : Addr σ), σ ≠ .builder → a.Alike ρ a
  frame : ∀ b, Frame.Alike ρ (.builder b) (.builder b)

namespace Link.Reflexive

variable {ρ : Link} (hρ : ρ.Reflexive)

include hρ

theorem value (v : Value) : v.Alike ρ v := by
  cases v with
  | list a => exact .list (hρ.cell a nofun)
  | set a => exact .set (hρ.cell a nofun)
  | lambda a => exact .lambda (hρ.cell a nofun)
  | thunk a => exact .thunk (hρ.cell a nofun)
  | _ => constructor

theorem anyFrame (f : Frame) : f.Alike ρ f := by
  cases f with
  | set a => exact .set (hρ.cell a nofun)
  | binding x v => exact .binding x (hρ.value v)
  | builder b => exact hρ.frame b

theorem env (env : Env) : env.Alike ρ env :=
  ⟨rfl, List.forall₂_same.mpr fun f _ => hρ.anyFrame f,
    List.forall₂_same.mpr fun a _ => hρ.cell a nofun⟩

theorem fixed (e : Expr) : e.Fixed ρ :=
  .intro (fun v _ => hρ.value v) (fun b _ _ => hρ.frame b) fun e' _ => fixed e'
termination_by sizeOf e
decreasing_by exact Expr.sizeOf_part ‹_›

theorem entry (d : Entry) : EntryOf.Alike ρ d d :=
  ⟨List.forall₂_same.mpr fun e _ => .fixed (hρ.fixed e), .fixed (hρ.fixed d.value)⟩

theorem thunk (c : Thunk) : c.Alike ρ c := by
  cases c with
  | unforced env e => exact .unforced (hρ.env env) (.fixed (hρ.fixed e))
  | forcing env e => exact .forcing (hρ.env env) (.fixed (hρ.fixed e))
  | forced v => exact .forced (hρ.value v)

theorem lambda (f : Lambda) : f.Alike ρ f := ⟨hρ.env f.env, rfl, rfl, hρ.fixed _⟩

theorem slot (x : Slot) : x.Alike ρ x := by
  cases x with
  | leaf v => exact .leaf (hρ.value v)
  | tree es => exact .tree (List.forall₂_same.mpr fun d _ => hρ.entry d)

theorem finished (o : Option (Addr .set)) : Option.Rel (Addr.Alike ρ) o o := by
  cases o with
  | none => exact .none
  | some a => exact .some (hρ.cell a nofun)

theorem builder (c : Builder) : c.Alike ρ c where
  env := hρ.env c.env
  entries := List.forall₂_same.mpr fun d _ => hρ.entry d
  next := rfl
  active := rfl
  order := rfl
  slots := Binding.refl fun p _ => hρ.slot p.2
  set := hρ.finished c.set
  err := rfl

end Link.Reflexive

/-! ### One frame for the other -/

/-- The link of a store with itself in which the finished construction `b` stands for itself and for
its set `a`. -/
def Store.frameLink (s : Store) (b : Addr .builder) (a : Addr .set) (hb : b.Over s) : Link where
  rel σ i j := i = j ∧ (σ = .builder → i ≠ b.index)
  left := s.size
  right := s.size
  leftJournal := s.journal
  rightJournal := s.journal
  settled f f' := f = .builder b ∧ (f' = .builder b ∨ f' = .set a)
  empty := ⟨rfl, nofun⟩
  ahead σ d := ⟨rfl, fun hσ => by
    subst hσ
    exact Nat.ne_of_gt (Nat.lt_of_lt_of_le hb (Nat.le_add_right _ d))⟩
  unique := by
    rintro σ i i' j j' ⟨rfl, -⟩ ⟨rfl, -⟩
    rfl
  apart := by
    rintro ⟨i⟩ ⟨j⟩ ⟨rfl, hne⟩
    refine ⟨fun f hf => hne rfl ?_, fun f hf => hne rfl ?_⟩
    · exact congrArg Addr.index (Frame.builder.inj hf.1)
    · exact congrArg Addr.index (Frame.builder.inj (hf.2.resolve_right nofun))

section FrameLink

variable {b : Addr .builder} {a : Addr .set} {m : Attrs Value} (hb : b.Over s)

theorem Store.frameLink_eq {σ : CellSort} {a₁ a₂ : Addr σ} (h : a₁.Alike (s.frameLink b a hb) a₂) :
    a₁ = a₂ := by
  obtain ⟨i⟩ := a₁
  obtain ⟨j⟩ := a₂
  obtain ⟨rfl, -⟩ := h
  rfl

theorem Store.frameLink_reflexive : (s.frameLink b a hb).Reflexive where
  cell _ hσ := ⟨rfl, fun h => absurd h hσ⟩
  frame b' := by
    by_cases hbb : b' = b
    · subst hbb
      exact .settled ⟨rfl, .inl rfl⟩
    · exact .builder ⟨rfl, fun _ hi => hbb (congrArg Addr.mk hi)⟩

/-- Cells are alike themselves if their contents are. -/
theorem Store.frameLink_cells {σ : CellSort} {α : Type} {R : α → α → Prop} {h : Heap σ α}
    (hnext : h.next.index = s.size σ) (hR : ∀ x, R x x) : h.Alike (s.frameLink b a hb) R h := by
  refine ⟨⟨0, hnext, hnext⟩, fun {a₁ a₂} ha => ?_⟩
  obtain rfl := Store.frameLink_eq hb ha
  cases h.get? a₁ with
  | none => exact .none
  | some x => exact .some (hR x)

/-- A store is alike itself, with one frame in the place of the other. -/
theorem Store.frameLink_alike (hm : Frame.Settles s m (.builder b))
    (ha : Frame.Settles s m (.set a)) :
    s.Alike (s.frameLink b a hb) s := by
  have hρ := Store.frameLink_reflexive (a := a) hb
  have hself : m.Alike (s.frameLink b a hb) m := Binding.refl fun p _ => hρ.value p.2
  exact {
    thunks := Store.frameLink_cells hb rfl hρ.thunk
    lists := Store.frameLink_cells hb rfl fun _ => List.forall₂_same.mpr fun v _ => hρ.value v
    sets := Store.frameLink_cells hb rfl fun _ => Binding.refl fun p _ => hρ.value p.2
    lambdas := Store.frameLink_cells hb rfl hρ.lambda
    builders := Store.frameLink_cells hb rfl hρ.builder
    threads := rfl
    counters := rfl
    registers := Binding.refl fun p _ => hρ.value p.2
    journal := ⟨[], [], rfl, rfl, .nil⟩
    settled := by
      rintro f f' ⟨rfl, rfl | rfl⟩
      · exact ⟨m, m, hm, hm, hself⟩
      · exact ⟨m, m, hm, ha, hself⟩ }

theorem Value.Alike.eq_of_frameLink {v w : Value} (h : v.Alike (s.frameLink b a hb) w) : v = w := by
  cases h with
  | list h | set h | lambda h | thunk h => rw [Store.frameLink_eq hb h]
  | _ => rfl

theorem Event.Alike.eq_of_frameLink {x y : Event} (h : x.Alike (s.frameLink b a hb) y) : x = y := by
  cases h with
  | tag t => rfl
  | force h | call h | entry h | assemble h => rw [Store.frameLink_eq hb h]

end FrameLink

/-! ### Runs -/

namespace Comp

variable {α : Type}

/-- Two computations come to the same outcome and leave the same journal. -/
def SameTrace (c c' : Comp α) (s : Store) : Prop :=
  ∀ r j, (∃ s', c.Ends s r s' ∧ s'.journal = j) ↔ ∃ s', c'.Ends s r s' ∧ s'.journal = j

/-- Evaluates one expression after the other, each in its scope and whatever comes of those before
it. -/
def evalEach (l : List (Env × Expr)) : Comp (List (Except Error Value)) :=
  l.mapM fun p => (eval p.1 p.2).attempt

end Comp

theorem forall₂_eq {α : Type} {R : α → α → Prop} (hR : ∀ {a b}, R a b → a = b) {l l' : List α}
    (h : List.Forall₂ R l l') : l = l' := by
  rw [← List.forall₂_eq_eq_eq]
  exact h.imp fun _ _ => hR

section SameTrace

variable {b : Addr .builder} {a : Addr .set} {m : Attrs Value}

/-- Computations that simulate each other, with one frame in the place of the other. -/
theorem Comp.Sim.sameTrace {α : Type} {hb : b.Over s} {R : α → α → Prop} {c c' : Comp α}
    (h : ∀ n, Comp.Sim n (s.frameLink b a hb) R c c') (hR : ∀ {x y}, R x y → x = y)
    (hs : s.Alike (s.frameLink b a hb) s) : Comp.SameTrace c c' s := by
  have hjournal : ∀ {s₁ s₁' : Store}, s₁.Alike (s.frameLink b a hb) s₁' →
      s₁.journal = s₁'.journal := by
    intro s₁ s₁' hs₁
    obtain ⟨l, l', hl, hl', hll⟩ := hs₁.journal
    rw [hl, hl', forall₂_eq (Event.Alike.eq_of_frameLink hb) hll]
    rfl
  intro r j
  constructor
  · rintro ⟨s₁, ⟨n, hn⟩, rfl⟩
    obtain ⟨r', s₁', hends, hr, hs₁⟩ := (h n s s hs).1 r s₁ hn
    exact ⟨s₁', hr.eq hR ▸ hends, (hjournal hs₁).symm⟩
  · rintro ⟨s₁', ⟨n, hn⟩, rfl⟩
    obtain ⟨r', s₁, hends, hr, hs₁⟩ := (h n s s hs).2 r s₁' hn
    exact ⟨s₁, hr.eq hR ▸ hends, hjournal hs₁⟩

/-- **No run can tell a finished construction from its set**: in a scope with one or with the other,
an expression comes to the same, and so does whatever is evaluated later. -/
theorem Frame.Settles.sameTrace (hm : Frame.Settles s m (.builder b))
    (ha : Frame.Settles s m (.set a))
    (env : Env) (body : Expr) (later : List (Env × Expr)) :
    Comp.SameTrace (Comp.evalEach ((env.withShadow (.builder b), body) :: later))
      (Comp.evalEach ((env.withShadow (.set a), body) :: later)) s := by
  have hb : b.Over s := by
    obtain ⟨c, -, hc, -⟩ := hm
    exact Heap.lt_of_get? hc
  have hρ := Store.frameLink_reflexive (a := a) hb
  refine Comp.Sim.sameTrace (R := List.Forall₂ (Both (Value.Alike (s.frameLink b a hb))))
    (fun n => ?_) (forall₂_eq (Both.eq (Value.Alike.eq_of_frameLink hb)))
    (Store.frameLink_alike hb hm ha)
  refine Comp.Sim.mapM (P := fun p q => p.1.Alike (s.frameLink b a hb) q.1 ∧ p.2 = q.2)
    (.cons ⟨?_, rfl⟩ ?_) fun p q hpq => ?_
  · exact (hρ.env env).withShadow (.settled ⟨rfl, .inr rfl⟩)
  · exact List.forall₂_same.mpr fun p _ => ⟨hρ.env p.1, rfl⟩
  · exact Comp.Sim.attempt ((answers _ n).eval hpq.1 (hpq.2 ▸ .fixed (hρ.fixed p.2)))

end SameTrace

/-! ### Let -/

/-- A let constructs the recursive set of its entries; if that fails it fails, and else it evaluates
its body. -/
theorem Comp.letIn_ends {env : Env} {entries : List Entry} {body : Expr} {r : Except Error Value} :
    (Comp.eval env (.letIn entries body)).Ends s r s' ↔
      (∃ e, r = .error e ∧ (Comp.construct env entries true).Ends s (.error e) s') ∨
      ∃ a s₁, (Comp.construct env entries true).Ends s (.ok a) s₁ ∧
        (Comp.eval (env.withShadow (.builder s.builders.next)) body).Ends s₁ r s' := by
  have hrun : (Comp.eval env (.letIn entries body)).Ends s r s' ↔
      (Comp.letScope env entries >>= fun inner => Comp.eval inner body).Ends s r s' := by
    rw [Comp.eval, Comp.ends_request, Request.ends_run (q := .eval env (.letIn entries body)) rfl]
    refine ⟨?_, fun h => ⟨s', h, rfl⟩⟩
    rintro ⟨s₂, h, hs⟩
    exact hs ▸ h
  rw [hrun, Comp.ends_bind_iff]
  simp only [Comp.letScope_ends]
  constructor
  · rintro (⟨inner, s₁, ⟨r', h, hr'⟩, hbody⟩ | ⟨e, ⟨r', h, hr'⟩, rfl⟩)
    · cases r' with
      | error e => cases hr'
      | ok a =>
        cases hr'
        exact .inr ⟨a, s₁, h, hbody⟩
    · cases r' with
      | error e' =>
        cases hr'
        exact .inl ⟨e, rfl, h⟩
      | ok a => cases hr'
  · rintro (⟨e, rfl, h⟩ | ⟨a, s₁, h, hbody⟩)
    · exact .inr ⟨e, ⟨.error e, h, rfl⟩, rfl⟩
    · exact .inl ⟨_, s₁, ⟨.ok a, h, rfl⟩, hbody⟩

/-- **A let is a recursive set and a scope with it.** It fails as the construction of the recursive
set fails, and leaves the store as that does, so its body is not run; if the construction succeeds,
its body is evaluated from there in the scope with the set under construction.

If no entry goes on after an error, that scope and the one with the finished set resolve every name
alike, at once and in every later state of a run in which nothing does. And the body comes to the
same in either of them and writes the same into the journal, and so does whatever is evaluated after
it. -/
theorem let_recursive_set (env : Env) (entries : List Entry) (body : Expr) (s : Store) :
    (∀ r s', (Comp.eval env (.letIn entries body)).Ends s r s' ↔
      (∃ e, r = .error e ∧ (Comp.construct env entries true).Ends s (.error e) s') ∨
      ∃ a s₁, (Comp.construct env entries true).Ends s (.ok a) s₁ ∧
        (Comp.eval (env.withShadow (.builder s.builders.next)) body).Ends s₁ r s') ∧
    (s.Propagates → (∀ e ∈ entries, e.All Expr.Propagates) →
      ∀ a s', (Comp.construct env entries true).Ends s (.ok a) s' →
      s'.SameNames (env.withShadow (.builder s.builders.next)) (env.withShadow (.set a)) ∧
      (∀ (s₀ : Store) (calls : List Call) (m m' : Machine Unit), s₀.Arises →
        (∀ c ∈ calls, c.All Expr.Propagates) → (Machine.load (.callAll calls) s₀).Passes m →
        m.store = s' → m.Passes m' →
        m'.store.SameNames (env.withShadow (.builder s.builders.next)) (env.withShadow (.set a))) ∧
      ∀ later, Comp.SameTrace
        (Comp.evalEach ((env.withShadow (.builder s.builders.next), body) :: later))
        (Comp.evalEach ((env.withShadow (.set a), body) :: later)) s') := by
  refine ⟨fun r s' => Comp.letIn_ends, fun hp he a s' h => ?_⟩
  obtain ⟨d, x, hd, hout, hx⟩ := Comp.construct_settled hp he h
  have hbuilder : Frame.Settles s' x (.builder s.builders.next) := ⟨d, a, hd, hout, hx⟩
  have hset : Frame.Settles s' x (.set a) := hx
  refine ⟨hbuilder.sameNames hset env, ?_, hbuilder.sameTrace hset env body⟩
  rintro s₀ calls m m' hs hc hm rfl hm'
  -- what is finished stays so in every later state
  obtain ⟨d', hd', hout'⟩ := Store.built?_eq_some.mp
    (hm.built? hs.rested hc hm' (Store.built?_eq_some.mpr ⟨d, hd, hout⟩))
  have hx' : m'.store.sets.get? a = some x := hm'.sets hx
  have hbuilder' : Frame.Settles m'.store x (.builder s.builders.next) := ⟨d', a, hd', hout', hx'⟩
  have hset' : Frame.Settles m'.store x (.set a) := hx'
  exact hbuilder'.sameNames hset' env

/-- The entries of `let x = y; y = 1; in …`. -/
def Entry.ahead : List Entry :=
  [⟨[.string "x"], .var "y"⟩, ⟨[.string "y"], .lit (.int 1)⟩]

/-- A body that yields a thunk, which is forced only after the let; and a let whose construction
fails, so that its body leaves no tag. -/
theorem let_recursive_set_ahead : ∃ (s' : Store) (a : Addr .set),
    (Comp.construct .empty Entry.ahead true).Ends .initial (.ok a) s' ∧
    (∀ calls m, (∀ c ∈ calls, c.All Expr.Propagates) →
      (Machine.load (.callAll calls) s').Passes m →
      m.store.SameNames (Env.empty.withShadow (.builder ⟨0⟩)) (Env.empty.withShadow (.set a))) ∧
    (∃ s'', (Comp.evalEach [(Env.empty.withShadow (.set a), .delay (.var "x")),
        (.empty, .force (.lit (.thunk ⟨2⟩)))]).Ends s'
      (.ok [.ok (.thunk ⟨2⟩), .ok (.int 1)]) s'') ∧
    ∃ s₂, (Comp.eval .empty (.letIn [⟨[.lit (.int 1)], .lit .null⟩]
        (.trace "body" (.lit .null)))).Ends .initial (.error (.eval (.nameNotString .int))) s₂ ∧
      s₂.tags = [] := by
  obtain ⟨s', hrun⟩ : ∃ s', (Comp.construct .empty Entry.ahead true).run 5 .initial =
    some (.ok ⟨3⟩, s') := ⟨_, rfl⟩
  have hcons : (Comp.construct .empty Entry.ahead true).Ends .initial (.ok ⟨3⟩) s' := ⟨5, hrun⟩
  have hinitial : Store.initial.Propagates := Store.Arises.initial.rested.propagates
  have hahead : ∀ e ∈ Entry.ahead, e.All Expr.Propagates := Entry.propagates_of_passesOn 2 rfl
  have harises : s'.Arises :=
    .run .initial (Rules.top_permits.construct .empty hahead true _ hinitial) hcons
  obtain ⟨-, hthen⟩ := let_recursive_set .empty Entry.ahead (.delay (.var "x")) .initial
  obtain ⟨-, hnames, htrace⟩ := hthen hinitial hahead ⟨3⟩ s' hcons
  refine ⟨s', ⟨3⟩, hcons,
    fun calls m hc hm => hnames s' calls _ m harises hc (.refl _) rfl hm, ?_, ?_⟩
  · have hbuilder : ∃ s'', (Comp.evalEach [(Env.empty.withShadow (.builder ⟨0⟩), .delay (.var "x")),
        (.empty, .force (.lit (.thunk ⟨2⟩)))]).Ends s'
        (.ok [.ok (.thunk ⟨2⟩), .ok (.int 1)]) s'' := by
      cases hrun
      exact ⟨_, 10, rfl⟩
    obtain ⟨s'', hs''⟩ := hbuilder
    obtain ⟨s₃, hs₃, -⟩ := (htrace [(.empty, .force (.lit (.thunk ⟨2⟩)))] _ _).mp ⟨s'', hs'', rfl⟩
    exact ⟨s₃, hs₃⟩
  · obtain ⟨s₂, hfail⟩ : ∃ s₂, (Comp.construct .empty [⟨[.lit (.int 1)], .lit .null⟩] true).run 5
      .initial = some (.error (.eval (.nameNotString .int)), s₂) := ⟨_, rfl⟩
    refine ⟨s₂, ?_, ?_⟩
    · exact ((let_recursive_set .empty _ (.trace "body" (.lit .null)) .initial).1 _ s₂).mpr
        (.inl ⟨_, rfl, 5, hfail⟩)
    · cases hfail
      rfl

/-- An entry that goes on after an error of another one: the recursive set has the attribute `a`,
and in the scope with it `a` is found, but the body of the let finds the error. -/
theorem let_recursive_set_heedless : ∃ (s' : Store) (a : Addr .set) (v : Value),
    (Comp.construct .empty Entry.heedless true).Ends .initial (.ok a) s' ∧
    (Comp.lookup (Env.empty.withShadow (.set a)) "a").Ends s' (.ok v) s' ∧
    (Comp.lookup (Env.empty.withShadow (.builder ⟨0⟩)) "a").Ends s' (.error (.raised "boom")) s' ∧
    (Comp.eval .empty (.letIn Entry.heedless (.var "a"))).Ends .initial (.error (.raised "boom"))
      s' :=
  ⟨_, ⟨3⟩, .thunk ⟨0⟩, ⟨8, rfl⟩, ⟨2, rfl⟩, ⟨3, rfl⟩, ⟨9, rfl⟩⟩

end NixKernel
