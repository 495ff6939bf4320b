import NixKernel.Proofs.Builder.Calls
import NixKernel.Proofs.Spelling

/-!
Errors are passed on, unless an expression is made to go on after an error. The machine itself has
three places where an error would be dropped: the second comparison of two elements of lists, the
names of a path that leads nowhere, and the text of a value as it is. None of them ever meets an
error. So an error that is raised anywhere during an operation, however deep inside, is the error
that the operation ends with, if no expression goes on after it.
-/

namespace NixKernel

variable {α β ρ : Type} {s s' : Store} {e : Error}

/-! ### Operations -/

/-- What can be asked of the machine from outside. -/
inductive Operation : Type → Type where
  | eval (env : Env) (e : Expr) : Operation Value
  | lookup (env : Env) (name : String) : Operation Value
  | force (v : Value) : Operation Value
  | deepForce (v : Value) : Operation Value
  | print (v : Value) : Operation String
  | typeOf (v : Value) : Operation TypeName
  | apply (f arg : Value) : Operation Value
  | unary (o : Operator) (v : Value) : Operation Value
  | binary (o : Operator) (l r : Value) : Operation Value
  | comparison (o : Operator) (l r : Value) : Operation Value
  | has (v : Value) (path : List Value) : Operation Bool
  | select (v : Value) (path : List Value) (fallback : Option Value) : Operation Value
  | construct (env : Env) (entries : List Entry) (recursive : Bool) : Operation (Addr .set)
  | letScope (env : Env) (entries : List Entry) : Operation Env
  | build (b : Addr .builder) : Operation Unit
  | lookupBuilder (b : Addr .builder) (name : String) : Operation (Option Value)
  | render (v : Value) (mode : Mode) : Operation Rendering
  /-- An expression is evaluated and its value is shown. -/
  | evalRender (env : Env) (e : Expr) (mode : Mode) : Operation Rendering

/-- What an operation runs. -/
def Operation.comp : Operation α → Comp α
  | eval env e => Comp.eval env e
  | lookup env name => Comp.lookup env name
  | force v => Comp.force v
  | deepForce v => Comp.deepForce v
  | print v => Comp.print v
  | typeOf v => Comp.typeOf v
  | apply f arg => Comp.apply f arg
  | unary o v => Comp.unary o v
  | binary o l r => Comp.binary o l r
  | comparison o l r => Comp.comparison o l r
  | has v path => Comp.has v path
  | select v path fallback => Comp.select v path fallback
  | construct env entries recursive => Comp.construct env entries recursive
  | letScope env entries => Comp.letScope env entries
  | build b => Comp.request (.build b)
  | lookupBuilder b name => Comp.lookupBuilder b name
  | render v mode => Comp.render v mode
  | evalRender env e mode => do Comp.render (← Comp.eval env e) mode

/-- All expressions that an operation brings in have a property. -/
def Operation.Brings (P : Expr → Prop) : Operation α → Prop
  | eval _ e | evalRender _ e _ => P e
  | construct _ entries _ | letScope _ entries => ∀ e ∈ entries, e.All P
  | _ => True

namespace Rules.Permits

open NixKernel.Comp

variable {R : Rules} {P : Expr → Prop} (h : R.Permits P)

include h

theorem showRaw (v : Value) : Fairly R (Comp.showRaw v) :=
  (h.perform (a := .view v) trivial).bind fun _ =>
    (h.perform (a := .typeName v) trivial).bind fun _ => .pure _

theorem render (v : Value) (mode : Mode) : Fairly R (Comp.render v mode) := by
  cases mode with
  | full =>
    exact (h.print v).bind fun _ => (h.typeOf v).bind fun _ => (h.force v).bind fun _ => .pure _
  | raw => exact h.showRaw v
  | forced => exact (h.force v).bind h.showRaw
  | deep => exact (h.deepForce v).bind h.showRaw
  | line =>
    exact (h.print v).bind fun _ => (h.perform (a := .typeName v) trivial).bind fun _ => .pure _
  | lazyLine =>
    exact (h.perform (a := .view v) trivial).bind fun _ =>
      (h.perform (a := .typeName v) trivial).bind fun _ => .pure _
  | tree => exact (h.request (q := .spell [] v) trivial).bind fun _ => .pure _

end Rules.Permits

/-- Operations do nothing to a set under construction but ask it, and end with the first error of
what they ask. -/
theorem Operation.Brings.fair {o : Operation α} (ho : o.Brings Expr.Propagates) :
    Comp.Fairly .plain o.comp := by
  have h := Rules.plain_permits
  cases o with
  | eval env e => exact h.eval env ho
  | lookup env name => exact h.lookup env name
  | force v => exact h.force v
  | deepForce v => exact h.deepForce v
  | print v => exact h.print v
  | typeOf v => exact h.typeOf v
  | apply f arg => exact h.apply f arg
  | unary o v => exact h.unary o v
  | binary o l r => exact h.binary o l r
  | comparison o l r => exact h.comparison o l r
  | has v path => exact h.has v path
  | select v path fallback => exact h.select v path fallback
  | construct env entries recursive => exact h.construct env ho recursive
  | letScope env entries => exact h.letScope env ho
  | build b => exact h.request (q := .build b) trivial
  | lookupBuilder b name => exact h.lookupBuilder b name
  | render v mode => exact h.render v mode
  | evalRender env e mode => exact (h.eval env ho).bind fun v => h.render v mode

/-! ### On the way out -/

/-- The number of requests that are being answered. -/
def Stack.height : {α : Type} → Stack ρ α → Nat
  | _, .nil => 0
  | _, .cons _ _ rest => rest.height + 1

/-- A computation keeps to the rules of the request that it is run for, or of operations at the top
level, or it has failed. -/
def Comp.Heeds (top : Option Request) (c : Comp α) (s : Store) : Prop :=
  c.Behaves top s ∧ (top = none → c.Fair .plain s ∨ ∃ e, c = .done (.error e))

namespace Comp.Heeds

variable {top : Option Request}

theorem of_fairly {c : Comp α} (hc : Fairly .plain c) (hs : s.Propagates) : c.Heeds none s :=
  ⟨⟨hs, (hc s hs).mono id id id False.elim⟩, fun _ => .inl (hc s hs)⟩

theorem act {a : Action} {k : a.Answer → Comp α} (h : (Comp.act a k).Heeds top s) :
    (k (a.perform s).1).Heeds top (a.perform s).2 := by
  have hbehaves := h.1.act
  refine ⟨hbehaves, fun htop => ?_⟩
  subst htop
  rcases h.2 rfl with hf | ⟨e, he⟩
  · exact .inl (hf.2 hbehaves.1)
  · cases he

section Answered

variable {q : Request} {k : Except Error q.Answer → Comp α}

/-- An error that is answered is the error of the computation. -/
theorem error (h : (Comp.ask q k).Heeds top s) (hr : q.Ends s (.error e) s') :
    k (.error e) = .done (.error e) := by
  rcases (h.1.answered hr).2 with htop | he
  · rcases h.2 htop with hf | ⟨e', he'⟩
    · exact (hf.2.2 e s' hr).resolve_right fun h => h.1
    · cases he'
  · exact he e rfl

theorem answered {r : Except Error q.Answer} (h : (Comp.ask q k).Heeds top s) (hr : q.Ends s r s') :
    (k r).Heeds top s' := by
  have hbehaves := (h.1.answered hr).1
  refine ⟨hbehaves, fun htop => ?_⟩
  subst htop
  cases r with
  | ok x =>
    rcases h.2 rfl with hf | ⟨e, he⟩
    · exact .inl (hf.2.1 x s' hr hbehaves.1)
    · cases he
  | error e => exact .inr ⟨e, h.error hr⟩

end Answered

theorem kept : Machine.Claim.Kept fun top {_} c s => c.Heeds top s where
  act h := h.act
  answered h hr := h.answered hr
  inside h hq := ⟨.inl (h.1.legal.start_fair hq), fun htop => by cases htop⟩

end Comp.Heeds

namespace Machine

variable {m m' : Machine ρ}

/-- All computations of a state keep to their rules, inside every request that is being answered. -/
def Heeded (m : Machine ρ) : Prop :=
  Claim.All (fun top {_} c s => c.Heeds top s) m.stack m.control m.store

theorem Passes.heeded (h : m.Passes m') (hm : m.Heeded) : m'.Heeded := h.claim Comp.Heeds.kept hm

theorem heeded_load {c : Comp ρ} (hc : c.Fairly .plain) (hs : s.Propagates) : (load c s).Heeded :=
  .of_fairly hc hs

theorem Leads.reaches (h : m.Leads m') : Reaches 1 m m' := by
  intro n
  simp only [run, show m.step = .inl m' from h]

theorem Passes.reaches (h : m.Passes m') : ∃ n, Reaches n m m' := by
  induction h with
  | refl => exact ⟨0, .refl _⟩
  | tail _ hl ih =>
    obtain ⟨n, hn⟩ := ih
    exact ⟨1 + n, hn.trans hl.reaches⟩

/-- A computation that has failed takes all requests around it with it, one step for each. -/
theorem Heeded.unwind {st : Stack ρ α} (h : Heeded ⟨.done (.error e), st, s⟩) :
    ∃ s', Reaches st.height ⟨.done (.error e), st, s⟩ ⟨.done (.error e), .nil, s'⟩ := by
  induction st generalizing s with
  | nil => exact ⟨s, .refl _⟩
  | cons q k rest ih =>
    obtain ⟨-, s₀, c₀, s₁, hq, hends, hrest⟩ := h
    have hr : q.Ends s₀ (.error e) (q.finish (.error e) s) :=
      (Request.ends_run hq).mpr ⟨s, hends _ s (Comp.ends_done.mpr ⟨rfl, rfl⟩), rfl⟩
    have hk := hrest.claim.error hr
    have hnext : Heeded ⟨k (.error e), rest, q.finish (.error e) s⟩ :=
      hrest.next (hrest.claim.answered hr) fun _ _ h' => h'.ask hr
    rw [hk] at hnext
    obtain ⟨s', hs'⟩ := ih hnext
    refine ⟨s', .step (fun n => ?_) hs'⟩
    rw [run_done_cons, hk]

/-- A state raises an error: its computation has failed, or what it asks is refused at once. -/
def Raises (m : Machine ρ) (e : Error) : Prop :=
  m.control = .done (.error e) ∨ ∃ (q : Request) (k : Except Error q.Answer → Comp m.α) (s : Store),
    m.control = .ask q k ∧ q.start m.store = .answer (.error e) s

/-- A request that is refused ends the computation that has made it. -/
theorem Heeded.refused {q : Request} {k : Except Error q.Answer → Comp α} {st : Stack ρ α}
    (h : Heeded ⟨.ask q k, st, s⟩) (hq : q.start s = .answer (.error e) s) :
    Leads ⟨.ask q k, st, s⟩ ⟨.done (.error e), st, s⟩ := by
  have hl : Leads ⟨.ask q k, st, s⟩ ⟨k (.error e), st, s⟩ := leads_answer hq
  rw [Claim.All.claim h |>.error ((Request.ends_answer hq).mpr ⟨rfl, rfl⟩)] at hl
  exact hl

theorem Raises.passes (hr : m.Raises e) (h : m.Heeded) :
    m.Passes ⟨.done (.error e), m.stack, m.store⟩ := by
  obtain ⟨c, st, s⟩ := m
  dsimp only [Raises] at hr
  rcases hr with rfl | ⟨q, k, s₁, rfl, hq⟩
  · exact .refl _
  · obtain rfl := Request.start_answer hq
    exact (h.refused hq).passes

/-- An error that is raised on the way is the error of the whole run. -/
theorem Raises.ends {c : Comp ρ} (hr : m.Raises e) (hc : c.Fairly .plain) (hs : s.Propagates)
    (h : (load c s).Passes m) : ∃ s', c.Ends s (.error e) s' := by
  have hfailed := hr.passes (h.heeded (heeded_load hc hs))
  obtain ⟨n, hn⟩ := (h.trans hfailed).reaches
  obtain ⟨s', hs'⟩ := ((h.trans hfailed).heeded (heeded_load hc hs)).unwind
  refine ⟨s', exists_run_load_iff.mp ⟨1 + m.stack.height + n, ?_⟩⟩
  rw [hn, hs', run_done_nil 0]

end Machine

/-! ### No error is lost -/

/-- The path that leads nowhere has been walked from its beginning. -/
theorem Comp.walk_walked {walked path walked' : List Value} {v : Value}
    (h : (walk walked v path).Ends s (.ok (.missing walked')) s') :
    ∃ l, l ≠ [] ∧ l <+: path ∧ walked' = walked ++ l := by
  induction path generalizing walked v s with
  | nil => cases (ends_pure.mp h).1
  | cons c path ih =>
    obtain ⟨x, s₁, hx, h⟩ := ends_bind_ok.mp h
    have hone : ∃ l, l ≠ [] ∧ l <+: c :: path ∧ walked ++ [c] = walked ++ l :=
      ⟨[c], List.cons_ne_nil _ _, ⟨path, rfl⟩, rfl⟩
    cases x with
    | set a =>
      obtain ⟨o, s₂, ho, h⟩ := ends_bind_ok.mp h
      cases o with
      | none =>
        obtain ⟨he, rfl⟩ := ends_pure.mp h
        cases he
        exact hone
      | some name =>
        obtain ⟨m, s₃, hm, h⟩ := ends_bind_ok.mp h
        split at h
        · obtain ⟨he, rfl⟩ := ends_pure.mp h
          cases he
          exact hone
        · obtain ⟨l, hl, hpre, rfl⟩ := ih h
          exact ⟨c :: l, List.cons_ne_nil _ _, (List.prefix_cons_inj c).mpr hpre, by simp⟩
    | _ => cases (ends_pure.mp h).1

/-- **No error is lost.** A comparison that has not found the left value less can be made the other
way, and a path that leads nowhere can be named up to where it ends: both succeed without any
effect, and the error names all of the path that has been walked. Printing without forcing succeeds
too. So whatever error is raised anywhere during an operation is the error that the operation ends
with, as long as no expression in it, or in the store, goes on after an error. -/
theorem no_error_lost :
    (∀ (x y : Value) (s s' : Store), (Comp.request (.less x y)).Ends s (.ok false) s' →
      ∃ c, (Comp.request (.less y x)).Ends s' (.ok c) s') ∧
    (∀ (v : Value) (path walked : List Value) (s s' : Store),
      (Comp.walk [] v path).Ends s (.ok (.missing walked)) s' →
      walked ≠ [] ∧ walked <+: path ∧ ∃ names,
        List.Forall₂ (fun c name => ∃ o, (Comp.forceName c).Ends s' (.ok o) s' ∧
          name = o.getD "null") walked names ∧
        (Comp.pathNames walked).Ends s' (.ok names) s' ∧
        (Comp.select v path none).Ends s (.error (.eval (.missingAttr names))) s') ∧
    (∀ (levels : Nat) (above : List Container) (v : Value) (s : Store),
      (Comp.spellLazily levels above v).Ends s (.ok (s.viewWithin levels above v)) s) ∧
    ∀ {α : Type} (o : Operation α) (s : Store) (m : Machine α) (e : Error),
      s.Propagates → o.Brings Expr.Propagates → (Machine.load o.comp s).Passes m → m.Raises e →
      ∃ s', o.comp.Ends s (.error e) s' := by
  refine ⟨fun x y s s' h => ?_, fun v path walked s s' h => ?_, Comp.spellLazily_ends,
    fun o s m e hs ho hm hr => hr.ends ho.fair hs hm⟩
  · obtain ⟨n, hn⟩ := Comp.ends_request.mp h
    obtain ⟨c, hc⟩ := (Comp.less_decided n hn).back rfl
    exact ⟨c, hc.ends⟩
  · obtain ⟨l, hl, hpre, rfl⟩ := Comp.walk_walked h
    obtain ⟨names, hall, hnames⟩ := (Comp.walk_named h fun c hc => nomatch hc).pathNames
    refine ⟨hl, hpre, names, hall.imp fun c name ⟨o, ho, hname⟩ => ⟨o, ho.ends, hname⟩,
      hnames.ends, ?_⟩
    rw [Comp.select_eq_walk]
    refine h.bind ?_
    exact hnames.attempt.ends.bind (Comp.ends_refuse.mpr ⟨rfl, rfl⟩)

/-- The error of a computation that has failed. -/
def Comp.error? : Comp α → Option Error
  | .done (.error e) => some e
  | _ => none

theorem Comp.error?_eq_some {c : Comp α} (h : c.error? = some e) : c = .done (.error e) := by
  unfold Comp.error? at h
  split at h
  · cases h
    rfl
  · cases h

/-- The lists `[ 1 3 ]` and `[ 1 2 ]` are compared both ways, the way through `builtins.none` is
named, and the second element of `[ 1 (raise "x") ]` fails inside a comparison. -/
theorem no_error_lost_cases :
    (∃ s c, (Comp.request (.less (.list ⟨1⟩) (.list ⟨2⟩))).Ends s (.ok false) s ∧
      (Comp.request (.less (.list ⟨2⟩) (.list ⟨1⟩))).Ends s (.ok c) s) ∧
    (∃ names, (Comp.pathNames [.str "builtins", .str "none"]).Ends .initial (.ok names) .initial ∧
      (Comp.select (.set .globals) [.str "builtins", .str "none", .str "x"] none).Ends .initial
        (.error (.eval (.missingAttr names))) .initial) ∧
    (∃ (m : Machine Value) (s' : Store), m.stack.height = 4 ∧ m.Raises (.raised "x") ∧
      (Operation.comp (.eval .empty (.comparison .lt
        (.list [.lit (.int 1), .raise "x"]) (.list [.lit (.int 1), .lit (.int 2)])))).Ends .initial
        (.error (.raised "x")) s') := by
  obtain ⟨hless, hpath, -, hop⟩ := no_error_lost
  refine ⟨?_, ?_, ?_⟩
  · obtain ⟨s, hs⟩ : ∃ s : Store, s = ((Store.initial.newList [.int 1, .int 3]).2.newList
        [.int 1, .int 2]).2 := ⟨_, rfl⟩
    have hfalse : (Comp.request (.less (.list ⟨1⟩) (.list ⟨2⟩))).Ends s (.ok false) s :=
      ⟨3, by rw [hs]; rfl⟩
    obtain ⟨c, hc⟩ := hless _ _ s s hfalse
    exact ⟨s, c, hfalse, hc⟩
  · have hwalk : (Comp.walk [] (.set .globals)
        [.str "builtins", .str "none", .str "x"]).Ends .initial
        (.ok (.missing [.str "builtins", .str "none"])) .initial := ⟨1, rfl⟩
    obtain ⟨-, -, names, -, hnames, hselect⟩ := hpath _ _ _ _ _ hwalk
    exact ⟨names, hnames, hselect⟩
  · have hafter : ((Machine.load (Operation.comp (.eval .empty (.comparison .lt
        (.list [.lit (.int 1), .raise "x"]) (.list [.lit (.int 1), .lit (.int 2)]))))
        .initial).after 28).map (fun m => (m.stack.height, m.control.error?)) =
        some (4, some (.raised "x")) := by decide +kernel
    obtain ⟨m, hm, hfacts⟩ := Option.map_eq_some_iff.mp hafter
    obtain ⟨hheight, herror⟩ := Prod.mk.inj hfacts
    have hraises : m.Raises (.raised "x") := .inl (Comp.error?_eq_some herror)
    have ho : (Operation.eval .empty (.comparison .lt (.list [.lit (.int 1), .raise "x"])
        (.list [.lit (.int 1), .lit (.int 2)]))).Brings Expr.Propagates :=
      Expr.propagates_of_passesOn 4 rfl
    obtain ⟨s', hs'⟩ := hop _ _ m _ (Store.initial_all (Expr.propagates_of_passesOn 2 rfl)) ho
      (Machine.passes_of_after 28 hm) hraises
    exact ⟨m, s', hheight, hraises, hs'⟩

end NixKernel
