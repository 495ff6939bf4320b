import NixKernel.Proofs.Content
import NixKernel.Proofs.Stays

/-!
What computations may do. A computation is fair to some rules if everything that it does and asks
along its run is allowed, and if it passes on every error as it is, unless the rules allow it to go
on: it is fair as long as something holds of the store, and what holds after a part of it is left to
whoever runs it. All computations of the machine are fair to the rules that keep sets under
construction to themselves, and to rules about the expressions that may be evaluated.
-/

namespace NixKernel

variable {α β : Type}

/-! ### Rules -/

/-- What a computation may do and ask, and what holds of the store as long as it goes on. -/
structure Rules where
  holds : Store → Prop
  act : Store → Action → Prop
  ask : Store → Request → Prop
  /-- Whether a computation may go on after an error. -/
  catches : Prop

namespace Comp

/-- Along its run a computation does and asks what is allowed, and it ends with the first error,
unless it may go on. -/
def Fair (R : Rules) : Comp α → Store → Prop
  | .done _, _ => True
  | .act a k, s =>
    R.act s a ∧ (R.holds (a.perform s).2 → (k (a.perform s).1).Fair R (a.perform s).2)
  | .ask q k, s =>
    R.ask s q ∧ (∀ x s', q.Ends s (.ok x) s' → R.holds s' → (k (.ok x)).Fair R s') ∧
      ∀ e s', q.Ends s (.error e) s' → k (.error e) = .done (.error e) ∨
        (R.catches ∧ (R.holds s' → (k (.error e)).Fair R s'))

/-- A computation is fair wherever it is begun. -/
def Fairly (R : Rules) (c : Comp α) : Prop := ∀ s, R.holds s → c.Fair R s

variable {R : Rules} {s s' : Store}

/-! ### Composition -/

theorem Fair.bind {c : Comp α} {f : α → Comp β} (hc : c.Fair R s) (hs : R.holds s)
    (hf : ∀ a s', c.Ends s (.ok a) s' → R.holds s' → (f a).Fair R s') : (c >>= f).Fair R s := by
  induction c generalizing s with
  | done r =>
    cases r with
    | ok a => exact hf a s (ends_done.mpr ⟨rfl, rfl⟩) hs
    | error e => trivial
  | act a k ih => exact ⟨hc.1, fun h => ih _ (hc.2 h) h hf⟩
  | ask q k ih =>
    refine ⟨hc.1, fun x s₁ hq h => ?_, fun e s₁ hq => ?_⟩
    · exact ih _ (hc.2.1 x s₁ hq h) h fun a s' hk => hf a s' (hk.ask hq)
    · refine (hc.2.2 e s₁ hq).imp (fun hk => ?_) fun ⟨hR, hk⟩ => ⟨hR, fun h => ?_⟩
      · show (k (.error e)).bind f = _
        rw [hk]
        rfl
      · exact ih _ (hk h) h fun a s' ha => hf a s' (ha.ask hq)

/-- The answer of a computation that asks, and what follows it. -/
theorem Ends.of_ask {q : Request} {k : Except Error q.Answer → Comp α} {r : Except Error α}
    (h : (Comp.ask q k).Ends s r s') : ∃ r₁ s₁, q.Ends s r₁ s₁ ∧ (k r₁).Ends s₁ r s' := by
  obtain ⟨n, hn⟩ := h
  obtain ⟨r₁, s₁, h₁, h₂⟩ := runWith_ask_iff.mp hn
  exact ⟨r₁, s₁, ⟨n, h₁⟩, n, h₂⟩

/-- The error of a computation that succeeds is never an answer. -/
theorem Fair.attempt {c : Comp α} (hc : c.Fair R s) {a : α} (h : c.Ends s (.ok a) s') :
    c.attempt.Fair R s := by
  induction c generalizing s with
  | done r => trivial
  | act x k ih => exact ⟨hc.1, fun hs => ih _ (hc.2 hs) h⟩
  | ask q k ih =>
    obtain ⟨r₁, s₁, hq, hk⟩ := h.of_ask
    refine ⟨hc.1, fun x s₂ hx hs => ?_, fun e s₂ he => ?_⟩
    · obtain ⟨rfl, rfl⟩ := ends_request.mpr hq |>.unique (ends_request.mpr hx)
      exact ih _ (hc.2.1 x _ hq hs) hk
    · obtain ⟨rfl, rfl⟩ := ends_request.mpr hq |>.unique (ends_request.mpr he)
      rcases hc.2.2 e _ hq with hdone | ⟨hR, hfair⟩
      · rw [hdone] at hk
        cases (ends_done.mp hk).1
      · exact .inr ⟨hR, fun hs => ih _ (hfair hs) hk⟩

/-- A computation may go on with the outcome of a fair one, if it may go on after an error. -/
theorem Fair.attempt_bind {c : Comp α} {f : Except Error α → Comp β} (hR : R.catches)
    (hc : c.Fair R s) (hs : R.holds s) (hf : ∀ r s', R.holds s' → (f r).Fair R s') :
    (c.attempt >>= f).Fair R s := by
  induction c generalizing s with
  | done r => exact hf r s hs
  | act a k ih => exact ⟨hc.1, fun h => ih _ (hc.2 h) h⟩
  | ask q k ih =>
    refine ⟨hc.1, fun x s₁ hq h => ih _ (hc.2.1 x s₁ hq h) h, fun e s₁ hq => .inr ⟨hR, fun h => ?_⟩⟩
    rcases hc.2.2 e s₁ hq with hk | ⟨-, hk⟩
    · show ((k (.error e)).attempt.bind f).Fair R s₁
      rw [hk]
      exact hf (.error e) s₁ h
    · exact ih _ (hk h) h

/-- What is fair to some rules is fair to rules that allow more. -/
theorem Fair.mono {S : Rules} {c : Comp α} (hc : c.Fair R s)
    (holds : ∀ {s}, S.holds s → R.holds s) (act : ∀ {s a}, R.act s a → S.act s a)
    (ask : ∀ {s q}, R.ask s q → S.ask s q) (catches : R.catches → S.catches) :
    c.Fair S s := by
  induction c generalizing s with
  | done r => trivial
  | act a k ih => exact ⟨act hc.1, fun hs => ih _ (hc.2 (holds hs))⟩
  | ask q k ih =>
    refine ⟨ask hc.1, fun x s₁ hq hs => ih _ (hc.2.1 x s₁ hq (holds hs)), fun e s₁ hq => ?_⟩
    exact (hc.2.2 e s₁ hq).imp_right fun ⟨hR, hk⟩ => ⟨catches hR, fun hs => ih _ (hk (holds hs))⟩

theorem Fairly.bind {c : Comp α} {f : α → Comp β} (hc : Fairly R c) (hf : ∀ a, Fairly R (f a)) :
    Fairly R (c >>= f) := fun s hs => (hc s hs).bind hs fun a s' _ => hf a s'

theorem Fairly.pure (a : α) : Fairly R (Pure.pure a : Comp α) := fun _ _ => trivial

theorem Fairly.fail (e : Error) : Fairly R (Comp.fail e : Comp α) := fun _ _ => trivial

theorem Fairly.refuse (e : Cause) : Fairly R (Comp.refuse e : Comp α) := fun _ _ => trivial

theorem Fairly.mapM {f : α → Comp β} (l : List α) (h : ∀ a ∈ l, Fairly R (f a)) :
    Fairly R (l.mapM f) := by
  induction l with
  | nil => exact .pure []
  | cons a l ih =>
    rw [List.mapM_cons]
    exact (h a List.mem_cons_self).bind fun b =>
      (ih fun a ha => h a (List.mem_cons_of_mem _ ha)).bind fun bs => .pure _

theorem Fairly.ofExcept (r : Except Cause α) : Fairly R (Comp.ofExcept r) := by
  cases r with
  | ok a => exact .pure a
  | error e => exact .refuse e

theorem Fairly.ofCell (o : Option α) : Fairly R (Comp.ofCell o) := by
  cases o with
  | none => exact .fail _
  | some a => exact .pure a

theorem Fairly.perform {a : Action} (h : ∀ s, R.holds s → R.act s a) :
    Fairly R (Comp.perform a) := fun s hs => ⟨h s hs, fun _ => trivial⟩

theorem Fairly.request {q : Request} (h : ∀ s, R.holds s → R.ask s q) :
    Fairly R (Comp.request q) :=
  fun s hs => ⟨h s hs, fun _ _ _ _ => trivial, fun _ _ _ => .inl rfl⟩

end Comp

/-! ### Runs of fair computations -/

/-- What the parts of a fair computation do to the store, the whole does: the parts succeed one
after the other, and after the first that fails there is no other, unless its error may be passed
over. -/
theorem Comp.Fair.law {R : Rules} {T : Store → Option Error → Store → Prop} {n : Nat}
    (refl : ∀ s o, T s o s)
    (trans : ∀ {s s' s'' o}, T s none s' → T s' o s'' → T s o s'')
    (caught : R.catches → ∀ {s e s'}, T s (some e) s' → T s none s')
    (act : ∀ {s a}, R.holds s → R.act s a → T s none (a.perform s).2 ∧ R.holds (a.perform s).2)
    (ask : ∀ {s q r s'}, R.holds s → R.ask s q → Request.run n q s = some (r, s') →
      T s (failure? r) s' ∧ (failure? r = none ∨ R.catches → R.holds s'))
    {c : Comp α} {s s' : Store} {r : Except Error α} (hc : c.Fair R s) (hs : R.holds s)
    (hr : c.run n s = some (r, s')) : T s (failure? r) s' := by
  induction c generalizing s with
  | done r' => cases hr; exact refl _ _
  | act a k ih =>
    obtain ⟨ha, hs₁⟩ := act hs hc.1
    exact trans ha (ih _ (hc.2 hs₁) hs₁ hr)
  | ask q k ih =>
    obtain ⟨r₁, s₁, h₁, h₂⟩ := Comp.runWith_ask_iff.mp hr
    obtain ⟨hq, hs₁⟩ := ask hs hc.1 h₁
    cases r₁ with
    | ok x =>
      replace hs₁ := hs₁ (.inl rfl)
      exact trans hq (ih _ (hc.2.1 x s₁ ⟨n, h₁⟩ hs₁) hs₁ h₂)
    | error e =>
      rcases hc.2.2 e s₁ ⟨n, h₁⟩ with hk | ⟨hR, hk⟩
      · rw [hk] at h₂
        cases h₂
        exact hq
      · replace hs₁ := hs₁ (.inr hR)
        exact trans (caught hR hq) (ih _ (hk hs₁) hs₁ h₂)

/-- What the rules ask of the store holds also where a fair computation ends, be it with an error or
not, if every action and every request keeps it. -/
theorem Comp.Fair.stays {R : Rules} {n : Nat}
    (act : ∀ {s a}, R.holds s → R.act s a → R.holds (a.perform s).2)
    (ask : ∀ {s q r s'}, R.holds s → R.ask s q → Request.run n q s = some (r, s') → R.holds s')
    {c : Comp α} {s s' : Store} {r : Except Error α} (hc : c.Fair R s) (hs : R.holds s)
    (hr : c.run n s = some (r, s')) : R.holds s' :=
  Comp.Fair.law (T := fun s _ s' => R.holds s → R.holds s') (fun _ _ h => h)
    (fun h h' hs => h' (h hs)) (fun _ _ _ _ h => h)
    (fun hs ha => ⟨fun _ => act hs ha, act hs ha⟩)
    (fun hs hq hr => ⟨fun _ => ask hs hq hr, fun _ => ask hs hq hr⟩) hc hs hr hs

/-! ### Plain actions and requests -/

/-- An action that does not touch a set under construction, and stores only expressions with a
property. The events that it can write are tags and calls. -/
def Action.Plain (P : Expr → Prop) : Action → Prop
  | newThunk _ body => P body
  | newLambda f => f.All P
  | newBuilder _ entries _ => ∀ e ∈ entries, e.All P
  | openScope _ formals _ _ => ∀ x ∈ formals.filterMap FormalOf.fallback, P x
  | setSlot .. => False
  | record (.tag t) => ∃ e, P (.trace t e)
  | record (.call _) => True
  | record _ => False
  | _ => True

/-- A request that is not one that the construction of a set makes of itself. -/
def Request.Plain (P : Expr → Prop) : Request → Prop
  | eval _ e => P e
  | entry _ | assemble _ => False
  | _ => True

theorem Action.Plain.brings {P : Expr → Prop} {a : Action} (ha : a.Plain P) : a.Brings P := by
  cases a with
  | setSlot b name x isNew => exact ha.elim
  | newThunk | newLambda | newBuilder | openScope => exact ha
  | _ => trivial

theorem Request.Plain.brings {P : Expr → Prop} {q : Request} (hq : q.Plain P) : q.Brings P := by
  cases q with
  | eval env e => exact hq
  | _ => trivial

/-- A slot may be set to a value only as long as nothing is known of the attribute, and its name is
new just then. -/
structure Store.Open (s : Store) (b : Addr .builder) (name : String) (x : Slot) (isNew : Bool) :
    Prop where
  leaf : ∀ v, x = .leaf v → s.known b name = none
  isNew : isNew = (s.known b name).isNone

/-- The rules allow whatever is plain, and all functions in the store have the property. -/
structure Rules.Permits (R : Rules) (P : Expr → Prop) : Prop extends Expr.Hereditary P where
  act : ∀ {s a}, R.holds s → a.Plain P → R.act s a
  ask : ∀ {s q}, R.holds s → q.Plain P → R.ask s q
  lambda : ∀ {s a f}, R.holds s → s.lambdas.get? a = some f → f.All P
  orElse : ∀ {e other}, P (.orElse e other) → R.catches

namespace Rules.Permits

open NixKernel.Comp

variable {R : Rules} {P : Expr → Prop} (h : R.Permits P)

include h

theorem perform {a : Action} (ha : a.Plain P) : Fairly R (Comp.perform a) :=
  .perform fun _ hs => h.act hs ha

theorem request {q : Request} (hq : q.Plain P) : Fairly R (Comp.request q) :=
  .request fun _ hs => h.ask hs hq

/-! ### Forcing -/

theorem force (v : Value) : Fairly R (Comp.force v) := by
  cases v with
  | thunk t => exact h.request (q := .force t) trivial
  | _ => exact .pure _

theorem eval (env : Env) {e : Expr} (he : P e) : Fairly R (Comp.eval env e) :=
  h.request (q := .eval env e) he

theorem newThunk (env : Env) {e : Expr} (he : P e) : Fairly R (Comp.newThunk env e) :=
  (h.perform (a := .newThunk env e) he).bind fun _ => .pure _

theorem newList (xs : List Value) : Fairly R (Comp.newList xs) :=
  (h.perform (a := .newList xs) trivial).bind fun _ => .pure _

theorem newSet (m : Attrs Value) : Fairly R (Comp.newSet m) :=
  (h.perform (a := .newSet m) trivial).bind fun _ => .pure _

theorem attrs (a : Addr .set) : Fairly R (Comp.attrs a) :=
  (h.perform (a := .attrs a) trivial).bind fun _ => .ofCell _

theorem items (a : Addr .list) : Fairly R (Comp.items a) :=
  (h.perform (a := .list a) trivial).bind fun _ => .ofCell _

theorem forceBool (v : Value) : Fairly R (Comp.forceBool v) := by
  refine (h.force v).bind fun w => ?_
  cases w with
  | bool b => exact .pure b
  | _ => exact .refuse _

theorem forceName (v : Value) : Fairly R (Comp.forceName v) :=
  (h.force v).bind fun _ => .ofExcept _

theorem forceBoth (l r : Value) : Fairly R (Comp.forceBoth l r) :=
  (h.force l).bind fun _ => (h.force r).bind fun _ => .pure _

/-! ### Full evaluation -/

theorem spell (above : List Container) (v : Value) : Fairly R (Comp.spell above v) := by
  refine (h.force v).bind fun w => ?_
  cases w with
  | list a =>
    dsimp only
    split
    · exact .pure _
    · exact (h.items a).bind fun xs =>
        (Fairly.mapM xs fun x _ => h.request (q := .spell _ x) trivial).bind fun _ => .pure _
  | set a =>
    dsimp only
    split
    · exact .pure _
    · refine (h.attrs a).bind fun m => (Fairly.mapM m.bindings fun p _ => ?_).bind fun _ => .pure _
      exact (h.request (q := .spell _ p.2) trivial).bind fun _ => .pure _
  | _ => exact .pure _

theorem sweepAll (seen : List Container) (xs : List Value) :
    Fairly R (Comp.sweepAll seen xs) := by
  induction xs generalizing seen with
  | nil => exact .pure seen
  | cons x xs ih => exact (h.request (q := .sweep seen x) trivial).bind fun p => ih p.2

theorem sweep (seen : List Container) (v : Value) : Fairly R (Comp.sweep seen v) := by
  refine (h.force v).bind fun w => ?_
  cases w with
  | list a =>
    dsimp only
    split
    · exact .pure _
    · exact (h.items a).bind fun xs => (h.sweepAll _ xs).bind fun _ => .pure _
  | set a =>
    dsimp only
    split
    · exact .pure _
    · exact (h.attrs a).bind fun m => (h.sweepAll _ _).bind fun _ => .pure _
  | _ => exact .pure _

theorem deepForce (v : Value) : Fairly R (Comp.deepForce v) :=
  (h.request (q := .sweep [] v) trivial).bind fun _ => .pure _

theorem print (v : Value) : Fairly R (Comp.print v) :=
  (h.request (q := .spell [] v) trivial).bind fun _ => .pure _

theorem typeOf (v : Value) : Fairly R (Comp.typeOf v) := (h.force v).bind fun _ => .pure _

/-! ### Comparison -/

theorem equalItems (xs ys : List Value) : Fairly R (Comp.equalItems xs ys) := by
  induction xs generalizing ys with
  | nil => exact .pure true
  | cons x xs ih =>
    cases ys with
    | nil => exact .pure true
    | cons y ys =>
      refine (h.request (q := .equal x y) trivial).bind fun c => ?_
      cases c with
      | true => exact ih ys
      | false => exact .pure false

theorem equalAttrs (other : Attrs Value) (l : List (String × Value)) :
    Fairly R (Comp.equalAttrs other l) := by
  induction l with
  | nil => exact .pure true
  | cons p l ih =>
    obtain ⟨k, x⟩ := p
    unfold Comp.equalAttrs
    split
    · exact .pure false
    · rename_i y hy
      refine (h.request (q := .equal x y) trivial).bind fun c => ?_
      cases c with
      | true => exact ih
      | false => exact .pure false

theorem equal (l r : Value) : Fairly R (Comp.equal l r) := by
  refine (h.forceBoth l r).bind fun p => ?_
  obtain ⟨x, y⟩ := p
  dsimp only
  split
  · rename_i a b
    refine (h.items a).bind fun xs => (h.items b).bind fun ys => ?_
    split
    · exact h.equalItems xs ys
    · exact .pure false
  · rename_i a b
    refine (h.attrs a).bind fun m => (h.attrs b).bind fun m' => ?_
    split
    · exact h.equalAttrs m' m.bindings
    · exact .pure false
  · exact .pure _

/-- The comparison would go on after an error of the reverse comparison, but there is none. -/
theorem lessItems (xs ys : List Value) : Fairly R (Comp.lessItems xs ys) := by
  induction xs generalizing ys with
  | nil => exact .pure _
  | cons x xs ih =>
    cases ys with
    | nil => exact .pure false
    | cons y ys =>
      refine (h.forceBoth x y).bind fun p => ?_
      obtain ⟨a, b⟩ := p
      dsimp only
      split
      · exact ih ys
      · intro s hs
        refine (h.request (q := .less a b) trivial s hs).bind hs fun c s₁ hc hs₁ => ?_
        cases c with
        | true => trivial
        | false =>
          obtain ⟨n, hn⟩ := ends_request.mp hc
          obtain ⟨c', hback⟩ := (less_decided n hn).back rfl
          have hfair := (h.request (q := .less b a) trivial s₁ hs₁).attempt hback.ends
          refine hfair.bind hs₁ fun r s₂ _ hs₂ => ?_
          split
          · trivial
          · exact ih ys s₂ hs₂

theorem less (x y : Value) : Fairly R (Comp.less x y) := by
  unfold Comp.less
  split
  · rename_i a b
    exact (h.items a).bind fun xs => (h.items b).bind fun ys => h.lessItems xs ys
  · exact .ofExcept _

theorem compareForced {test : Value → Value → Comp Bool} (ht : ∀ x y, Fairly R (test x y))
    (l r : Value) : Fairly R (Comp.compareForced test l r) :=
  (h.forceBoth l r).bind fun p => (ht p.1 p.2).bind fun _ => .pure _

theorem comparison (o : Operator) (l r : Value) : Fairly R (Comp.comparison o l r) := by
  have hless : ∀ x y, Fairly R (Comp.request (.less x y)) :=
    fun x y => h.request (q := .less x y) trivial
  unfold Comp.comparison
  split
  · exact (h.request (q := .equal l r) trivial).bind fun _ => .pure _
  · exact (h.request (q := .equal l r) trivial).bind fun _ => .pure _
  · exact h.compareForced hless l r
  · exact h.compareForced (fun x y => hless y x) l r
  · exact h.compareForced (fun x y => (hless y x).bind fun _ => .pure _) l r
  · exact h.compareForced (fun x y => (hless x y).bind fun _ => .pure _) l r
  · exact .refuse _

/-! ### Operators -/

theorem unary (o : Operator) (v : Value) : Fairly R (Comp.unary o v) := by
  unfold Comp.unary
  split
  · exact (h.force v).bind fun _ => .ofExcept _
  · exact (h.forceBool v).bind fun _ => .pure _
  · exact .refuse _

theorem onForced (f : Value → Value → Except Cause Value) (l r : Value) :
    Fairly R (Comp.onForced f l r) := (h.forceBoth l r).bind fun _ => .ofExcept _

theorem update (l r : Value) : Fairly R (Comp.update l r) := by
  refine (h.forceBoth l r).bind fun p => ?_
  obtain ⟨x, y⟩ := p
  dsimp only
  split
  · rename_i a b
    exact (h.attrs a).bind fun _ => (h.attrs b).bind fun _ => h.newSet _
  · exact .refuse _

theorem concat (l r : Value) : Fairly R (Comp.concat l r) := by
  refine (h.forceBoth l r).bind fun p => ?_
  obtain ⟨x, y⟩ := p
  dsimp only
  split
  · rename_i a b
    exact (h.items a).bind fun _ => (h.items b).bind fun _ => h.newList _
  · exact .refuse _

theorem shortCut (test decided : Bool) (l r : Value) :
    Fairly R (Comp.shortCut test decided l r) := by
  refine (h.forceBool l).bind fun c => ?_
  split
  · exact .pure _
  · exact (h.forceBool r).bind fun _ => .pure _

theorem binary (o : Operator) (l r : Value) : Fairly R (Comp.binary o l r) := by
  cases o with
  | add | sub | mul | div => exact h.onForced _ l r
  | update => exact h.update l r
  | concat => exact h.concat l r
  | and | or | implies => exact h.shortCut _ _ l r
  | eq => exact h.comparison .eq l r
  | ne => exact h.comparison .ne l r
  | lt => exact h.comparison .lt l r
  | gt => exact h.comparison .gt l r
  | ge => exact h.comparison .ge l r
  | le => exact h.comparison .le l r
  | _ => exact .refuse _

/-! ### Functions -/

theorem enterBody (f : Addr .lambda) (env : Env) {body : Expr} (hb : P body) :
    Fairly R (Comp.enterBody f env body) :=
  (h.perform (a := .record (.call f)) trivial).bind fun _ => h.eval env hb

theorem call (f : Addr .lambda) (arg : Value) : Fairly R (Comp.call f arg) := by
  intro s hs
  refine ((h.perform (a := .lambda f) trivial) s hs).bind hs fun fn s₁ hfn hs₁ => ?_
  obtain ⟨he, rfl⟩ := ends_perform.mp hfn
  cases fn with
  | none => trivial
  | some fn =>
    obtain ⟨hbody, hparam⟩ := h.lambda hs (Except.ok.inj he).symm
    revert hs₁
    dsimp only
    split
    · exact fun hs₁ => h.enterBody _ _ hbody _ hs₁
    · rename_i formals whole openEnded hp
      rw [hp] at hparam
      refine fun hs₁ => ((h.force arg).bind fun v => ?_) _ hs₁
      cases v with
      | set a =>
        refine (h.perform (a := .strict fn.env) trivial).bind fun _ => (h.attrs a).bind fun _ =>
          (Fairly.ofExcept _).bind fun _ => ?_
        exact (h.perform (a := .openScope fn.env formals whole a) hparam).bind fun _ =>
          h.enterBody _ _ hbody
      | _ => exact .refuse _

theorem apply (f arg : Value) : Fairly R (Comp.apply f arg) := by
  refine (h.force f).bind fun v => ?_
  cases v with
  | lambda a => exact h.call a arg
  | _ => exact .refuse _

theorem applyAll (f : Value) (args : List Value) : Fairly R (Comp.applyAll f args) := by
  induction args generalizing f with
  | nil => exact .pure f
  | cons arg args ih => exact (h.apply f arg).bind ih

/-! ### Names and paths -/

theorem lookupBuilder (b : Addr .builder) (name : String) :
    Fairly R (Comp.lookupBuilder b name) := by
  refine (h.request (q := .build b) trivial).bind fun _ =>
    (h.perform (a := .builder b) trivial).bind fun c => ?_
  cases c with
  | none => exact .pure none
  | some c =>
    dsimp only
    split
    · exact (h.attrs _).bind fun _ => .pure _
    · exact .pure none
    · exact .pure _
    · exact (h.newThunk _ (h.pending b name)).bind fun _ => .pure _

theorem lookupFrame (name : String) (f : Frame) : Fairly R (Comp.lookupFrame name f) := by
  cases f with
  | set a => exact (h.attrs a).bind fun _ => .pure _
  | binding x v => exact .pure _
  | builder b => exact h.lookupBuilder b name

theorem lookupFrames (name : String) (fs : List Frame) :
    Fairly R (Comp.lookupFrames name fs) := by
  induction fs with
  | nil => exact .pure none
  | cons f fs ih =>
    refine (h.lookupFrame name f).bind fun o => ?_
    cases o with
    | none => exact ih
    | some v => exact .pure _

theorem lookup (env : Env) (name : String) : Fairly R (Comp.lookup env name) := by
  refine (h.lookupFrames name _).bind fun o => ?_
  cases o with
  | none => exact .refuse _
  | some v => exact .pure v

theorem lookupComplete (b : Addr .builder) (name : String) :
    Fairly R (Comp.lookupComplete b name) := by
  refine (h.perform (a := .builder b) trivial).bind fun c => ?_
  split
  · exact .fail _
  · refine (h.attrs _).bind fun m => ?_
    split
    · exact .pure _
    · exact .fail _
  · exact .refuse _

theorem walk (walked : List Value) (v : Value) (path : List Value) :
    Fairly R (Comp.walk walked v path) := by
  induction path generalizing walked v with
  | nil => exact .pure _
  | cons c path ih =>
    refine (h.force v).bind fun x => ?_
    cases x with
    | set a =>
      refine (h.forceName c).bind fun o => ?_
      cases o with
      | none => exact .pure _
      | some name =>
        refine (h.attrs a).bind fun m => ?_
        split
        · exact .pure _
        · exact ih _ _
    | _ => exact .pure _

theorem has (v : Value) (path : List Value) : Fairly R (Comp.has v path) := by
  rw [has_eq_walk v [] path]
  refine (h.walk [] v path).bind fun w => ?_
  cases w with
  | found x => exact .pure true
  | _ => exact .pure false

theorem pathNames (path : List Value) : Fairly R (Comp.pathNames path) :=
  .mapM path fun c _ => (h.forceName c).bind fun _ => .pure _

/-- The names of the way to a missing attribute are known, so naming it does not fail. -/
theorem select (v : Value) (path : List Value) (fallback : Option Value) :
    Fairly R (Comp.select v path fallback) := by
  rw [select_eq_walk]
  intro s hs
  refine (h.walk [] v path s hs).bind hs fun w s₁ hw hs₁ => ?_
  cases w with
  | found x => trivial
  | nonSet t => cases fallback <;> trivial
  | missing walked =>
    cases fallback with
    | some d => trivial
    | none =>
      have hnamed : Named walked s₁ := walk_named hw fun c hc => nomatch hc
      obtain ⟨names, -, hnames⟩ := hnamed.pathNames
      refine ((h.pathNames walked s₁ hs₁).attempt hnames.ends).bind hs₁ fun r s₂ _ hs₂ => ?_
      cases r <;> trivial

/-! ### Construction -/

theorem takeApart (name : String) (v : Value) : Fairly R (Comp.takeApart name v) := by
  refine (h.force v).bind fun w => ?_
  cases w with
  | set a => exact (h.attrs a).bind fun _ => .pure _
  | _ => exact .refuse _

theorem slot (b : Addr .builder) (name : String) : Fairly R (Comp.slot b name) :=
  (h.perform (a := .builder b) trivial).bind fun _ => .pure _

theorem definition (env : Env) (rest : List Expr) {value : Expr} (hv : P value) :
    Fairly R (Comp.definition env rest value) := by
  cases rest with
  | nil => exact (h.newThunk env hv).bind fun _ => .pure _
  | cons c rest => exact .pure _

omit h in
/-- The entries of a set that has been taken apart are literals. -/
theorem takeApart_all (hP : Expr.Hereditary P) {name : String} {v : Value} {es : List Entry}
    {s s' : Store} (hes : (Comp.takeApart name v).Ends s (.ok es) s') : ∀ e ∈ es, e.All P := by
  obtain ⟨w, s₁, -, h₂⟩ := ends_bind_ok.mp hes
  cases w with
  | set a =>
    obtain ⟨m, s₂, -, h₃⟩ := ends_bind_ok.mp h₂
    cases (ends_pure.mp h₃).1
    intro e he x hx
    obtain ⟨p, -, rfl⟩ := List.mem_map.mp he
    rcases List.mem_cons.mp hx with rfl | hx
    · exact hP.lit p.2
    · cases List.mem_singleton.mp hx
      exact hP.lit (.str p.1)
  | _ => cases (ends_done.mp h₂).1

section Slots

variable {b : Addr .builder} {name : String} {s : Store}
  (hset : ∀ {s x isNew}, R.holds s → s.Open b name x isNew → x.All P →
    R.act s (.setSlot b name x isNew))
  (hknown : ∀ {s x}, R.holds s → s.known b name = some x → x.All P)

include hset hknown

/-- Entries are collected only for a name of which something is known. -/
theorem collect (hs : R.holds s) (hk : (s.known b name).isSome) {entries : List Entry}
    (he : ∀ e ∈ entries, e.All P) : (Comp.collect b name entries).Fair R s := by
  have hopen : ∀ es, s.Open b name (.tree es) false := fun es =>
    ⟨fun v hv => (by cases hv), by rw [Option.isNone_eq_false_iff.mpr hk]⟩
  refine (h.slot b name s hs).bind hs fun o s₁ ho hs₁ => ?_
  obtain ⟨ho, rfl⟩ := ends_slot.mp ho
  replace ho : o = s₁.known b name := Except.ok.inj ho
  split
  · rename_i old
    refine ⟨hset hs (hopen _) fun e h => ?_, fun _ => trivial⟩
    exact (List.mem_append.mp h).elim (hknown hs ho.symm e) (he e)
  · exact ⟨hset hs (hopen _) he, fun _ => trivial⟩

/-- A name of which something is known stays known while a value is taken apart. -/
theorem merge (hs : R.holds s) (hk : (s.known b name).isSome) {old new : Slot} (ho : old.All P)
    (hn : new.All P) : (Comp.merge b name old new).Fair R s := by
  have hkept : ∀ {v es s₁}, (Comp.takeApart name v).Ends s (.ok es) s₁ →
      (s₁.known b name).isSome := fun hes => (Store.known_law b name).ends hes hk
  cases old with
  | leaf v =>
    cases new with
    | leaf w => trivial
    | tree es =>
      refine (h.takeApart name v s hs).bind hs fun es' s₁ hes hs₁ => ?_
      refine ⟨hset hs₁ ⟨fun v hv => (by cases hv), ?_⟩ fun e he => ?_, fun _ => trivial⟩
      · rw [Option.isNone_eq_false_iff.mpr (hkept hes)]
      · exact (List.mem_append.mp he).elim (takeApart_all h.toHereditary hes e) (hn e)
  | tree old =>
    cases new with
    | leaf w =>
      refine (h.takeApart name w s hs).bind hs fun es s₁ hes hs₁ => ?_
      exact h.collect hset hknown hs₁ (hkept hes) (takeApart_all h.toHereditary hes)
    | tree es => exact h.collect hset hknown hs hk hn

omit h hset hknown in
/-- The definition of a name holds what its entry does. -/
theorem definition_all {env : Env} {rest : List Expr} {value : Expr} {new : Slot} {s' : Store}
    (he : EntryOf.All P ⟨rest, value⟩)
    (hnew : (Comp.definition env rest value).Ends s (.ok new) s') :
    new.All P := by
  cases rest with
  | nil =>
    obtain ⟨v, s₁, -, h₂⟩ := ends_bind_ok.mp hnew
    cases (ends_pure.mp h₂).1
    trivial
  | cons c rest =>
    cases (ends_pure.mp hnew).1
    intro e hmem
    cases List.mem_singleton.mp hmem
    exact he

/-- The definition of a name sets its slot to a value only where there is none. -/
theorem recordDefinition (env : Env) {rest : List Expr} {value : Expr}
    (he : EntryOf.All P ⟨rest, value⟩) :
    Fairly R (do
      let new ← Comp.definition env rest value
      match ← Comp.slot b name with
      | none => Comp.perform (.setSlot b name new true)
      | some old => Comp.merge b name old new) := by
  intro s hs
  have hv : P value := he value List.mem_cons_self
  refine (h.definition env rest hv s hs).bind hs fun new s₁ hnew hs₁ => ?_
  have hall : new.All P := definition_all he hnew
  refine (h.slot b name s₁ hs₁).bind hs₁ fun o s₂ ho hs₂ => ?_
  obtain ⟨ho, rfl⟩ := ends_slot.mp ho
  replace ho : o = s₂.known b name := Except.ok.inj ho
  cases o with
  | none => exact ⟨hset hs₂ ⟨fun _ _ => ho.symm, by rw [← ho]; rfl⟩ hall, fun _ => trivial⟩
  | some old => exact h.merge hset hknown hs₂ (by rw [← ho]; rfl) (hknown hs₂ ho.symm) hall

end Slots

theorem define {b : Addr .builder}
    (hset : ∀ {s name x isNew}, R.holds s → s.Open b name x isNew → x.All P →
      R.act s (.setSlot b name x isNew))
    (hknown : ∀ {s name x}, R.holds s → s.known b name = some x → x.All P) (env : Env) {e : Entry}
    (he : e.All P) : Fairly R (Comp.define b env e) := by
  unfold Comp.define
  split
  · exact .refuse _
  · rename_i component rest hp
    have hc : P component := he component (by simp [EntryOf.parts, hp])
    have hrest : EntryOf.All P ⟨rest, e.value⟩ := by
      intro x hx
      refine he x ?_
      rw [EntryOf.parts, hp]
      exact (List.mem_cons.mp hx).elim (fun h => h ▸ List.mem_cons_self)
        fun h => List.mem_cons_of_mem _ (List.mem_cons_of_mem _ h)
    refine (h.eval env hc).bind fun v => (h.forceName v).bind fun o => ?_
    cases o with
    | none => exact .pure ()
    | some name => exact h.recordDefinition hset hknown env hrest

theorem construct (env : Env) {entries : List Entry} (he : ∀ e ∈ entries, e.All P)
    (recursive : Bool) : Fairly R (Comp.construct env entries recursive) := by
  refine (h.perform (a := .newBuilder env entries recursive) he).bind fun b =>
    (h.request (q := .build b) trivial).bind fun _ =>
      (h.perform (a := .builder b) trivial).bind fun c => ?_
  split
  · exact .pure _
  · exact .refuse _

theorem slotValue (env : Env) {x : Slot} (hx : x.All P) : Fairly R (Comp.slotValue env x) := by
  cases x with
  | leaf v => exact .pure v
  | tree entries => exact (h.construct env hx false).bind fun _ => .pure _

theorem assemble {b : Addr .builder} {s : Store} (hs : R.holds s)
    (hb : ∀ c, s.builders.get? b = some c → ∀ p ∈ c.slots, p.2.All P) :
    (Comp.assemble b).Fair R s := by
  refine (h.perform (a := .builder b) trivial s hs).bind hs fun c s₁ hc hs₁ => ?_
  obtain ⟨hc, hs'⟩ := ends_perform.mp hc
  cases c with
  | none => trivial
  | some c =>
    replace hc : s.builders.get? b = some c := (Except.ok.inj hc).symm
    refine ((Fairly.mapM c.order fun name _ => ?_).bind fun l => ?_) _ hs₁
    · cases hx : c.slots.lookup name with
      | none => exact .fail _
      | some x =>
        exact (h.slotValue c.env (hb c hc _ (Attrs.mem_of_lookup hx))).bind fun _ => .pure _
    · exact h.perform (a := .newSet _) trivial

theorem letScope (env : Env) {entries : List Entry} (he : ∀ e ∈ entries, e.All P) :
    Fairly R (Comp.letScope env entries) :=
  (h.perform (a := .newBuilder env entries true) he).bind fun b =>
    (h.request (q := .build b) trivial).bind fun _ =>
      (h.perform (a := .builder b) trivial).bind fun _ => .pure _

/-! ### Expressions -/

theorem probe (p : Probe) (v : Value) : Fairly R (Comp.probe p v) := by
  unfold Comp.probe
  split
  · exact (h.perform (a := .lambda _) trivial).bind fun _ => (Fairly.ofCell _).bind fun _ => .pure _
  · exact (h.items _).bind fun _ => .pure _
  · exact (h.attrs _).bind fun _ => .pure _
  · refine (h.items _).bind fun xs => ?_
    split
    · exact .pure _
    · exact .fail _
  · exact (h.attrs _).bind fun _ => .pure _
  · exact (h.attrs _).bind fun _ => h.newList _
  · exact .fail _

theorem wrap (env : Env) (m : Nat) (v : Value) : Fairly R (Comp.wrap env m v) := by
  induction m generalizing v with
  | zero => exact .pure v
  | succ m ih => exact (h.newThunk env (h.lit v)).bind ih

theorem evalAll (env : Env) {es : List Expr} (he : ∀ e ∈ es, P e) :
    Fairly R (Comp.evalAll env es) := .mapM es fun e hm => h.eval env (he e hm)

theorem threeWay (l r : Value) : Fairly R (Comp.threeWay l r) := by
  refine (h.forceBoth l r).bind fun p => ?_
  obtain ⟨x, y⟩ := p
  dsimp only
  split
  · exact .pure _
  · exact .pure _
  · exact .refuse _

theorem forcePath (components : List Value) : Fairly R (Comp.forcePath components) :=
  .mapM components fun c _ => (h.force c).bind fun _ => (Fairly.ofExcept _).bind fun _ => .pure _

theorem flaky (id : String) (failures : Nat) : Fairly R (Comp.flaky id failures) := by
  refine (h.perform (a := .count id) trivial).bind fun m => ?_
  split
  · exact .fail _
  · exact .pure ()

theorem fetch (register : String) : Fairly R (Comp.fetch register) := by
  refine (h.perform (a := .fetch register) trivial).bind fun o => ?_
  cases o with
  | none => exact .fail _
  | some v => exact .pure v

omit h in
/-- The entries among the parts of an expression. -/
theorem allEntries {e : Expr} {entries : List Entry} (hp : ∀ x ∈ e.parts, P x)
    (he : entries.flatMap EntryOf.parts ⊆ e.parts) : ∀ d ∈ entries, d.All P :=
  fun d hd x hx => hp x (he (List.mem_flatMap.mpr ⟨d, hd, hx⟩))

/-- **Every expression is fair** if its parts are. -/
theorem ofExpr (env : Env) {e : Expr} (he : P e) : Fairly R (Comp.ofExpr env e) := by
  -- one case for each expression, all of whose parts are evaluated by requests
  have hp : ∀ x ∈ e.parts, P x := fun x hx => h.part he hx
  have hev : ∀ {x}, x ∈ e.parts → Fairly R (Comp.eval env x) := fun hx => h.eval env (hp _ hx)
  have hall : ∀ {es}, es ⊆ e.parts → Fairly R (Comp.evalAll env es) :=
    fun hes => h.evalAll env fun x hx => hp x (hes hx)
  cases e with
  | lit v => exact .pure v
  | nothing => exact .fail _
  | raise t => exact .fail _
  | toPath t => exact (h.perform (a := .scriptDir env) trivial).bind fun _ => .pure _
  | list es =>
    exact (Fairly.mapM es fun x hx => h.newThunk env (hp x hx)).bind fun _ => h.newList _
  | eagerList es => exact (hall (List.Subset.refl es)).bind fun _ => h.newList _
  | eagerSet es =>
    refine (Fairly.mapM es fun p hm => ?_).bind fun _ => h.newSet _
    exact (hev (List.mem_map_of_mem hm)).bind fun _ => .pure _
  | attrset recursive entries =>
    exact (h.construct env (allEntries hp (List.Subset.refl _)) recursive).bind fun _ => .pure _
  | pending b name => exact h.lookupComplete b name
  | var name => exact h.lookup env name
  | letIn entries body =>
    exact (h.letScope env (allEntries hp (List.subset_cons_self _ _))).bind fun _ =>
      h.eval _ (hp body List.mem_cons_self)
  | withIn scope body =>
    refine (hev (by simp [Expr.parts])).bind fun v => (h.force v).bind fun w => ?_
    cases w with
    | set a => exact h.eval _ (hp body (by simp [Expr.parts]))
    | _ => exact .refuse _
  | lambda param body =>
    have hf : Lambda.All P ⟨env, param, body⟩ :=
      ⟨hp body List.mem_cons_self, fun x hx => hp x (List.mem_cons_of_mem _ hx)⟩
    exact (h.perform (a := .newLambda _) hf).bind fun _ => .pure _
  | call f args =>
    exact (hev List.mem_cons_self).bind fun _ =>
      (hall (List.subset_cons_self _ _)).bind fun _ => h.applyAll _ _
  | cond c yes no =>
    refine (hev (by simp [Expr.parts])).bind fun v => (h.force v).bind fun w => ?_
    split
    · exact hev (by simp [Expr.parts])
    · exact hev (by simp [Expr.parts])
  | unary o e => exact (hev List.mem_cons_self).bind fun _ => h.unary o _
  | binary o l r =>
    exact (hev (by simp [Expr.parts])).bind fun _ =>
      (hev (by simp [Expr.parts])).bind fun _ => h.binary o _ _
  | comparison o l r =>
    exact (hev (by simp [Expr.parts])).bind fun _ =>
      (hev (by simp [Expr.parts])).bind fun _ => h.comparison o _ _
  | threeWay l r =>
    exact (hev (by simp [Expr.parts])).bind fun _ =>
      (hev (by simp [Expr.parts])).bind fun _ => h.threeWay _ _
  | has e path =>
    exact (hev List.mem_cons_self).bind fun _ => (hall (List.subset_cons_self _ _)).bind fun _ =>
      (h.has _ _).bind fun _ => .pure _
  | select e path fallback =>
    have hpath : path ⊆ Expr.parts (.select e path fallback) :=
      fun x hx => List.mem_cons_of_mem _ (List.mem_append_right _ hx)
    cases fallback with
    | none =>
      exact (hev List.mem_cons_self).bind fun _ => (hall hpath).bind fun _ => h.select _ _ none
    | some d =>
      exact (hev List.mem_cons_self).bind fun _ => (hall hpath).bind fun _ =>
        (hev (by simp [Expr.parts])).bind fun _ => h.select _ _ _
  | attrPath components =>
    exact (hall (List.Subset.refl _)).bind fun _ => (h.forcePath _).bind fun _ => h.newList _
  | interpolate e =>
    refine (hev List.mem_cons_self).bind fun v => (h.force v).bind fun w => ?_
    cases w with
    | str s => exact .pure _
    | _ => exact .refuse _
  | typeOf e => exact (hev List.mem_cons_self).bind fun _ => (h.typeOf _).bind fun _ => .pure _
  | print e => exact (hev List.mem_cons_self).bind fun _ => (h.print _).bind fun _ => .pure _
  | delay e => exact h.newThunk env (hp e List.mem_cons_self)
  | detach e => exact h.newThunk .empty (hp e List.mem_cons_self)
  | wrap layers e => exact (hev List.mem_cons_self).bind fun _ => h.wrap env layers _
  | orElse e other =>
    refine fun s hs =>
      (hev List.mem_cons_self s hs).attempt_bind (h.orElse he) hs fun r s₁ hs₁ => ?_
    cases r with
    | ok v => trivial
    | error _ => exact hev (by simp [Expr.parts]) s₁ hs₁
  | force e => exact (hev List.mem_cons_self).bind h.force
  | deepForce e => exact (hev List.mem_cons_self).bind h.deepForce
  | lazyText e =>
    exact (hev List.mem_cons_self).bind fun v =>
      (h.perform (a := .view v) trivial).bind fun _ => .pure _
  | lazyType e =>
    exact (hev List.mem_cons_self).bind fun v =>
      (h.perform (a := .typeName v) trivial).bind fun _ => .pure _
  | isForced e =>
    refine (hev List.mem_cons_self).bind fun v => ?_
    cases v with
    | thunk t => exact (h.perform (a := .forced? t) trivial).bind fun _ => .pure _
    | _ => exact .pure _
  | probe p e =>
    exact (hev List.mem_cons_self).bind fun _ => (h.force _).bind fun _ => h.probe p _
  | scriptDir => exact (h.perform (a := .scriptDir env) trivial).bind fun _ => .pure _
  | depth => exact (h.perform (a := .depth env) trivial).bind fun _ => .pure _
  | trace tag e =>
    exact (h.perform (a := .record (.tag tag)) ⟨e, he⟩).bind fun _ => hev List.mem_cons_self
  | flaky id failures e => exact (h.flaky id failures).bind fun _ => hev List.mem_cons_self
  | save r e =>
    exact (hev List.mem_cons_self).bind fun v =>
      (h.perform (a := .save r v) trivial).bind fun _ => .pure v
  | fetch r => exact h.fetch r

/-! ### Requests -/

/-- What a request starts is fair, but for the construction of a set. -/
theorem start {q : Request} {c : Comp q.Answer} {s s' : Store} (hq : q.Plain P)
    (hb : ∀ b, q ≠ .build b)
    (hthunk : ∀ t env body, q = .force t → s.thunks.get? t = some (.unforced env body) → P body)
    (hs : q.start s = .run c s') : Fairly R c := by
  cases q with
  | force t =>
    obtain ⟨env, body, ht, -, rfl, -⟩ := Store.startForce_run hs
    exact (h.eval env (hthunk t env body rfl ht)).bind h.force
  | eval env e => cases hs; exact h.ofExpr env hq
  | build b => exact absurd rfl (hb b)
  | entry b => exact hq.elim
  | assemble b => exact hq.elim
  | equal l r => cases hs; exact h.equal l r
  | less l r => cases hs; exact h.less l r
  | spell above v => cases hs; exact h.spell above v
  | sweep seen v => cases hs; exact h.sweep seen v

end Rules.Permits

end NixKernel
