import NixKernel.Proofs.Alike.Link
import NixKernel.Proofs.Builder.Slots
import NixKernel.Proofs.Forcing

/-!
The expressions in a store. They come in with actions and with requests, and what is in the store is
only handed on from there: from the entries of a set to its slots, and from a thunk to its body.
Expressions that pass on every error are one kind of expressions that can be told from the others in
this way.
-/

namespace NixKernel

variable {s s' : Store} {P : Expr → Prop}

/-! ### Properties of expressions -/

/-- An expression and all its parts have a property. -/
inductive Expr.Everywhere (Q : Expr → Prop) : Expr → Prop
  | intro {e : Expr} (here : Q e) (parts : ∀ x ∈ e.parts, Everywhere Q x) : Everywhere Q e

/-- The expression does not go on after an error of one of its parts. -/
def Expr.Propagates : Expr → Prop := Expr.Everywhere fun e => ∀ x other, e ≠ .orElse x other

/-- A property of expressions that their parts have too, and so have the expressions that the
machine makes itself. -/
structure Expr.Hereditary (P : Expr → Prop) : Prop where
  part : ∀ {e x : Expr}, P e → x ∈ e.parts → P x
  lit : ∀ v, P (.lit v)
  pending : ∀ b name, P (.pending b name)

namespace Expr

variable {Q : Expr → Prop} {e x : Expr}

theorem Everywhere.here (h : e.Everywhere Q) : Q e := by
  obtain ⟨here, -⟩ := h
  exact here

theorem Everywhere.part (h : e.Everywhere Q) (hx : x ∈ e.parts) : x.Everywhere Q := by
  obtain ⟨-, parts⟩ := h
  exact parts x hx

theorem everywhere_hereditary (lit : ∀ v, Q (.lit v)) (pending : ∀ b name, Q (.pending b name)) :
    Hereditary (Everywhere Q) where
  part h hx := h.part hx
  lit v := ⟨lit v, fun _ h => (by cases h)⟩
  pending b name := ⟨pending b name, fun _ h => (by cases h)⟩

theorem propagates_hereditary : Hereditary Propagates :=
  everywhere_hereditary (fun _ _ _ h => by cases h) fun _ _ _ _ h => by cases h

theorem not_propagates_orElse (e other : Expr) : ¬ (Expr.orElse e other).Propagates :=
  fun h => h.here e other rfl

/-- Whether an expression and its parts pass on every error, looked at down to a depth. -/
def passesOn : Nat → Expr → Bool
  | 0, _ => false
  | _, .orElse .. => false
  | n + 1, e => e.parts.all (passesOn n)

theorem propagates_of_passesOn (n : Nat) (h : e.passesOn n = true) : e.Propagates := by
  induction n generalizing e with
  | zero => cases h
  | succ n ih =>
    have hne : ∀ x other, e ≠ .orElse x other := by
      rintro x other rfl
      cases h
    refine ⟨hne, fun x hx => ih ?_⟩
    have hall : e.parts.all (passesOn n) = true := by
      cases e with
      | orElse x other => exact absurd rfl (hne x other)
      | _ => exact h
    exact List.all_eq_true.mp hall x hx

theorem hereditary_true : Hereditary fun _ => True :=
  ⟨fun _ _ => trivial, fun _ => trivial, fun _ _ => trivial⟩

end Expr

/-! ### Expressions in a store -/

/-- All expressions in an entry have a property. -/
def EntryOf.All (P : Expr → Prop) (e : Entry) : Prop := ∀ x ∈ e.parts, P x

/-- All expressions in a function have a property. -/
def Lambda.All (P : Expr → Prop) (f : Lambda) : Prop := P f.body ∧ ∀ x ∈ f.param.parts, P x

/-- All expressions collected for an attribute have a property. -/
def Slot.All (P : Expr → Prop) : Slot → Prop
  | .leaf _ => True
  | .tree entries => ∀ e ∈ entries, e.All P

theorem EntryOf.all_of_forall (h : ∀ e, P e) (e : Entry) : e.All P := fun x _ => h x

theorem Slot.all_of_forall (h : ∀ e, P e) (x : Slot) : x.All P := by
  cases x with
  | leaf v => trivial
  | tree entries => exact fun e _ => e.all_of_forall h

def Thunk.All (P : Expr → Prop) : Thunk → Prop
  | .unforced _ e | .forcing _ e => P e
  | .forced _ => True

/-- All expressions in the thunks and the functions of a store have a property. -/
structure Store.Bodies (P : Expr → Prop) (s : Store) : Prop where
  thunk : ∀ {t c}, s.thunks.get? t = some c → c.All P
  lambda : ∀ {a f}, s.lambdas.get? a = some f → f.All P

/-- All expressions in a store have a property. -/
structure Store.All (P : Expr → Prop) (s : Store) : Prop extends s.Bodies P where
  entries : ∀ {b d}, s.builders.get? b = some d → ∀ e ∈ d.entries.toList, e.All P
  slots : ∀ {b d}, s.builders.get? b = some d → ∀ p ∈ d.slots, p.2.All P

/-- No expression in a store goes on after an error. -/
def Store.Propagates (s : Store) : Prop := s.All Expr.Propagates

/-- All expressions that an action brings into the store have a property. -/
def Action.Brings (P : Expr → Prop) : Action → Prop
  | newThunk _ body => P body
  | newLambda f => f.All P
  | newBuilder _ entries _ => ∀ e ∈ entries, e.All P
  | openScope _ formals _ _ => ∀ x ∈ formals.filterMap FormalOf.fallback, P x
  | setSlot _ _ x _ => x.All P
  | _ => True

/-- The expression that a request brings has a property. -/
def Request.Brings (P : Expr → Prop) : Request → Prop
  | eval _ e => P e
  | _ => True

/-- Entries whose expressions pass on every error. -/
theorem Entry.propagates_of_passesOn (n : Nat) {entries : List Entry}
    (h : (entries.all fun e => e.parts.all (Expr.passesOn n)) = true) :
    ∀ e ∈ entries, e.All Expr.Propagates := fun e he x hx =>
  Expr.propagates_of_passesOn n (List.all_eq_true.mp (List.all_eq_true.mp h e he) x hx)

theorem Action.Brings.delayed {a : Action} (ha : a.Brings P) : ∀ e ∈ a.delayed, P e := by
  cases a with
  | newThunk env body =>
    intro e he
    cases List.mem_singleton.mp he
    exact ha
  | openScope env formals whole arg => exact ha
  | _ => exact fun e he => (by cases he)

theorem forall_setKey {γ : Type} {Q : String × γ → Prop} {key : String} {x : γ}
    {l : List (String × γ)} (h : ∀ p ∈ l, Q p) (hx : Q (key, x)) :
    ∀ p ∈ setKey key x l, Q p := by
  induction l with
  | nil => simpa [setKey] using hx
  | cons p l ih =>
    rw [setKey]
    split
    · intro q hq
      rcases List.mem_cons.mp hq with rfl | hq
      · exact hx
      · exact h q (List.mem_cons_of_mem _ hq)
    · intro q hq
      rcases List.mem_cons.mp hq with rfl | hq
      · exact h _ List.mem_cons_self
      · exact ih (fun p hp => h p (List.mem_cons_of_mem _ hp)) q hq

namespace Store

/-- The only expression in the first store is the body of the built-in function. -/
theorem initial_all (h : P typeOfLambda.body) : initial.All P where
  thunk ht := by simp [initial, Heap.get?, Heap.empty] at ht
  lambda {a f} hf := by
    have hmem : f ∈ [typeOfLambda] := List.mem_of_getElem? (i := a.index) (by
      simpa [initial, Heap.get?] using hf)
    cases List.mem_singleton.mp hmem
    exact ⟨h, fun x hx => by cases hx⟩
  entries hb := by simp [initial, Heap.get?, Heap.empty] at hb
  slots hb := by simp [initial, Heap.get?, Heap.empty] at hb

/-! ### Actions -/

theorem Bodies.perform (h : s.Bodies P) {a : Action} (ha : a.Brings P) :
    (a.perform s).2.Bodies P where
  thunk {t c} hc := by
    rcases get?_of_perform hc with hc | ⟨env, body, rfl, hbody⟩
    · exact h.thunk hc
    · exact ha.delayed body hbody
  lambda {x f} hf := by
    cases a with
    | newLambda g =>
      simp only [Action.perform, newLambda, Heap.get?_push] at hf
      split at hf
      · cases hf
        exact ha
      · exact h.lambda hf
    | _ => exact h.lambda hf

/-- A set under construction after a slot of one has been set. -/
theorem builder_setSlot {b b' : Addr .builder} {name : String} {x : Slot} {isNew : Bool}
    {d' : Builder} (hb' : (s.setSlot b name x isNew).builders.get? b' = some d') :
    ∃ d, s.builders.get? b' = some d ∧ d' = if b = b' then d.put name x isNew else d := by
  rw [setSlot, Heap.get?_modify] at hb'
  split at hb'
  · obtain ⟨d, hd, rfl⟩ := Option.map_eq_some_iff.mp hb'
    exact ⟨d, hd, (if_pos ‹_›).symm⟩
  · exact ⟨d', hb', (if_neg ‹_›).symm⟩

theorem All.perform (h : s.All P) {a : Action} (ha : a.Brings P) : (a.perform s).2.All P := by
  refine ⟨h.toBodies.perform ha, fun {b d} hb => ?_, fun {b d} hb => ?_⟩
  · cases a with
    | newBuilder env entries recursive =>
      simp only [Action.perform, newBuilder, Heap.get?_push] at hb
      split at hb
      · cases hb
        exact ha
      · exact h.entries hb
    | setSlot b' name x isNew =>
      obtain ⟨d₀, hb₀, rfl⟩ := builder_setSlot hb
      split <;> exact (h.entries hb₀ :)
    | _ => exact h.entries hb
  · cases a with
    | newBuilder env entries recursive =>
      simp only [Action.perform, newBuilder, Heap.get?_push] at hb
      split at hb
      · cases hb
        exact fun p hp => (by cases hp)
      · exact h.slots hb
    | setSlot b' name x isNew =>
      obtain ⟨d₀, hb₀, rfl⟩ := builder_setSlot hb
      split
      · exact forall_setKey (h.slots hb₀) ha
      · exact h.slots hb₀
    | _ => exact h.slots hb

/-! ### Starting and ending -/

theorem lambdas_start {q : Request} {c : Comp q.Answer} (hq : q.start s = .run c s') :
    s'.lambdas = s.lambdas := by
  cases q with
  | force t =>
    obtain ⟨env, body, -, -, -, rfl⟩ := startForce_run hq
    rw [enter, changeDepth_eq]
    rfl
  | entry b =>
    obtain ⟨d, e, -, -, -, rfl⟩ := startEntry_run hq
    rfl
  | _ => cases hq; rfl

theorem lambdas_finish (q : Request) (r : Except Error q.Answer) (s : Store) :
    (q.finish r s).lambdas = s.lambdas := by
  cases q with
  | force t =>
    simp only [Request.finish, finishForce]
    split
    · rw [leave, changeDepth_eq]
      cases r <;> rfl
    · rfl
  | entry b => cases r <;> rfl
  | _ => rfl

theorem Bodies.start (h : s.Bodies P) {q : Request} {c : Comp q.Answer}
    (hq : q.start s = .run c s') : s'.Bodies P where
  thunk {t c} hc := by
    rcases Request.start_cases hq with ⟨t', env, body, -, ht, -, hs, -⟩ | ⟨-, hs, -⟩
    · rw [hs, Heap.get?_modify] at hc
      split at hc
      · subst t'
        rw [ht] at hc
        cases hc
        exact (h.thunk ht : P body)
      · exact h.thunk hc
    · exact h.thunk (hs ▸ hc)
  lambda hf := h.lambda (lambdas_start hq ▸ hf)

theorem Bodies.finish (h : s.Bodies P) (q : Request) (r : Except Error q.Answer) :
    (q.finish r s).Bodies P where
  thunk {t c} hc := by
    rcases q.finish_cases r s with ⟨t', env, body, c', -, ht, hc', hs, -⟩ | ⟨-, hs, -⟩
    · rw [hs, Heap.get?_modify] at hc
      split at hc
      · subst t'
        rw [ht] at hc
        cases hc
        rcases hc' with ⟨v, rfl⟩ | rfl
        · trivial
        · exact (h.thunk ht : P body)
      · exact h.thunk hc
    · exact h.thunk (hs ▸ hc)
  lambda hf := h.lambda (lambdas_finish q r s ▸ hf)

theorem All.start (h : s.All P) {q : Request} {c : Comp q.Answer} (hq : q.start s = .run c s') :
    s'.All P := by
  obtain ⟨f, hf, hcell⟩ := Request.start_cells hq
  refine ⟨h.toBodies.start hq, fun {b d} hb => ?_, fun {b d} hb => ?_⟩ <;>
    obtain ⟨d₀, hb₀, rfl⟩ := Option.map_eq_some_iff.mp ((hf b).symm.trans hb)
  · exact (hcell b d₀).1.entries ▸ h.entries hb₀
  · exact (hcell b d₀).1.slots ▸ h.slots hb₀

theorem All.finish (h : s.All P) (q : Request) (r : Except Error q.Answer) :
    (q.finish r s).All P := by
  obtain ⟨f, hf, hcell⟩ := q.finish_cells r s
  refine ⟨h.toBodies.finish q r, fun {b d} hb => ?_, fun {b d} hb => ?_⟩ <;>
    obtain ⟨d₀, hb₀, rfl⟩ := Option.map_eq_some_iff.mp ((hf b).symm.trans hb)
  · exact (hcell b d₀).1.entries ▸ h.entries hb₀
  · exact (hcell b d₀).1.slots ▸ h.slots hb₀

/-- What is known of an attribute is made of what is in the store. -/
theorem All.known (h : s.All P) {b : Addr .builder} {name : String} {x : Slot}
    (hx : s.known b name = some x) : x.All P := by
  obtain ⟨d, hb, hd⟩ := Option.bind_eq_some_iff.mp hx
  exact h.slots hb _ (Attrs.mem_of_lookup hd)

end Store

end NixKernel
