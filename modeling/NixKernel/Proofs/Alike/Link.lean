import NixKernel.Proofs.Attrs
import NixKernel.Proofs.Outcome

/-!
Data that differ only in the addresses of cells. A link says which cells of two stores stand for
each other; values, scopes, expressions and the contents of cells are alike if they are the same up
to linked addresses.
-/

namespace NixKernel

/-! ### Links -/

/-- Which cells of two stores stand for each other. The empty set does so for itself, and from
`left` and `right` on the cells do so in the order in which they are made. The frames in `settled`
stand for each other too, since the sets behind them are finished. What was in the journals before,
`leftJournal` and `rightJournal`, may differ. -/
structure Link where
  rel : CellSort → Nat → Nat → Prop
  left : CellSort → Nat
  right : CellSort → Nat
  leftJournal : List Event
  rightJournal : List Event
  settled : Frame → Frame → Prop
  empty : rel .set Addr.emptySet.index Addr.emptySet.index
  ahead : ∀ σ d, rel σ (left σ + d) (right σ + d)
  unique : ∀ {σ i i' j j'}, rel σ i j → rel σ i' j' → (i = i' ↔ j = j')
  apart : ∀ {b b' : Addr .builder}, rel .builder b.index b'.index →
    (∀ f, ¬ settled (.builder b) f) ∧ ∀ f, ¬ settled f (.builder b')

/-! ### Values -/

/-- Two addresses stand for each other. -/
def Addr.Alike (ρ : Link) {σ : CellSort} (a b : Addr σ) : Prop := ρ.rel σ a.index b.index

theorem Addr.Alike.eq_iff {ρ : Link} {σ : CellSort} {a a' b b' : Addr σ} (h : a.Alike ρ b)
    (h' : a'.Alike ρ b') : a = a' ↔ b = b' := by
  have hi := ρ.unique h h'
  obtain ⟨i⟩ := a
  obtain ⟨i'⟩ := a'
  obtain ⟨j⟩ := b
  obtain ⟨j'⟩ := b'
  rw [Addr.mk.injEq, Addr.mk.injEq]
  exact hi

inductive Value.Alike (ρ : Link) : Value → Value → Prop
  | int (n : Int64) : Alike ρ (.int n) (.int n)
  | float (x : Float) : Alike ρ (.float x) (.float x)
  | bool (b : Bool) : Alike ρ (.bool b) (.bool b)
  | null : Alike ρ .null .null
  | str (t : String) : Alike ρ (.str t) (.str t)
  | path (p : Path) : Alike ρ (.path p) (.path p)
  | list {a b : Addr .list} (h : a.Alike ρ b) : Alike ρ (.list a) (.list b)
  | set {a b : Addr .set} (h : a.Alike ρ b) : Alike ρ (.set a) (.set b)
  | lambda {a b : Addr .lambda} (h : a.Alike ρ b) : Alike ρ (.lambda a) (.lambda b)
  | thunk {a b : Addr .thunk} (h : a.Alike ρ b) : Alike ρ (.thunk a) (.thunk b)

inductive Container.Alike (ρ : Link) : Container → Container → Prop
  | list {a b : Addr .list} (h : a.Alike ρ b) : Alike ρ (.list a) (.list b)
  | set {a b : Addr .set} (h : a.Alike ρ b) : Alike ρ (.set a) (.set b)

/-- Two outcomes are both answers, which are related, or both the same error. -/
inductive Both {ε α β : Type} (R : α → β → Prop) : Except ε α → Except ε β → Prop
  | ok {a : α} {b : β} (h : R a b) : Both R (.ok a) (.ok b)
  | error (e : ε) : Both R (.error e) (.error e)

theorem Both.eq {ε α : Type} {R : α → α → Prop} (hR : ∀ {a b}, R a b → a = b)
    {r r' : Except ε α} (h : Both R r r') : r = r' := by
  cases h with
  | ok h => rw [hR h]
  | error e => rfl

/-- Related options are both empty, or both hold related things. -/
theorem rel_cases {α β : Type} {R : α → β → Prop} {x : Option α} {y : Option β}
    (h : Option.Rel R x y) :
    (x = none ∧ y = none) ∨ ∃ a b, x = some a ∧ y = some b ∧ R a b := by
  cases h with
  | none => exact Or.inl ⟨rfl, rfl⟩
  | some h => exact Or.inr ⟨_, _, rfl, rfl, h⟩

theorem getElem?_alike {α β : Type} {R : α → β → Prop} {l : List α} {l' : List β}
    (h : List.Forall₂ R l l') (i : Nat) : Option.Rel R l[i]? l'[i]? := by
  induction h generalizing i with
  | nil => exact .none
  | cons hab _ ih =>
    cases i with
    | zero => exact .some hab
    | succ i => exact ih i

section Values

variable {ρ : Link} {v v' w w' : Value}

theorem Value.Alike.typeName (h : v.Alike ρ v') : v.typeName = v'.typeName := by
  cases h <;> rfl

theorem Value.Alike.number? (h : v.Alike ρ v') : v.number? = v'.number? := by
  cases h <;> rfl

theorem Value.Alike.isSameConstant (h : v.Alike ρ v') (hw : w.Alike ρ w') :
    v.isSameConstant w = v'.isSameConstant w' := by
  cases h <;> cases hw <;> rfl

theorem Number.alike (ρ : Link) (n : Number) : n.toValue.Alike ρ n.toValue := by
  cases n with
  | int n => exact .int n
  | float x => exact .float x

theorem Value.Alike.arithmetic (h : v.Alike ρ v') (hw : w.Alike ρ w') (o : Operator)
    (ints : Int64 → Int64 → Int64) (floats : Float → Float → Float) :
    Both (Value.Alike ρ) (v.arithmetic o ints floats w) (v'.arithmetic o ints floats w') := by
  unfold Value.arithmetic
  rw [h.number?, hw.number?, h.typeName, hw.typeName]
  split
  · exact .ok (Number.alike ρ _)
  · exact .error _

theorem Value.Alike.neg (h : v.Alike ρ v') : Both (Value.Alike ρ) v.neg v'.neg := by
  cases h with
  | int n => exact .ok (.int _)
  | float x => exact .ok (.float _)
  | _ => exact .error _

theorem Value.Alike.add (h : v.Alike ρ v') (hw : w.Alike ρ w') :
    Both (Value.Alike ρ) (v.add w) (v'.add w') := by
  have hn := h.arithmetic hw .add (· + ·) (· + ·)
  cases h with
  | str s =>
    cases hw with
    | str t => exact .ok (.str _)
    | _ => exact hn
  | path p =>
    cases hw with
    | str t => exact .ok (.path _)
    | path q => exact .ok (.path _)
    | _ => exact hn
  | _ => exact hn

theorem Value.Alike.div (h : v.Alike ρ v') (hw : w.Alike ρ w') :
    Both (Value.Alike ρ) (v.div w) (v'.div w') := by
  have hn := h.arithmetic hw .div (· / ·) (· / ·)
  cases h with
  | int m =>
    cases hw with
    | int n =>
      unfold Value.div
      dsimp only
      split
      · exact .error _
      · exact .ok (.int _)
    | _ => exact hn
  | _ => exact hn

theorem Value.Alike.plainEq (h : v.Alike ρ v') (hw : w.Alike ρ w') :
    v.plainEq w = v'.plainEq w' := by
  cases h with
  | lambda h =>
    cases hw with
    | lambda hw => exact decide_eq_decide.mpr (h.eq_iff hw)
    | _ => rfl
  | _ => cases hw <;> rfl

theorem Value.Alike.plainLess (h : v.Alike ρ v') (hw : w.Alike ρ w') :
    v.plainLess w = v'.plainLess w' := by
  cases h <;> cases hw <;> rfl

theorem Container.Alike.eq_iff {c c' d d' : Container} (h : c.Alike ρ d) (h' : c'.Alike ρ d') :
    c = c' ↔ d = d' := by
  cases h with
  | list h =>
    cases h' with
    | list h' => simpa using h.eq_iff h'
    | set h' => simp
  | set h =>
    cases h' with
    | list h' => simp
    | set h' => simpa using h.eq_iff h'

theorem Container.Alike.mem_iff {c d : Container} {l l' : List Container} (h : c.Alike ρ d)
    (hl : List.Forall₂ (Container.Alike ρ) l l') : c ∈ l ↔ d ∈ l' := by
  induction hl with
  | nil => simp
  | cons hx _ ih => rw [List.mem_cons, List.mem_cons, h.eq_iff hx, ih]

end Values

/-! ### Changed lists of pairs -/

section Bindings

variable {α β : Type} {R : α → β → Prop} {l : List (String × α)} {l' : List (String × β)}

theorem setKey_alike (h : List.Forall₂ (Binding R) l l') (k : String) {x : α} {y : β}
    (hxy : R x y) : List.Forall₂ (Binding R) (setKey k x l) (setKey k y l') := by
  induction h with
  | nil => exact .cons ⟨rfl, hxy⟩ .nil
  | @cons p q l l' hpq hl ih =>
    obtain ⟨j, a⟩ := p
    obtain ⟨j', b⟩ := q
    obtain ⟨rfl, hab⟩ := hpq
    unfold setKey
    split
    · exact .cons ⟨rfl, hxy⟩ hl
    · exact .cons ⟨rfl, hab⟩ ih

theorem insertBinding_alike (h : List.Forall₂ (Binding R) l l') (k : String) {x : α} {y : β}
    (hxy : R x y) :
    List.Forall₂ (Binding R) (Attrs.insertBinding k x l) (Attrs.insertBinding k y l') := by
  induction h with
  | nil => exact .cons ⟨rfl, hxy⟩ .nil
  | @cons p q l l' hpq hl ih =>
    obtain ⟨j, a⟩ := p
    obtain ⟨j', b⟩ := q
    obtain ⟨rfl, hab⟩ := hpq
    unfold Attrs.insertBinding
    split
    · exact .cons ⟨rfl, hxy⟩ (.cons ⟨rfl, hab⟩ hl)
    · split
      · exact .cons ⟨rfl, hxy⟩ hl
      · exact .cons ⟨rfl, hab⟩ ih

end Bindings

/-- Two sets have the same names, bound to alike values. -/
def Attrs.Alike (ρ : Link) (m m' : Attrs Value) : Prop :=
  List.Forall₂ (Binding (Value.Alike ρ)) m.bindings m'.bindings

section Attrs

variable {ρ : Link} {m m' n n' : Attrs Value}

theorem Attrs.Alike.empty (ρ : Link) : Attrs.Alike ρ .empty .empty := .nil

theorem Attrs.Alike.get? (h : m.Alike ρ m') (k : String) :
    Option.Rel (Value.Alike ρ) (m.get? k) (m'.get? k) := lookup_alike h k

theorem Attrs.Alike.keys (h : m.Alike ρ m') : m.keys = m'.keys := names_alike h

theorem Attrs.Alike.size (h : m.Alike ρ m') : m.size = m'.size := List.Forall₂.length_eq h

theorem Attrs.Alike.insert (h : m.Alike ρ m') (k : String) {v v' : Value} (hv : v.Alike ρ v') :
    (m.insert k v).Alike ρ (m'.insert k v') := insertBinding_alike h k hv

theorem Attrs.Alike.insertAll (h : m.Alike ρ m') {l l' : List (String × Value)}
    (hl : List.Forall₂ (Binding (Value.Alike ρ)) l l') :
    (l.foldl (fun m p => m.insert p.1 p.2) m).Alike ρ
      (l'.foldl (fun m p => m.insert p.1 p.2) m') := by
  induction hl generalizing m m' with
  | nil => exact h
  | @cons p q l l' hpq _ ih =>
    refine ih ?_
    dsimp only
    rw [hpq.1]
    exact h.insert q.1 hpq.2

theorem Attrs.Alike.ofList {l l' : List (String × Value)}
    (hl : List.Forall₂ (Binding (Value.Alike ρ)) l l') :
    (Attrs.ofList l).Alike ρ (Attrs.ofList l') := (Attrs.Alike.empty ρ).insertAll hl

theorem Attrs.Alike.union (h : m.Alike ρ m') (hn : n.Alike ρ n') :
    (m.union n).Alike ρ (m'.union n') := h.insertAll hn

/-- Ascending bindings of the same names are in the same order. -/
theorem forall₂_of_lookup {α β : Type} {R : α → β → Prop} {l : List (String × α)}
    {l' : List (String × β)} (hl : Ascending l) (hl' : Ascending l')
    (h : ∀ k, Option.Rel R (l.lookup k) (l'.lookup k)) : List.Forall₂ (Binding R) l l' := by
  induction l generalizing l' with
  | nil =>
    cases l' with
    | nil => exact .nil
    | cons q l' =>
      have hq := h q.1
      rw [Attrs.lookup_cons_ite, if_pos rfl] at hq
      cases hq
  | cons p l ih =>
    obtain ⟨k, x⟩ := p
    have hk := h k
    rw [Attrs.lookup_cons_ite, if_pos rfl] at hk
    cases l' with
    | nil => cases hk
    | cons q l' =>
      obtain ⟨j, y⟩ := q
      have hj := h j
      rw [Attrs.lookup_cons_ite, Attrs.lookup_cons_ite, if_pos rfl] at hj
      rw [Attrs.lookup_cons_ite] at hk
      by_cases hkj : k = j
      · subst hkj
        rw [if_pos rfl] at hk
        cases hk with
        | some hxy =>
          refine .cons ⟨rfl, hxy⟩ (ih hl.of_cons hl'.of_cons fun i => ?_)
          by_cases hi : i = k
          · subst hi
            have hnone : l.lookup i = none ∧ l'.lookup i = none := by
              refine ⟨?_, ?_⟩ <;> refine Option.eq_none_iff_forall_ne_some.mpr fun z hz => ?_
              · exact Text.Before.irrefl i (Attrs.before_of_lookup hl hz)
              · exact Text.Before.irrefl i (Attrs.before_of_lookup hl' hz)
            rw [hnone.1, hnone.2]
            exact .none
          · have hr := h i
            rwa [Attrs.lookup_cons_ite, Attrs.lookup_cons_ite, if_neg hi, if_neg hi] at hr
      · -- each first name is in the other list, so each stands before the other
        rw [if_neg hkj] at hk
        rw [if_neg (Ne.symm hkj)] at hj
        rcases rel_cases hk with ⟨hx, -⟩ | ⟨-, y', -, hy', -⟩
        · cases hx
        · rcases rel_cases hj with ⟨-, hy⟩ | ⟨x', -, hx', -⟩
          · cases hy
          · exact absurd (Attrs.before_of_lookup hl hx') (Attrs.before_of_lookup hl' hy').asymm

theorem Attrs.alike_of_get? (h : ∀ k, Option.Rel (Value.Alike ρ) (m.get? k) (m'.get? k)) :
    m.Alike ρ m' := forall₂_of_lookup m.ascending m'.ascending h

end Attrs

/-! ### Scopes -/

inductive Frame.Alike (ρ : Link) : Frame → Frame → Prop
  | set {a b : Addr .set} (h : a.Alike ρ b) : Alike ρ (.set a) (.set b)
  | binding (x : String) {v w : Value} (h : v.Alike ρ w) : Alike ρ (.binding x v) (.binding x w)
  | builder {b b' : Addr .builder} (h : b.Alike ρ b') : Alike ρ (.builder b) (.builder b')
  | settled {f f' : Frame} (h : ρ.settled f f') : Alike ρ f f'

structure Env.Alike (ρ : Link) (env env' : Env) : Prop where
  thread : env.thread = env'.thread
  shadow : List.Forall₂ (Frame.Alike ρ) env.shadow env'.shadow
  namespaces : List.Forall₂ (Addr.Alike ρ) env.namespaces env'.namespaces

section Scopes

variable {ρ : Link} {env env' : Env}

theorem Env.Alike.empty (ρ : Link) : Env.empty.Alike ρ .empty := ⟨rfl, .nil, .nil⟩

theorem Env.Alike.withShadow (h : env.Alike ρ env') {f f' : Frame} (hf : f.Alike ρ f') :
    (env.withShadow f).Alike ρ (env'.withShadow f') := ⟨h.thread, .cons hf h.shadow, h.namespaces⟩

theorem Env.Alike.withNamespace (h : env.Alike ρ env') {a a' : Addr .set} (ha : a.Alike ρ a') :
    (env.withNamespace a).Alike ρ (env'.withNamespace a') :=
  ⟨h.thread, h.shadow, .cons ha h.namespaces⟩

theorem Env.Alike.framesOf (h : env.Alike ρ env') :
    List.Forall₂ (Frame.Alike ρ) (Comp.framesOf env) (Comp.framesOf env') := by
  refine List.rel_append h.shadow ?_
  rw [List.forall₂_map_left_iff, List.forall₂_map_right_iff]
  exact h.namespaces.imp fun _ _ => .set

end Scopes

/-! ### Expressions -/

/-- The expressions of a definition. -/
def EntryOf.parts (e : Entry) : List Expr := e.value :: e.path

/-- The defaults of a parameter. -/
def ParamOf.parts : Param → List Expr
  | .name _ => []
  | .pattern formals _ _ => formals.filterMap FormalOf.fallback

/-- The expressions that an expression is made of. -/
def Expr.parts : Expr → List Expr
  | .lit _ | .nothing | .raise _ | .toPath _ | .pending .. | .var _ | .scriptDir | .depth
  | .fetch _ => []
  | .list es | .eagerList es | .attrPath es => es
  | .eagerSet es => es.map Prod.snd
  | .attrset _ entries => entries.flatMap EntryOf.parts
  | .letIn entries body => body :: entries.flatMap EntryOf.parts
  | .withIn e e' | .binary _ e e' | .comparison _ e e' | .threeWay e e' | .orElse e e' => [e, e']
  | .lambda param body => body :: param.parts
  | .call f args => f :: args
  | .cond c yes no => [c, yes, no]
  | .has e path => e :: path
  | .select e path fallback => e :: (fallback.toList ++ path)
  | .unary _ e | .interpolate e | .typeOf e | .print e | .delay e | .detach e | .wrap _ e
  | .force e | .deepForce e | .lazyText e | .lazyType e | .isForced e | .probe _ e | .trace _ e
  | .flaky _ _ e | .save _ e => [e]

theorem EntryOf.sizeOf_part {d : Entry} {e : Expr} (h : e ∈ d.parts) : sizeOf e < sizeOf d := by
  obtain ⟨path, value⟩ := d
  rcases List.mem_cons.mp h with rfl | h
  · simp only [EntryOf.mk.sizeOf_spec]
    omega
  · have hpath : sizeOf e < sizeOf path := List.sizeOf_lt_of_mem h
    rw [EntryOf.mk.sizeOf_spec]
    omega

theorem ParamOf.sizeOf_part {p : Param} {e : Expr} (h : e ∈ p.parts) : sizeOf e < sizeOf p := by
  cases p with
  | name x => cases h
  | pattern formals whole openEnded =>
    obtain ⟨⟨x, d⟩, hf, hd⟩ := List.mem_filterMap.mp h
    cases hd
    have hformal := List.sizeOf_lt_of_mem hf
    rw [FormalOf.mk.sizeOf_spec, Option.some.sizeOf_spec] at hformal
    rw [ParamOf.pattern.sizeOf_spec]
    omega

/-- The parts of an expression are smaller than it. -/
theorem Expr.sizeOf_part {e e' : Expr} (h : e' ∈ e.parts) : sizeOf e' < sizeOf e := by
  have hlist : ∀ {es : List Expr}, e' ∈ es → sizeOf e' < sizeOf es := List.sizeOf_lt_of_mem
  have hentries : ∀ {entries : List Entry}, e' ∈ entries.flatMap EntryOf.parts →
      sizeOf e' < sizeOf entries := fun h => by
    obtain ⟨d, hd, h⟩ := List.mem_flatMap.mp h
    exact Nat.lt_trans (EntryOf.sizeOf_part h) (List.sizeOf_lt_of_mem hd)
  cases e with
  | eagerSet es =>
    obtain ⟨⟨x, e⟩, hp, rfl⟩ := List.mem_map.mp h
    have hpair := List.sizeOf_lt_of_mem hp
    simp only [Prod.mk.sizeOf_spec, eagerSet.sizeOf_spec] at hpair ⊢
    omega
  | lambda param body =>
    have hparam := @ParamOf.sizeOf_part param e'
    simp only [parts, List.mem_cons] at h
    grind
  | _ =>
    simp only [parts, List.mem_cons, List.mem_append, Option.mem_toList, List.not_mem_nil,
      or_false] at h
    all_goals grind

/-- Every address in an expression stands for itself. -/
inductive Expr.Fixed (ρ : Link) : Expr → Prop
  | intro {e : Expr} (lit : ∀ v, e = .lit v → v.Alike ρ v)
      (pending : ∀ b name, e = .pending b name → Frame.Alike ρ (.builder b) (.builder b))
      (parts : ∀ e' ∈ e.parts, Fixed ρ e') : Fixed ρ e

/-- Two expressions are the same up to addresses. Expressions that differ in an address come from
values and from sets under construction only, never from inside other expressions. -/
inductive Expr.Alike (ρ : Link) : Expr → Expr → Prop
  | fixed {e : Expr} (h : e.Fixed ρ) : Alike ρ e e
  | lit {v w : Value} (h : v.Alike ρ w) : Alike ρ (.lit v) (.lit w)
  | pending {b b' : Addr .builder} (name : String) (h : Frame.Alike ρ (.builder b) (.builder b')) :
      Alike ρ (.pending b name) (.pending b' name)

structure EntryOf.Alike (ρ : Link) (e e' : Entry) : Prop where
  path : List.Forall₂ (Expr.Alike ρ) e.path e'.path
  value : e.value.Alike ρ e'.value

section Expressions

variable {ρ : Link} {e e' : Expr}

theorem Expr.Fixed.part (h : e.Fixed ρ) (he : e' ∈ e.parts) : e'.Fixed ρ := by
  obtain ⟨-, -, parts⟩ := h
  exact parts e' he

/-- A part of an expression that stands for itself is alike itself. -/
theorem Expr.Fixed.alike (h : e.Fixed ρ) (he : e' ∈ e.parts) : e'.Alike ρ e' := .fixed (h.part he)

theorem Expr.Fixed.all {es : List Expr} (h : e.Fixed ρ) (hes : es ⊆ e.parts) :
    List.Forall₂ (Expr.Alike ρ) es es := List.forall₂_same.mpr fun _ he => h.alike (hes he)

theorem Expr.alike_string (ρ : Link) (t : String) :
    (Expr.string t).Alike ρ (Expr.string t) := .lit (.str t)

/-- The entries of an expression that stands for itself are alike themselves. -/
theorem Expr.Fixed.entries {entries : List Entry} (h : e.Fixed ρ)
    (he : entries.flatMap EntryOf.parts ⊆ e.parts) :
    List.Forall₂ (EntryOf.Alike ρ) entries entries := by
  refine List.forall₂_same.mpr fun d hd => ?_
  have hd' : d.parts ⊆ e.parts := fun x hx => he (List.mem_flatMap.mpr ⟨d, hd, hx⟩)
  exact ⟨h.all fun x hx => hd' (List.mem_cons_of_mem _ hx), h.alike (hd' List.mem_cons_self)⟩

theorem entriesOf_alike {m m' : Attrs Value} (h : m.Alike ρ m') :
    List.Forall₂ (EntryOf.Alike ρ) (Comp.entriesOf m) (Comp.entriesOf m') := by
  refine List.rel_map (fun p q hpq => ?_) h
  rw [hpq.1]
  exact ⟨.cons (Expr.alike_string ρ q.1) .nil, .lit hpq.2⟩

end Expressions

/-! ### The contents of cells -/

inductive Thunk.Alike (ρ : Link) : Thunk → Thunk → Prop
  | unforced {env env' : Env} {e e' : Expr} (henv : env.Alike ρ env') (he : e.Alike ρ e') :
      Alike ρ (.unforced env e) (.unforced env' e')
  | forcing {env env' : Env} {e e' : Expr} (henv : env.Alike ρ env') (he : e.Alike ρ e') :
      Alike ρ (.forcing env e) (.forcing env' e')
  | forced {v w : Value} (h : v.Alike ρ w) : Alike ρ (.forced v) (.forced w)

structure Lambda.Alike (ρ : Link) (f f' : Lambda) : Prop where
  env : f.env.Alike ρ f'.env
  param : f.param = f'.param
  body : f.body = f'.body
  fixed : (Expr.lambda f.param f.body).Fixed ρ

inductive Slot.Alike (ρ : Link) : Slot → Slot → Prop
  | leaf {v w : Value} (h : v.Alike ρ w) : Alike ρ (.leaf v) (.leaf w)
  | tree {es es' : List Entry} (h : List.Forall₂ (EntryOf.Alike ρ) es es') :
      Alike ρ (.tree es) (.tree es')

structure Builder.Alike (ρ : Link) (c c' : Builder) : Prop where
  env : c.env.Alike ρ c'.env
  entries : List.Forall₂ (EntryOf.Alike ρ) c.entries.toList c'.entries.toList
  next : c.next = c'.next
  active : c.active = c'.active
  order : c.order = c'.order
  slots : List.Forall₂ (Binding (Slot.Alike ρ)) c.slots c'.slots
  set : Option.Rel (Addr.Alike ρ) c.set c'.set
  err : c.err = c'.err

/-! ### Journals -/

inductive Event.Alike (ρ : Link) : Event → Event → Prop
  | tag (t : String) : Alike ρ (.tag t) (.tag t)
  | force {t t' : Addr .thunk} (h : t.Alike ρ t') : Alike ρ (.force t) (.force t')
  | call {f f' : Addr .lambda} (h : f.Alike ρ f') : Alike ρ (.call f) (.call f')
  | entry {b b' : Addr .builder} (h : b.Alike ρ b') (i : Nat) :
      Alike ρ (.entry b i) (.entry b' i)
  | assemble {b b' : Addr .builder} (h : b.Alike ρ b') : Alike ρ (.assemble b) (.assemble b')

/-- What has been noted since is alike. -/
def Link.Journals (ρ : Link) (j j' : List Event) : Prop :=
  ∃ l l', j = l ++ ρ.leftJournal ∧ j' = l' ++ ρ.rightJournal ∧ List.Forall₂ (Event.Alike ρ) l l'

theorem Link.Journals.cons {ρ : Link} {j j' : List Event} (h : ρ.Journals j j') {x x' : Event}
    (hx : x.Alike ρ x') : ρ.Journals (x :: j) (x' :: j') := by
  obtain ⟨l, l', rfl, rfl, hl⟩ := h
  exact ⟨x :: l, x' :: l', rfl, rfl, .cons hx hl⟩

end NixKernel
