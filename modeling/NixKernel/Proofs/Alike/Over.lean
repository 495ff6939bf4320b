import NixKernel.Proofs.Alike.Store

/-!
Addresses that point somewhere. A value, a scope or an expression is over a store if every address
in it is that of a cell of the store, and a store is sound if what its cells hold is over it. What
is over a store is alike itself as soon as the cells of the store stand for themselves.
-/

namespace NixKernel

/-! ### Addresses of a store -/

/-- The number of cells of a sort. -/
def Store.size (s : Store) : CellSort → Nat
  | .thread => s.threads.next.index
  | .thunk => s.thunks.next.index
  | .list => s.lists.next.index
  | .set => s.sets.next.index
  | .lambda => s.lambdas.next.index
  | .builder => s.builders.next.index

/-- The address is that of a cell of the store. -/
def Addr.Over (s : Store) {σ : CellSort} (a : Addr σ) : Prop := a.index < s.size σ

def Value.Over (s : Store) : Value → Prop
  | .list a => a.Over s
  | .set a => a.Over s
  | .lambda a => a.Over s
  | .thunk a => a.Over s
  | _ => True

def Frame.Over (s : Store) : Frame → Prop
  | .set a => a.Over s
  | .binding _ v => v.Over s
  | .builder b => b.Over s

/-- Every address in a scope is that of a cell of the store. -/
structure Env.Over (s : Store) (env : Env) : Prop where
  shadow : ∀ f ∈ env.shadow, f.Over s
  namespaces : ∀ a ∈ env.namespaces, a.Over s

/-- Every address in an expression is that of a cell of the store. -/
inductive Expr.Over (s : Store) : Expr → Prop
  | intro {e : Expr} (lit : ∀ v, e = .lit v → v.Over s)
      (pending : ∀ b name, e = .pending b name → b.Over s) (parts : ∀ e' ∈ e.parts, Over s e') :
      Over s e

def EntryOf.Over (s : Store) (d : Entry) : Prop := ∀ e ∈ d.parts, e.Over s

def Thunk.Over (s : Store) : Thunk → Prop
  | .unforced env e | .forcing env e => env.Over s ∧ e.Over s
  | .forced v => v.Over s

structure Lambda.Over (s : Store) (f : Lambda) : Prop where
  env : f.env.Over s
  whole : (Expr.lambda f.param f.body).Over s

def Slot.Over (s : Store) : Slot → Prop
  | .leaf v => v.Over s
  | .tree es => ∀ d ∈ es, d.Over s

structure Builder.Over (s : Store) (c : Builder) : Prop where
  env : c.env.Over s
  entries : ∀ d ∈ c.entries.toList, d.Over s
  slots : ∀ p ∈ c.slots, p.2.Over s
  set : ∀ a ∈ c.set, a.Over s

/-- No address in a store dangles: all of them are those of its own cells, among which is the empty
set. -/
structure Store.Sound (s : Store) : Prop where
  empty : Addr.emptySet.Over s
  thunk : ∀ {t c}, s.thunks.get? t = some c → c.Over s
  list : ∀ {a xs}, s.lists.get? a = some xs → ∀ x ∈ xs, x.Over s
  set : ∀ {a m}, s.sets.get? a = some m → ∀ p ∈ m.bindings, p.2.Over s
  lambda : ∀ {a f}, s.lambdas.get? a = some f → f.Over s
  builder : ∀ {b c}, s.builders.get? b = some c → c.Over s
  registers : ∀ p ∈ s.registers, p.2.Over s

instance (s : Store) {σ : CellSort} (a : Addr σ) : Decidable (a.Over s) :=
  inferInstanceAs (Decidable (a.index < s.size σ))

instance (s : Store) : (v : Value) → Decidable (v.Over s)
  | .list a => inferInstanceAs (Decidable (a.Over s))
  | .set a => inferInstanceAs (Decidable (a.Over s))
  | .lambda a => inferInstanceAs (Decidable (a.Over s))
  | .thunk a => inferInstanceAs (Decidable (a.Over s))
  | .int _ | .float _ | .bool _ | .null | .str _ | .path _ => .isTrue trivial

/-! ### Expressions over a store -/

section Expressions

variable {s : Store} {e : Expr}

theorem Expr.over_lit {v : Value} (h : v.Over s) : (Expr.lit v).Over s := by
  refine .intro (fun w hw => ?_) nofun nofun
  cases hw
  exact h

theorem Expr.over_var (s : Store) (x : String) : (Expr.var x).Over s := .intro nofun nofun nofun

/-- An expression that has no address itself is over a store if its parts are. -/
theorem Expr.over_of_parts (hlit : ∀ v, e ≠ .lit v) (hpending : ∀ b name, e ≠ .pending b name)
    (h : ∀ e' ∈ e.parts, e'.Over s) : e.Over s :=
  .intro (fun v hv => absurd hv (hlit v)) (fun b name hb => absurd hb (hpending b name)) h

end Expressions

/-- No address dangles before anything has run. -/
theorem Store.sound_initial : Store.initial.Sound := by
  refine ⟨by decide, fun {t c} h => ?_, fun {a xs} h x hx => ?_, fun {a m} h p hp => ?_,
    fun {a f} h => ?_, fun {b c} h => ?_, fun p hp => nomatch hp⟩
  · cases h
  · obtain ⟨_ | i⟩ := a
    · cases h
      cases hx
    · cases h
  · obtain ⟨_ | _ | _ | i⟩ := a
    · cases h
      cases hp
    · cases h
      have hmem := Attrs.mem_of_mem_ofList hp
      simp only [List.mem_cons, List.not_mem_nil, or_false] at hmem
      rcases hmem with rfl | rfl <;> decide
    · cases h
      have hmem := Attrs.mem_of_mem_ofList hp
      simp only [List.mem_cons, List.not_mem_nil, or_false] at hmem
      rcases hmem with rfl | rfl | rfl | rfl <;> decide
    · cases h
  · obtain ⟨_ | i⟩ := a
    · cases h
      refine ⟨⟨nofun, nofun⟩, Expr.over_of_parts nofun nofun fun e he => ?_⟩
      rw [List.mem_singleton.mp he]
      refine Expr.over_of_parts nofun nofun fun e' he' => ?_
      rw [List.mem_singleton.mp he']
      exact Expr.over_var _ "x"
    · cases h
  · cases h

/-! ### Cells that stand for themselves -/

/-- The cells of a store stand for themselves. -/
def Link.Keeps (ρ : Link) (s : Store) : Prop := ∀ σ i, i < s.size σ → ρ.rel σ i i

theorem Binding.refl {α : Type} {R : α → α → Prop} {l : List (String × α)}
    (h : ∀ p ∈ l, R p.2 p.2) : List.Forall₂ (Binding R) l l :=
  List.forall₂_same.mpr fun p hp => ⟨rfl, h p hp⟩

section Alike

variable {ρ : Link} {s : Store} (hρ : ρ.Keeps s)

include hρ

theorem Addr.Over.alike {σ : CellSort} {a : Addr σ} (h : a.Over s) : a.Alike ρ a := hρ σ a.index h

theorem Value.Over.alike {v : Value} (h : v.Over s) : v.Alike ρ v := by
  cases v with
  | list a => exact .list (Addr.Over.alike hρ h)
  | set a => exact .set (Addr.Over.alike hρ h)
  | lambda a => exact .lambda (Addr.Over.alike hρ h)
  | thunk a => exact .thunk (Addr.Over.alike hρ h)
  | _ => constructor

theorem Frame.Over.alike {f : Frame} (h : f.Over s) : f.Alike ρ f := by
  cases f with
  | set a => exact .set (Addr.Over.alike hρ h)
  | binding x v => exact .binding x (Value.Over.alike hρ h)
  | builder b => exact .builder (Addr.Over.alike hρ h)

theorem Env.Over.alike {env : Env} (h : env.Over s) : env.Alike ρ env :=
  ⟨rfl, List.forall₂_same.mpr fun f hf => (h.shadow f hf).alike hρ,
    List.forall₂_same.mpr fun a ha => (h.namespaces a ha).alike hρ⟩

theorem Expr.Over.fixed {e : Expr} (h : e.Over s) : e.Fixed ρ := by
  induction h with
  | intro lit pending parts ih =>
    refine .intro (fun v hv => ?_) (fun b name hb => ?_) ih
    · exact (lit v hv).alike hρ
    · exact .builder ((pending b name hb).alike hρ)

theorem Expr.Over.alike {e : Expr} (h : e.Over s) : e.Alike ρ e := .fixed (h.fixed hρ)

theorem EntryOf.Over.alike {d : Entry} (h : EntryOf.Over s d) : EntryOf.Alike ρ d d := by
  refine ⟨List.forall₂_same.mpr fun e he => ?_, ?_⟩
  · exact (h e (List.mem_cons_of_mem _ he)).alike hρ
  · exact (h d.value List.mem_cons_self).alike hρ

theorem Thunk.Over.alike {c : Thunk} (h : c.Over s) : c.Alike ρ c := by
  cases c with
  | unforced env e => exact .unforced (h.1.alike hρ) (h.2.alike hρ)
  | forcing env e => exact .forcing (h.1.alike hρ) (h.2.alike hρ)
  | forced v => exact .forced (Value.Over.alike hρ h)

theorem Lambda.Over.alike {f : Lambda} (h : f.Over s) : f.Alike ρ f :=
  ⟨h.env.alike hρ, rfl, rfl, h.whole.fixed hρ⟩

theorem Slot.Over.alike {x : Slot} (h : x.Over s) : x.Alike ρ x := by
  cases x with
  | leaf v => exact .leaf (Value.Over.alike hρ h)
  | tree es => exact .tree (List.forall₂_same.mpr fun d hd => (h d hd).alike hρ)

theorem Builder.Over.alike {c : Builder} (h : c.Over s) : c.Alike ρ c where
  env := h.env.alike hρ
  entries := List.forall₂_same.mpr fun d hd => (h.entries d hd).alike hρ
  next := rfl
  active := rfl
  order := rfl
  slots := Binding.refl fun p hp => (h.slots p hp).alike hρ
  set := by
    have hset := h.set
    cases hc : c.set with
    | none => exact .none
    | some a => exact .some (Addr.Over.alike hρ (hset a hc))
  err := rfl

end Alike

end NixKernel
