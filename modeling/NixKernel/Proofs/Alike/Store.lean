import Mathlib.Data.Finset.Card
import NixKernel.Proofs.Alike.Link
import NixKernel.Proofs.Builder.Outcome
import NixKernel.Proofs.Extends

/-!
Stores that differ only in the addresses of cells. What is read from linked cells is alike, and
what is done to both stores alike keeps them so.
-/

namespace NixKernel

/-! ### Cells of one sort -/

/-- Linked cells have alike contents, and the next cells of both heaps are linked. -/
structure Heap.Alike (ρ : Link) {σ : CellSort} {α : Type} (R : α → α → Prop) (h h' : Heap σ α) :
    Prop where
  next : ∃ d, h.next.index = ρ.left σ + d ∧ h'.next.index = ρ.right σ + d
  cell : ∀ {a a' : Addr σ}, a.Alike ρ a' → Option.Rel R (h.get? a) (h'.get? a')

namespace Heap.Alike

variable {ρ : Link} {σ : CellSort} {α : Type} {R : α → α → Prop} {h h' : Heap σ α}

theorem next_alike (hh : h.Alike ρ R h') : h.next.Alike ρ h'.next := by
  obtain ⟨d, hl, hr⟩ := hh.next
  rw [Addr.Alike, hl, hr]
  exact ρ.ahead σ d

theorem push (hh : h.Alike ρ R h') {x x' : α} (hx : R x x') :
    (h.push x).Alike ρ R (h'.push x') := by
  refine ⟨?_, fun {a a'} ha => ?_⟩
  · obtain ⟨d, hl, hr⟩ := hh.next
    refine ⟨d + 1, ?_, ?_⟩
    · rw [Heap.next_push, hl, Nat.add_assoc]
    · rw [Heap.next_push, hr, Nat.add_assoc]
  · rw [Heap.get?_push, Heap.get?_push]
    simp only [ha.eq_iff hh.next_alike]
    split
    · exact .some hx
    · exact hh.cell ha

theorem modify (hh : h.Alike ρ R h') {a a' : Addr σ} (ha : a.Alike ρ a') {f f' : α → α}
    (hf : ∀ x x', R x x' → R (f x) (f' x')) : (h.modify a f).Alike ρ R (h'.modify a' f') := by
  refine ⟨?_, fun {b b'} hb => ?_⟩
  · rw [Heap.next_modify, Heap.next_modify]
    exact hh.next
  · rw [Heap.get?_modify, Heap.get?_modify]
    simp only [ha.eq_iff hb]
    split
    · rcases rel_cases (hh.cell hb) with ⟨hx, hx'⟩ | ⟨x, x', hx, hx', hxx⟩
      · rw [hx, hx']
        exact .none
      · rw [hx, hx']
        exact .some (hf x x' hxx)
    · exact hh.cell hb

end Heap.Alike

/-! ### Stores -/

/-- The frame binds the attributes `m` and will bind no others: it is a set, or a set under
construction that is finished. -/
def Frame.Settles (s : Store) (m : Attrs Value) : Frame → Prop
  | .set a => s.sets.get? a = some m
  | .binding .. => False
  | .builder b => ∃ c a, s.builders.get? b = some c ∧ c.outcome = .built a ∧
      s.sets.get? a = some m

/-- Two stores differ only in the addresses of cells, as far as the cells are linked, and in what
was in the journals before. -/
structure Store.Alike (ρ : Link) (s s' : Store) : Prop where
  thunks : s.thunks.Alike ρ (Thunk.Alike ρ) s'.thunks
  lists : s.lists.Alike ρ (List.Forall₂ (Value.Alike ρ)) s'.lists
  sets : s.sets.Alike ρ (Attrs.Alike ρ) s'.sets
  lambdas : s.lambdas.Alike ρ (Lambda.Alike ρ) s'.lambdas
  builders : s.builders.Alike ρ (Builder.Alike ρ) s'.builders
  threads : s.threads = s'.threads
  counters : s.counters = s'.counters
  registers : List.Forall₂ (Binding (Value.Alike ρ)) s.registers s'.registers
  journal : ρ.Journals s.journal s'.journal
  settled : ∀ {f f'}, ρ.settled f f' →
    ∃ m m', f.Settles s m ∧ f'.Settles s' m' ∧ m.Alike ρ m'

/-- A frame stays settled as long as sets and finished constructions stay. -/
theorem Frame.Settles.mono {s s' : Store} {m : Attrs Value} {f : Frame} (h : f.Settles s m)
    (hs : ∀ {a m}, s.sets.get? a = some m → s'.sets.get? a = some m)
    (hb : ∀ b, f = .builder b → s'.builders.get? b = s.builders.get? b) : f.Settles s' m := by
  cases f with
  | set a => exact hs h
  | binding x v => exact h
  | builder b =>
    obtain ⟨c, a, hc, ho, ha⟩ := h
    exact ⟨c, a, (hb b rfl).trans hc, ho, hs ha⟩

namespace Store.Alike

variable {ρ : Link} {s s' : Store} {env env' : Env}

/-! ### Reading -/

section Reading

variable (h : s.Alike ρ s')

include h

theorem attrs {a a' : Addr .set} (ha : a.Alike ρ a') : (s.attrs a).Alike ρ (s'.attrs a') := by
  unfold Store.attrs
  rcases rel_cases (h.sets.cell ha) with ⟨hx, hx'⟩ | ⟨m, m', hx, hx', hm⟩
  · rw [hx, hx']
    exact .empty ρ
  · rw [hx, hx']
    exact hm

theorem forced? {t t' : Addr .thunk} (ht : t.Alike ρ t') :
    Option.Rel (Value.Alike ρ) (s.forced? t) (s'.forced? t') := by
  unfold Store.forced?
  rcases rel_cases (h.thunks.cell ht) with ⟨hx, hx'⟩ | ⟨c, c', hx, hx', hc⟩
  · rw [hx, hx']
    exact .none
  · rw [hx, hx']
    cases hc with
    | unforced | forcing => exact .none
    | forced hv => exact .some hv

theorem resolve {v v' : Value} (hv : v.Alike ρ v') : (s.resolve v).Alike ρ (s'.resolve v') := by
  cases hv with
  | thunk ht =>
    rw [resolve_thunk, resolve_thunk]
    rcases rel_cases (h.forced? ht) with ⟨hx, hx'⟩ | ⟨w, w', hx, hx', hw⟩
    · rw [hx, hx']
      exact .thunk ht
    · rw [hx, hx']
      exact hw
  | _ => constructor <;> assumption

theorem typeName {v v' : Value} (hv : v.Alike ρ v') : s.typeName v = s'.typeName v' :=
  (h.resolve hv).typeName

theorem thread? (henv : env.Alike ρ env') : s.thread? env = s'.thread? env' := by
  rw [Store.thread?, Store.thread?, henv.thread, h.threads]

theorem scriptDir (henv : env.Alike ρ env') : s.scriptDir env = s'.scriptDir env' := by
  rw [Store.scriptDir, Store.scriptDir, h.thread? henv]

theorem strict (henv : env.Alike ρ env') : s.strict env = s'.strict env' := by
  rw [Store.strict, Store.strict, h.thread? henv]

theorem depth (henv : env.Alike ρ env') : s.depth env = s'.depth env' := by
  rw [Store.depth, Store.depth, h.thread? henv]

theorem atLimit (henv : env.Alike ρ env') : s.atLimit env = s'.atLimit env' := by
  rw [Store.atLimit, Store.atLimit, h.thread? henv]

end Reading

/-! ### New cells -/

section Changes

variable (h : s.Alike ρ s')

include h

theorem newThunk (henv : env.Alike ρ env') {e e' : Expr} (he : e.Alike ρ e') :
    (s.newThunk env e).2.Alike ρ (s'.newThunk env' e').2 :=
  { h with thunks := h.thunks.push (.unforced henv he) }

theorem newList {xs xs' : List Value} (hx : List.Forall₂ (Value.Alike ρ) xs xs') :
    (s.newList xs).2.Alike ρ (s'.newList xs').2 := { h with lists := h.lists.push hx }

theorem newLambda {f f' : Lambda} (hf : f.Alike ρ f') :
    (s.newLambda f).2.Alike ρ (s'.newLambda f').2 := { h with lambdas := h.lambdas.push hf }

theorem pushSet {m m' : Attrs Value} (hm : m.Alike ρ m') :
    Store.Alike ρ { s with sets := s.sets.push m } { s' with sets := s'.sets.push m' } := by
  refine { h with sets := h.sets.push hm, settled := fun hf => ?_ }
  obtain ⟨n, n', hs, hs', hn⟩ := h.settled hf
  exact ⟨n, n', hs.mono Heap.get?_push_of_some fun _ _ => rfl,
    hs'.mono Heap.get?_push_of_some fun _ _ => rfl, hn⟩

theorem newBuilder (henv : env.Alike ρ env') {es es' : List Entry}
    (he : List.Forall₂ (EntryOf.Alike ρ) es es') (recursive : Bool) :
    (s.newBuilder env es recursive).2.Alike ρ (s'.newBuilder env' es' recursive).2 := by
  have henv' : (if recursive then env.withShadow (.builder s.builders.next) else env).Alike ρ
      (if recursive then env'.withShadow (.builder s'.builders.next) else env') := by
    cases recursive with
    | true => exact henv.withShadow (.builder h.builders.next_alike)
    | false => exact henv
  refine { h with
    builders := h.builders.push ⟨henv', he, rfl, rfl, rfl, .nil, .none, rfl⟩
    settled := fun hf => ?_ }
  obtain ⟨m, m', hs, hs', hm⟩ := h.settled hf
  -- a frame that is settled is not the new one
  refine ⟨m, m', hs.mono id fun b hb => ?_, hs'.mono id fun b hb => ?_, hm⟩
  · subst hb
    obtain ⟨c, -, hc, -⟩ := hs
    exact (Heap.get?_push_of_some hc).trans hc.symm
  · subst hb
    obtain ⟨c, -, hc, -⟩ := hs'
    exact (Heap.get?_push_of_some hc).trans hc.symm

/-! ### Cells that change -/

theorem setThunk {t t' : Addr .thunk} (ht : t.Alike ρ t') {c c' : Thunk} (hc : c.Alike ρ c') :
    (s.setThunk t c).Alike ρ (s'.setThunk t' c') :=
  { h with thunks := h.thunks.modify ht fun _ _ _ => hc }

theorem modifyBuilder {b b' : Addr .builder} (hb : b.Alike ρ b') {f f' : Builder → Builder}
    (hf : ∀ c c', c.Alike ρ c' → (f c).Alike ρ (f' c')) :
    Store.Alike ρ { s with builders := s.builders.modify b f }
      { s' with builders := s'.builders.modify b' f' } := by
  refine { h with builders := h.builders.modify hb hf, settled := fun hg => ?_ }
  obtain ⟨m, m', hs, hs', hm⟩ := h.settled hg
  obtain ⟨hl, hr⟩ := ρ.apart hb
  refine ⟨m, m', hs.mono id fun d hd => ?_, hs'.mono id fun d hd => ?_, hm⟩
  · refine (Heap.get?_modify ..).trans (if_neg ?_)
    rintro rfl
    exact hl _ (hd ▸ hg)
  · refine (Heap.get?_modify ..).trans (if_neg ?_)
    rintro rfl
    exact hr _ (hd ▸ hg)

theorem setSlot {b b' : Addr .builder} (hb : b.Alike ρ b') (k : String) {x x' : Slot}
    (hx : x.Alike ρ x') (isNew : Bool) :
    (s.setSlot b k x isNew).Alike ρ (s'.setSlot b' k x' isNew) :=
  h.modifyBuilder hb fun _ _ hc =>
    { hc with
      order := by rw [Builder.put, Builder.put, hc.order]
      slots := setKey_alike hc.slots k hx }

theorem finishBuilder {b b' : Addr .builder} (hb : b.Alike ρ b')
    {r r' : Option (Except Error (Addr .set))} (hr : Option.Rel (Both (Addr.Alike ρ)) r r') :
    (s.finishBuilder b r).Alike ρ (s'.finishBuilder b' r') := by
  refine h.modifyBuilder hb fun c c' hc => ?_
  have hactive : c.active - 1 = c'.active - 1 := congrArg (· - 1) hc.active
  cases hr with
  | none => exact { hc with active := hactive }
  | some hr =>
    cases hr with
    | ok ha => exact { hc with active := hactive, set := .some ha }
    | error e => exact { hc with active := hactive, err := rfl }

theorem changeDepth (henv : env.Alike ρ env') (f : Nat → Nat) :
    (s.changeDepth env f).Alike ρ (s'.changeDepth env' f) := by
  unfold Store.changeDepth
  rw [henv.thread]
  split
  · exact { h with threads := by rw [h.threads] }
  · exact h

theorem record {e e' : Event} (he : e.Alike ρ e') : (s.record e).Alike ρ (s'.record e') :=
  { h with journal := h.journal.cons he }

theorem save (r : String) {v v' : Value} (hv : v.Alike ρ v') :
    (s.save r v).Alike ρ (s'.save r v') := { h with registers := setKey_alike h.registers r hv }

theorem count (id : String) : (s.count id).1 = (s'.count id).1 ∧
    (s.count id).2.Alike ρ (s'.count id).2 := by
  unfold Store.count
  rw [h.counters]
  exact ⟨rfl, { h with counters := rfl }⟩

/-! ### The scope of a call -/

omit h in
/-- Two arguments that are alike bind the formals of a pattern alike. -/
theorem bindFormals (henv : env.Alike ρ env') {args args' : Attrs Value}
    (hargs : args.Alike ρ args') {formals : List Formal}
    (hf : ∀ f ∈ formals, ∀ d, f.fallback = some d → d.Alike ρ d) {vars vars' : Attrs Value}
    (hvars : vars.Alike ρ vars') {thunks thunks' : Heap .thunk Thunk}
    (ht : thunks.Alike ρ (Thunk.Alike ρ) thunks') :
    (Store.bindFormals env args formals (vars, thunks)).1.Alike ρ
      (Store.bindFormals env' args' formals (vars', thunks')).1 ∧
    (Store.bindFormals env args formals (vars, thunks)).2.Alike ρ (Thunk.Alike ρ)
      (Store.bindFormals env' args' formals (vars', thunks')).2 := by
  induction formals generalizing vars vars' thunks thunks' with
  | nil => exact ⟨hvars, ht⟩
  | cons f formals ih =>
    have ih := @ih fun g hg => hf g (List.mem_cons_of_mem f hg)
    unfold Store.bindFormals
    rcases rel_cases (hargs.get? f.name) with ⟨hv, hv'⟩ | ⟨v, v', hv, hv', hvv⟩
    · rw [hv, hv']
      cases hd : f.fallback with
      | none => exact ih hvars ht
      | some d =>
        exact ih (hvars.insert f.name (.thunk ht.next_alike))
          (ht.push (.unforced henv (hf f List.mem_cons_self d hd)))
    · rw [hv, hv']
      exact ih (hvars.insert f.name hvv) ht

theorem openScope (henv : env.Alike ρ env') {formals : List Formal}
    (hf : ∀ f ∈ formals, ∀ d, f.fallback = some d → d.Alike ρ d) (whole : Option String)
    {a a' : Addr .set} (ha : a.Alike ρ a') :
    (s.openScope env formals whole a).1.Alike ρ (s'.openScope env' formals whole a').1 ∧
      (s.openScope env formals whole a).2.Alike ρ (s'.openScope env' formals whole a').2 := by
  have hinner : (env.withShadow (.set s.sets.next)).Alike ρ
      (env'.withShadow (.set s'.sets.next)) := henv.withShadow (.set h.sets.next_alike)
  obtain ⟨hvars, hthunks⟩ := bindFormals hinner (h.attrs ha) hf (.empty ρ) h.thunks
  have hs : Store.Alike ρ { s with thunks := _ } { s' with thunks := _ } :=
    { h with thunks := hthunks }
  refine ⟨hinner, hs.pushSet ?_⟩
  cases whole with
  | none => exact hvars
  | some x => exact hvars.insert x (.set ha)

end Changes

end Store.Alike

/-! ### The view of a value -/

/-- The container is a cell of the store. -/
def Container.Exists (s : Store) : Container → Prop
  | .list a => a.index < s.lists.cells.size
  | .set a => a.index < s.sets.cells.size

/-- The lists and then the sets of a store, in one sequence. -/
def Container.place (s : Store) : Container → Nat
  | .list a => a.index
  | .set a => s.lists.cells.size + a.index

/-- Different containers of a store are no more than it has. -/
theorem Store.length_le_containerCount {s : Store} {l : List Container} (hl : l.Nodup)
    (hs : ∀ c ∈ l, c.Exists s) : l.length ≤ s.containerCount := by
  have hplace : ∀ c ∈ l, c.place s < s.containerCount := by
    intro c hc
    have := hs c hc
    cases c <;> simp only [Container.Exists, Container.place, Store.containerCount] at * <;> omega
  have hnodup : (l.map (Container.place s)).Nodup := by
    refine hl.map_on fun c hc c' hc' heq => ?_
    have h := hs c hc
    have h' := hs c' hc'
    rcases c with ⟨⟨i⟩⟩ | ⟨⟨i⟩⟩ <;> rcases c' with ⟨⟨j⟩⟩ | ⟨⟨j⟩⟩ <;>
      simp only [Container.Exists, Container.place] at h h' heq <;>
      simp only [Container.list.injEq, Container.set.injEq, Addr.mk.injEq, reduceCtorEq] <;> omega
  have hsub : l.map (Container.place s) ⊆ List.range s.containerCount := by
    intro i hi
    obtain ⟨c, hc, rfl⟩ := List.mem_map.mp hi
    exact List.mem_range.mpr (hplace c hc)
  simpa using (List.subperm_of_subset hnodup hsub).length_le

theorem map_eq_of_forall₂ {α β γ : Type} {R : α → β → Prop} {f : α → γ} {g : β → γ}
    {l : List α} {l' : List β} (h : List.Forall₂ R l l') (hfg : ∀ a b, R a b → f a = g b) :
    l.map f = l'.map g := by
  induction h with
  | nil => rfl
  | cons hab _ ih => rw [List.map_cons, List.map_cons, hfg _ _ hab, ih]

/-- The containers around a value, and enough levels for what may be inside it. -/
structure Store.Within (s : Store) (levels : Nat) (above : List Container) : Prop where
  nodup : above.Nodup
  exist : ∀ c ∈ above, c.Exists s
  levels : s.containerCount < levels + above.length

namespace Store.Within

variable {s : Store} {levels : Nat} {above : List Container}

/-- There is always a level left. -/
theorem ne_zero (h : s.Within levels above) : levels ≠ 0 := by
  have := length_le_containerCount h.nodup h.exist
  have := h.levels
  omega

theorem cons (h : s.Within (levels + 1) above) {c : Container} (hc : c ∉ above)
    (he : c.Exists s) : s.Within levels (c :: above) := by
  refine ⟨List.nodup_cons.mpr ⟨hc, h.nodup⟩, fun d hd => ?_, ?_⟩
  · rcases List.mem_cons.mp hd with rfl | hd
    · exact he
    · exact h.exist d hd
  · have := h.levels
    rw [List.length_cons]
    omega

end Store.Within

/-- What is inside a linked container is seen alike, or there is nothing inside. -/
theorem Store.Alike.viewWithin {ρ : Link} {s s' : Store} (h : s.Alike ρ s') {n n' : Nat}
    {above above' : List Container} (ha : List.Forall₂ (Container.Alike ρ) above above')
    (hn : s.Within n above) (hn' : s'.Within n' above') {v v' : Value} (hv : v.Alike ρ v') :
    s.viewWithin n above v = s'.viewWithin n' above' v' := by
  -- on the levels of the left store; those of the right one are positive as well
  induction n generalizing n' above above' v v' with
  | zero => exact absurd rfl hn.ne_zero
  | succ n ih =>
    obtain ⟨n', rfl⟩ := Nat.exists_eq_succ_of_ne_zero hn'.ne_zero
    have hr := h.resolve hv
    unfold Store.viewWithin
    revert hr
    generalize s.resolve v = w, s'.resolve v' = w'
    intro hr
    cases hr with
    | @list a a' hl =>
      have hmem := (Container.Alike.list hl).mem_iff ha
      dsimp only
      split
      · rw [if_pos (hmem.mp ‹_›)]
      · rename_i hna
        rw [if_neg fun h => hna (hmem.mpr h)]
        unfold Store.list
        rcases rel_cases (h.lists.cell hl) with ⟨hx, hx'⟩ | ⟨xs, xs', hx, hx', hxs⟩
        · rw [hx, hx']
          rfl
        · rw [hx, hx']
          -- both sides go one container deeper, and have levels left for it
          have he : (Container.list a).Exists s := Heap.lt_of_get? hx
          have he' : (Container.list a').Exists s' := Heap.lt_of_get? hx'
          refine congrArg Tree.list (map_eq_of_forall₂ hxs fun x x' hxx => ?_)
          exact ih (.cons (.list hl) ha) (hn.cons hna he)
            (hn'.cons (fun h => hna (hmem.mpr h)) he') hxx
    | @set a a' hl =>
      have hmem := (Container.Alike.set hl).mem_iff ha
      dsimp only
      split
      · rw [if_pos (hmem.mp ‹_›)]
      · rename_i hna
        rw [if_neg fun h => hna (hmem.mpr h)]
        unfold Store.attrs
        rcases rel_cases (h.sets.cell hl) with ⟨hx, hx'⟩ | ⟨m, m', hx, hx', hm⟩
        · rw [hx, hx']
          rfl
        · rw [hx, hx']
          have he : (Container.set a).Exists s := Heap.lt_of_get? hx
          have he' : (Container.set a').Exists s' := Heap.lt_of_get? hx'
          refine congrArg Tree.set (map_eq_of_forall₂ hm fun p q hpq => ?_)
          rw [hpq.1, ih (.cons (.set hl) ha) (hn.cons hna he)
            (hn'.cons (fun h => hna (hmem.mpr h)) he') hpq.2]
    | _ => rfl

theorem Store.within_view (s : Store) : s.Within (s.containerCount + 1) [] :=
  ⟨List.nodup_nil, fun _ hc => (nomatch hc), Nat.lt_succ_self _⟩

theorem Store.Alike.view {ρ : Link} {s s' : Store} (h : s.Alike ρ s') {v v' : Value}
    (hv : v.Alike ρ v') : s.view v = s'.view v' :=
  h.viewWithin .nil s.within_view s'.within_view hv

end NixKernel
