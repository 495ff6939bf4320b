import NixKernel.Proofs.Construct.Leaves
import NixKernel.Proofs.Spelling

/-!
Data. A value that is evaluated to the end, is finite and has no floating point number inside it
stands for a datum, in which thunks, addresses and sharing are gone. The datum is all that equality
looks at: two such values are equal if they stand for the same one.
-/

namespace NixKernel

/-- The value has nothing inside it, and it is no floating point number. -/
def Value.isAtom : Value → Bool
  | .int _ | .bool _ | .null | .str _ | .path _ | .lambda _ => true
  | .float _ | .list _ | .set _ | .thunk _ => false

/-- What a value stands for: an atom, or the data inside a list or a set. -/
inductive Datum where
  | atom (v : Value) (h : v.isAtom = true)
  | list (items : List Datum)
  | set (items : List (String × Datum))

/-- A property of all data: it goes from what is inside a list or a set to the whole. -/
@[elab_as_elim, induction_eliminator]
theorem Datum.induction {P : Datum → Prop} (atom : ∀ v h, P (.atom v h))
    (list : ∀ ds, (∀ d ∈ ds, P d) → P (.list ds))
    (set : ∀ items, (∀ p ∈ items, P p.2) → P (.set items)) (d : Datum) : P d :=
  @Datum.rec P (fun ds => ∀ d ∈ ds, P d) (fun items => ∀ p ∈ items, P p.2) (fun p => P p.2)
    atom list set (by simp) (fun d ds hd hds => by simpa using ⟨hd, hds⟩) (by simp)
    (fun p items hp hitems => List.forall_mem_cons.mpr ⟨hp, hitems⟩) (fun _ _ h => h) d

namespace Datum

/-- The data inside a list or a set. -/
def parts : Datum → List Datum
  | .atom .. => []
  | .list ds => ds
  | .set items => items.map Prod.snd

/-- The same for all sorts of data at once. -/
theorem induction_parts {P : Datum → Prop} (h : ∀ d, (∀ e ∈ d.parts, P e) → P d) (d : Datum) :
    P d := by
  induction d with
  | atom v hv => exact h _ nofun
  | list ds ih => exact h _ ih
  | set items ih => exact h _ (by simpa [parts] using fun e k he => ih (k, e) he)

theorem sizeOf_part {d e : Datum} (he : e ∈ d.parts) : sizeOf e < sizeOf d := by
  match d with
  | .list ds =>
    have hlt := List.sizeOf_lt_of_mem (show e ∈ ds from he)
    simp only [list.sizeOf_spec]
    omega
  | .set items =>
    obtain ⟨p, hp, rfl⟩ := List.mem_map.mp he
    have hlt := List.sizeOf_lt_of_mem hp
    obtain ⟨name, e⟩ := p
    simp only [set.sizeOf_spec, Prod.mk.sizeOf_spec] at hlt ⊢
    omega

/-- A forced value can stand for a datum as far as can be told without looking inside it. -/
def Heads : Datum → Value → Prop
  | .atom y _, x => x = y
  | .list _, x => ∃ a, x = .list a
  | .set _, x => ∃ a, x = .set a

theorem Heads.whnf {d : Datum} {x : Value} (h : d.Heads x) :
    x.isWhnf = true ∧ x.typeName ≠ .float := by
  match d with
  | .atom y hy =>
    cases h
    cases x <;> simp_all [Value.isAtom, Value.isWhnf, Value.typeName]
  | .list _ | .set _ =>
    obtain ⟨a, rfl⟩ := h
    exact ⟨rfl, nofun⟩

end Datum

/-! ### Related lists -/

section Related

variable {α β : Type} {R : α → β → Prop} {l : List α}

/-- Each element of a list is related to something. -/
theorem exists_forall₂ (h : ∀ a ∈ l, ∃ b, R a b) : ∃ l', List.Forall₂ R l l' := by
  induction l with
  | nil => exact ⟨[], .nil⟩
  | cons a l ih =>
    obtain ⟨b, hb⟩ := h a List.mem_cons_self
    obtain ⟨l', hl'⟩ := ih fun a ha => h a (List.mem_cons_of_mem _ ha)
    exact ⟨b :: l', .cons hb hl'⟩

theorem forall₂_mem {bs : List β} (h : List.Forall₂ R l bs) {a : α} (ha : a ∈ l) :
    ∃ b ∈ bs, R a b := by
  induction h with
  | nil => cases ha
  | cons hab hrest ih =>
    rcases List.mem_cons.mp ha with rfl | ha
    · exact ⟨_, List.mem_cons_self, hab⟩
    · obtain ⟨b, hb, hR⟩ := ih ha
      exact ⟨b, List.mem_cons_of_mem _ hb, hR⟩

theorem forall₂_imp {S : α → β → Prop} {bs : List β} (h : List.Forall₂ R l bs)
    (hRS : ∀ b ∈ bs, ∀ a, R a b → S a b) : List.Forall₂ S l bs := by
  induction h with
  | nil => exact .nil
  | cons hab hrest ih =>
    obtain ⟨hb, hbs⟩ := List.forall_mem_cons.mp hRS
    exact .cons (hb _ hab) (ih hbs)

theorem forall₂_unique {bs cs : List β} (hb : List.Forall₂ R l bs) (hc : List.Forall₂ R l cs)
    (h : ∀ b ∈ bs, ∀ a c, R a b → R a c → b = c) : bs = cs := by
  induction hb generalizing cs with
  | nil =>
    cases hc
    rfl
  | cons hab hrest ih =>
    cases hc with
    | cons hac hrest' =>
      obtain ⟨hb, hbs⟩ := List.forall_mem_cons.mp h
      rw [hb _ _ hab hac, ih hrest' hbs]

end Related

namespace Store

variable {s : Store} {v w : Value}

/-! ### What is inside a value -/

/-- One value is what another stands for, or it is inside that. -/
inductive Inside (s : Store) : Value → Value → Prop
  | here (v : Value) : Inside s v (s.resolve v)
  | part {v w x : Value} {c : Container} {xs : List Value}
      (hc : (s.resolve v).container? = some c) (hxs : s.parts? c = some xs) (hx : x ∈ xs)
      (h : Inside s x w) : Inside s v w

/-- Everything inside a value has a property, and so does what it stands for. -/
def Throughout (s : Store) (P : Value → Prop) (v : Value) : Prop := ∀ w, s.Inside v w → P w

theorem Throughout.here {P : Value → Prop} (h : s.Throughout P v) : P (s.resolve v) :=
  h _ (.here v)

theorem Throughout.intro {P : Value → Prop} (here : P (s.resolve v))
    (part : ∀ c xs, (s.resolve v).container? = some c → s.parts? c = some xs →
      ∀ x ∈ xs, s.Throughout P x) : s.Throughout P v := by
  intro w hw
  cases hw with
  | here => exact here
  | part hc hxs hx h => exact part _ _ hc hxs _ hx w h

theorem Throughout.list {P : Value → Prop} {a : Addr .list} {xs : List Value} (here : P (.list a))
    (ha : s.lists.get? a = some xs) (h : ∀ x ∈ xs, s.Throughout P x) :
    s.Throughout P (.list a) := by
  refine .intro here fun c ys hc hys => ?_
  cases hc
  cases ha.symm.trans hys
  exact h

theorem Throughout.set {P : Value → Prop} {a : Addr .set} {m : Attrs Value} (here : P (.set a))
    (ha : s.sets.get? a = some m) (h : ∀ p ∈ m.bindings, s.Throughout P p.2) :
    s.Throughout P (.set a) := by
  refine .intro here fun c ys hc hys => ?_
  cases hc
  cases (parts?_set ha).symm.trans hys
  exact List.forall_mem_map.mpr h

theorem Throughout.part {P : Value → Prop} {c : Container} {xs : List Value}
    (h : s.Throughout P v) (hc : (s.resolve v).container? = some c) (hxs : s.parts? c = some xs) :
    ∀ x ∈ xs, s.Throughout P x :=
  fun _ hx w hw => h w (.part hc hxs hx hw)

/-! ### The datum of a value -/

/-- A value stands for a datum. -/
inductive Unfolds (s : Store) : Value → Datum → Prop
  | atom {v x : Value} (hx : x.isAtom = true) (h : s.Forced v x) : Unfolds s v (.atom x hx)
  | list {v : Value} {a : Addr .list} {xs : List Value} {ds : List Datum}
      (h : s.Forced v (.list a)) (ha : s.lists.get? a = some xs)
      (inner : List.Forall₂ (Unfolds s) xs ds) : Unfolds s v (.list ds)
  | set {v : Value} {a : Addr .set} {m : Attrs Value} {items : List (String × Datum)}
      (h : s.Forced v (.set a)) (ha : s.sets.get? a = some m)
      (names : m.bindings.map Prod.fst = items.map Prod.fst)
      (inner : List.Forall₂ (Unfolds s) (m.bindings.map Prod.snd) (items.map Prod.snd)) :
      Unfolds s v (.set items)

theorem Evaluated.forcedTo (h : s.Evaluated v) : s.Forced v (s.resolve v) where
  resolve := rfl
  thunk t ht := by
    obtain ⟨w, hw⟩ := h.forced t ht
    rw [ht, (forced_thunk hw).resolve, hw]

/-- A value that is evaluated to the end stands for a datum, if there is no floating point number in
it. -/
theorem Evaluated.unfolds (h : s.Evaluated v) (hfree : s.Throughout (·.typeName ≠ .float) v) :
    ∃ d, s.Unfolds v d := by
  induction h with
  | @intro v w known whnf cell inner ih =>
    have hforced : s.Forced v w := known ▸ (Evaluated.intro known whnf cell inner).forcedTo
    have hparts : ∀ c xs, w.container? = some c → s.parts? c = some xs →
        ∀ x ∈ xs, ∃ d, s.Unfolds x d := fun c xs hc hxs x hx =>
      ih c xs hc hxs x hx (hfree.part (known ▸ hc) hxs x hx)
    cases w with
    | list a =>
      obtain ⟨xs, hxs⟩ := Option.isSome_iff_exists.mp (cell _ rfl)
      obtain ⟨ds, hds⟩ := exists_forall₂ (hparts _ xs rfl hxs)
      exact ⟨.list ds, .list hforced hxs hds⟩
    | set a =>
      obtain ⟨xs, hxs⟩ := Option.isSome_iff_exists.mp (cell _ rfl)
      obtain ⟨m, hm, rfl⟩ := Option.map_eq_some_iff.mp hxs
      have hattrs : ∀ p ∈ m.bindings, ∃ q, Binding s.Unfolds p q := by
        intro p hp
        obtain ⟨d, hd⟩ := hparts _ _ rfl hxs p.2 (List.mem_map_of_mem hp)
        exact ⟨(p.1, d), rfl, hd⟩
      obtain ⟨items, hitems⟩ := exists_forall₂ hattrs
      obtain ⟨hnames, hinner⟩ := binding_iff.mp hitems
      exact ⟨.set items, .set hforced hm hnames hinner⟩
    | float x => exact absurd rfl (known ▸ hfree.here)
    | thunk t => cases whnf
    | _ => exact ⟨.atom _ rfl, .atom rfl hforced⟩

theorem Forced.unique {x y : Value} (hx : s.Forced v x) (hy : s.Forced v y) : x = y :=
  hx.resolve.symm.trans hy.resolve

theorem Forced.self {x : Value} (hx : x.isWhnf = true) : s.Forced x x where
  resolve := by cases x <;> first | rfl | cases hx
  thunk t ht := by
    subst ht
    cases hx

theorem Unfolds.forced {d : Datum} (h : s.Unfolds v d) : ∃ x, s.Forced v x ∧ d.Heads x := by
  cases h with
  | @atom v x hx h => exact ⟨x, h, rfl⟩
  | list h | set h => exact ⟨_, h, _, rfl⟩

theorem Unfolds.heads {d : Datum} {x : Value} (h : s.Unfolds v d) (hx : s.Forced v x) :
    d.Heads x := by
  obtain ⟨y, hy, hhead⟩ := h.forced
  exact hx.unique hy ▸ hhead

/-- A value stands for one datum. -/
theorem Unfolds.unique {d e : Datum} (hd : s.Unfolds v d) (he : s.Unfolds v e) : d = e := by
  -- on the datum; what the value resolves to excludes the other kinds of it
  induction d generalizing v e with
  | atom x hx =>
    cases hd with
    | atom _ h =>
      cases he with
      | atom _ h' => cases h.unique h'; rfl
      | list h' => cases h.unique h'; cases hx
      | set h' => cases h.unique h'; cases hx
  | list ds ih =>
    cases hd with
    | list h ha inner =>
      cases he with
      | atom hx h' => cases h.unique h'; cases hx
      | list h' ha' inner' =>
        cases h.unique h'
        cases ha.symm.trans ha'
        rw [forall₂_unique inner inner' fun d hd x e => ih d hd]
      | set h' => cases h.unique h'
  | set items ih =>
    cases hd with
    | set h ha names inner =>
      cases he with
      | atom hx h' => cases h.unique h'; cases hx
      | list h' => cases h.unique h'
      | set h' ha' names' inner' =>
        cases h.unique h'
        cases ha.symm.trans ha'
        rw [forall₂_unique (binding_iff.mpr ⟨names, inner⟩) (binding_iff.mpr ⟨names', inner'⟩)]
        rintro q hq p r ⟨hname, hp⟩ ⟨hname', hp'⟩
        exact Prod.ext (hname.symm.trans hname') (ih q hq hp hp')

/-- What is inside a value stands for what is inside its datum. -/
theorem Unfolds.inner {d : Datum} {c : Container} (h : s.Unfolds v d)
    (hc : (s.resolve v).container? = some c) :
    ∃ xs, s.parts? c = some xs ∧ List.Forall₂ s.Unfolds xs d.parts := by
  cases h with
  | @atom v x hx h =>
    rw [h.resolve] at hc
    cases x <;> cases hc <;> cases hx
  | list h ha inner =>
    rw [h.resolve] at hc
    cases hc
    exact ⟨_, ha, inner⟩
  | set h ha names inner =>
    rw [h.resolve] at hc
    cases hc
    exact ⟨_, parts?_set ha, inner⟩

theorem Unfolds.evaluated {d : Datum} (h : s.Unfolds v d) :
    s.Evaluated v ∧ s.Throughout (·.typeName ≠ .float) v := by
  induction d using Datum.induction_parts generalizing v with
  | h d ih =>
    obtain ⟨x, hx, hhead⟩ := h.forced
    obtain ⟨hwhnf, hfloat⟩ := hhead.whnf
    have hpart : ∀ c xs, (s.resolve v).container? = some c → s.parts? c = some xs → ∀ y ∈ xs,
        s.Evaluated y ∧ s.Throughout (·.typeName ≠ .float) y := by
      intro c xs hc hxs y hy
      obtain ⟨xs', hxs', hinner⟩ := h.inner hc
      cases hxs.symm.trans hxs'
      obtain ⟨e, he, hye⟩ := forall₂_mem hinner hy
      exact ih e he hye
    constructor
    · refine .intro rfl (hx.resolve ▸ hwhnf) (fun c hc => ?_) fun c xs hc hxs y hy => ?_
      · obtain ⟨xs, hxs, -⟩ := h.inner hc
        exact Option.isSome_iff_exists.mpr ⟨xs, hxs⟩
      · exact (hpart c xs hc hxs y hy).1
    · exact .intro (hx.resolve ▸ hfloat) fun c xs hc hxs y hy => (hpart c xs hc hxs y hy).2

/-- **The values that stand for data** are those that are evaluated to the end without any floating
point number. -/
theorem exists_unfolds_iff :
    (∃ d, s.Unfolds v d) ↔ s.Evaluated v ∧ s.Throughout (·.typeName ≠ .float) v :=
  ⟨fun ⟨_, h⟩ => h.evaluated, fun h => h.1.unfolds h.2⟩

end Store

/-! ### Questions -/

namespace Comp

variable {s : Store} {p q : Prop} {c c' : Comp Bool}

/-- A computation finds out whether something is so, without any effect. -/
def Decides (c : Comp Bool) (p : Prop) (s : Store) : Prop :=
  ∃ b, c.Ends s (.ok b) s ∧ (b = true ↔ p)

theorem Decides.of_iff {b : Bool} (h : b = true ↔ p) : (pure b : Comp Bool).Decides p s :=
  ⟨b, ends_pure.mpr ⟨rfl, rfl⟩, h⟩

theorem Decides.congr (h : c.Decides p s) (hpq : p ↔ q) : c.Decides q s := by
  obtain ⟨b, hb, hp⟩ := h
  exact ⟨b, hb, hp.trans hpq⟩

/-- The second question is asked only if the answer to the first is yes. -/
theorem Decides.and (h : c.Decides p s) (h' : c'.Decides q s) :
    (do if ← c then c' else pure false : Comp Bool).Decides (p ∧ q) s := by
  obtain ⟨b, hb, hp⟩ := h
  obtain ⟨b', hb', hq⟩ := h'
  refine ⟨b && b', hb.bind ?_, by simp [← hp, ← hq]⟩
  cases b with
  | true => exact hb'
  | false => exact ends_pure.mpr ⟨rfl, rfl⟩

/-- A question that is asked only if the answer can be yes. -/
theorem Decides.ite [Decidable q] (hq : p → q) (h : q → c.Decides p s) :
    (if q then c else pure false).Decides p s := by
  split
  · rename_i hpos
    exact h hpos
  · rename_i hneg
    exact .of_iff (by simpa using fun hp => hneg (hq hp))

/-- A computation is asked after one without effect. -/
theorem Decides.after {α : Type} {d : Comp α} {f : α → Comp Bool} {a : α}
    (hd : d.Ends s (.ok a) s) (h : (f a).Decides p s) : (d >>= f).Decides p s := by
  obtain ⟨b, hb, hp⟩ := h
  exact ⟨b, hd.bind hb, hp⟩

end Comp

/-! ### Equality -/

theorem Value.plainEq_iff {x y : Value} (hx : x.isAtom = true) (hy : y.isAtom = true) :
    x.plainEq y = true ↔ x = y := by
  cases x <;> cases y <;> simp_all [Value.plainEq, Value.isAtom, Value.number?]

theorem Value.plainEq_container {x y : Value} (h : x.container?.isSome ∨ y.container?.isSome) :
    x.plainEq y = false := by
  cases x <;> cases y <;> simp_all [Value.plainEq, Value.container?, Value.number?]

namespace Comp

/-- What equality does once both values are forced. -/
def equalForced (x y : Value) : Comp Bool :=
  match x, y with
  | .list a, .list b => do
    let xs ← items a
    let ys ← items b
    if xs.length = ys.length then equalItems xs ys else pure false
  | .set a, .set b => do
    let m ← attrs a
    let n ← attrs b
    if m.size = n.size then equalAttrs n m.bindings else pure false
  | x, y => pure (x.plainEq y)

theorem equal_eq (l r : Value) :
    equal l r = forceBoth l r >>= fun p => equalForced p.1 p.2 := rfl

theorem equalForced_atom {x y : Value} (h : x.isAtom = true ∨ y.isAtom = true) :
    equalForced x y = pure (x.plainEq y) := by
  unfold equalForced
  split <;> simp_all [Value.isAtom]

variable {s : Store} {v w x y : Value} {p : Prop}

theorem Decides.equal (hv : s.Forced v x) (hw : s.Forced w y)
    (h : (equalForced x y).Decides p s) : (request (.equal v w)).Decides p s := by
  obtain ⟨b, hb, hp⟩ := h
  refine ⟨b, ?_, hp⟩
  rw [ends_request, Request.ends_run rfl, equal_eq]
  exact ⟨s, (Stays.forceBoth hv hw).ends.bind hb, rfl⟩

/-- Values of which one at least is a list or a set, and that are not both lists or both sets. -/
theorem Decides.unequal (hv : s.Forced v x) (hw : s.Forced w y)
    (hplain : equalForced x y = pure (x.plainEq y))
    (hc : x.container?.isSome ∨ y.container?.isSome) (hp : ¬ p) :
    (request (.equal v w)).Decides p s := by
  refine .equal hv hw ?_
  rw [hplain, Value.plainEq_container hc]
  exact .of_iff (by simpa using hp)

end Comp

namespace Store

variable {s : Store}

/-- Values that stand for a datum are found equal to just those that stand for it too. -/
def Recognizes (s : Store) (d : Datum) : Prop :=
  ∀ v w e, s.Unfolds v d → s.Unfolds w e → (Comp.request (.equal v w)).Decides (d = e) s

/-- The elements of lists of the same length. -/
theorem Recognizes.equalItems {xs ys : List Value} {ds es : List Datum}
    (h : ∀ d ∈ ds, s.Recognizes d) (hx : List.Forall₂ s.Unfolds xs ds)
    (hy : List.Forall₂ s.Unfolds ys es) (hlen : ds.length = es.length) :
    (Comp.equalItems xs ys).Decides (ds = es) s := by
  induction hx generalizing ys es with
  | nil =>
    cases List.length_eq_zero_iff.mp hlen.symm
    exact .of_iff (by simp)
  | cons hd hds ih =>
    cases hy with
    | nil => cases hlen
    | cons he hes =>
      obtain ⟨hhead, htail⟩ := List.forall_mem_cons.mp h
      refine ((hhead _ _ _ hd he).and (ih htail hes (Nat.succ.inj hlen))).congr ?_
      rw [List.cons.injEq]

/-- The attributes of a set are among those of another. -/
theorem Recognizes.equalAttrs {l : List (String × Value)} {m : Attrs Value}
    {items others : List (String × Datum)} (h : ∀ q ∈ items, s.Recognizes q.2)
    (hl : List.Forall₂ (Binding s.Unfolds) l items)
    (hm : List.Forall₂ (Binding s.Unfolds) m.bindings others) :
    (Comp.equalAttrs m l).Decides (items ⊆ others) s := by
  induction hl with
  | nil => exact .of_iff (by simp)
  | @cons p q l items hpq hrest ih =>
    obtain ⟨name, x⟩ := p
    obtain ⟨name', d⟩ := q
    obtain ⟨rfl, hd⟩ := hpq
    obtain ⟨hhead, htail⟩ := List.forall_mem_cons.mp h
    -- names go up strictly, so an attribute is among the others if its name is bound to it there
    have hmem : (name, d) ∈ others ↔ others.lookup name = some d :=
      (Attrs.get?_eq_some (m := ⟨others, ascending_alike hm m.ascending⟩)).symm
    have hfound := lookup_alike hm name
    rw [Comp.equalAttrs]
    split
    · rename_i hnone
      rw [show m.bindings.lookup name = none from hnone] at hfound
      refine .of_iff ?_
      rw [List.cons_subset, hmem]
      cases hlookup : others.lookup name with
      | none => simp
      | some e => rw [hlookup] at hfound; cases hfound
    · rename_i y hy
      rw [show m.bindings.lookup name = some y from hy] at hfound
      generalize hlookup : others.lookup name = o at hfound
      cases hfound with
      | some he =>
        refine ((hhead _ _ _ hd he).and (ih htail)).congr ?_
        rw [List.cons_subset, hmem, hlookup, Option.some_inj, eq_comm]

/-- **Equality of values is equality of data.** -/
theorem recognizes (s : Store) (d : Datum) : s.Recognizes d := by
  induction d with
  | atom x hx =>
    intro v w e hd he
    cases hd with
    | atom _ h =>
      cases he with
      | atom hy h' =>
        refine .equal h h' ?_
        rw [Comp.equalForced_atom (.inl hx)]
        exact .of_iff ((Value.plainEq_iff hx hy).trans (by simp))
      | list h' | set h' =>
        exact .unequal h h' (Comp.equalForced_atom (.inl hx)) (.inr rfl) nofun
  | list ds ih =>
    intro v w e hd he
    cases hd with
    | list h ha inner =>
      cases he with
      | atom hy h' => exact .unequal h h' (Comp.equalForced_atom (.inr hy)) (.inl rfl) nofun
      | set h' => exact .unequal h h' rfl (.inl rfl) nofun
      | @list _ b ys es h' hb inner' =>
        refine .equal h h' (.after (Comp.Stays.items ha).ends ?_)
        refine .after (Comp.Stays.items hb).ends ?_
        rw [Datum.list.injEq, inner.length_eq, inner'.length_eq]
        refine .ite (fun h => h ▸ rfl) fun hlen => ?_
        exact Recognizes.equalItems ih inner inner' hlen
  | set items ih =>
    intro v w e hd he
    cases hd with
    | @set _ a m _ h ha names inner =>
      cases he with
      | atom hy h' => exact .unequal h h' (Comp.equalForced_atom (.inr hy)) (.inl rfl) nofun
      | list h' => exact .unequal h h' rfl (.inl rfl) nofun
      | @set _ b n others h' hb names' inner' =>
        have hm := binding_iff.mpr ⟨names, inner⟩
        have hn := binding_iff.mpr ⟨names', inner'⟩
        refine .equal h h' (.after (Comp.Stays.attrs ha).ends ?_)
        refine .after (Comp.Stays.attrs hb).ends ?_
        rw [Datum.set.injEq, Attrs.size, Attrs.size, hm.length_eq, hn.length_eq]
        refine .ite (fun h => h ▸ rfl) fun hlen => ?_
        -- of two sets of the same size, one has all attributes of the other only if they are equal
        refine (Recognizes.equalAttrs ih hm hn).congr ?_
        exact Attrs.subset_iff (ascending_alike hm m.ascending) (ascending_alike hn n.ascending)
          hlen

end Store

end NixKernel
