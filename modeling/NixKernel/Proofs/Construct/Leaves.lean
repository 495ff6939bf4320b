import NixKernel.Proofs.Construct.Trie
import NixKernel.Proofs.Sweep

/-!
Nothing is lost and nothing is made up when definitions are merged. The leaves of an evaluated value
are the places inside it that hold no set. Once a set that was built from literals is evaluated, its
leaves are those of the literals, each at the path of its definition, and no two definitions have a
leaf in common.
-/

namespace NixKernel

/-! ### Evaluated values and their leaves -/

namespace Store

/-- A value is evaluated to the end, and it is finite: no thunk inside it is left unforced, and no
container is inside itself. -/
inductive Evaluated (s : Store) : Value → Prop
  | intro {v w : Value} (known : s.resolve v = w) (whnf : w.isWhnf)
      (cell : ∀ c, w.container? = some c → (s.parts? c).isSome)
      (inner : ∀ c xs, w.container? = some c → s.parts? c = some xs → ∀ x ∈ xs, Evaluated s x) :
      Evaluated s v

/-- A value at the place `p` has the leaf `w` at the place `q`: it is the leaf itself if it is no
set, and else one of its attributes has that leaf. -/
inductive Leaf (s : Store) : List String → Value → List String → Value → Prop
  | here {p : List String} {v w : Value} (known : s.resolve v = w) (whnf : w.isWhnf)
      (notSet : ∀ a, w ≠ .set a) : Leaf s p v p w
  | attr {p q : List String} {v w x : Value} {a : Addr .set} {k : String}
      (known : s.resolve v = .set a) (bound : (s.attrs a).get? k = some x)
      (inner : Leaf s (p ++ [k]) x q w) : Leaf s p v q w

section Leaf

variable {s s' : Store} {p q : List String} {u v w : Value}

theorem Leaf.place (h : s.Leaf p v q w) : p <+: q := by
  induction h with
  | here => exact List.prefix_rfl
  | attr known bound inner ih => exact (List.prefix_append _ _).trans ih

/-- The leaves of a set are those of its attributes. -/
theorem leaf_set_iff {a : Addr .set} {m : Attrs Value} (hv : s.resolve v = .set a)
    (ha : s.sets.get? a = some m) :
    s.Leaf p v q w ↔ ∃ k x, m.get? k = some x ∧ s.Leaf (p ++ [k]) x q w := by
  have hm : s.attrs a = m := by rw [attrs, ha]; rfl
  constructor
  · intro h
    cases h with
    | here known whnf notSet => exact absurd (known.symm.trans hv) (notSet a)
    | attr known bound inner =>
      cases hv.symm.trans known
      exact ⟨_, _, hm ▸ bound, inner⟩
  · rintro ⟨k, x, hk, hx⟩
    exact .attr hv (hm.symm ▸ hk) hx

/-- A value that is no set is its own leaf. -/
theorem leaf_iff_of_ne_set (hv : ∀ a, s.resolve v ≠ .set a) (hw : (s.resolve v).isWhnf) :
    s.Leaf p v q w ↔ q = p ∧ w = s.resolve v := by
  constructor
  · intro h
    cases h with
    | here known whnf notSet => exact ⟨rfl, known.symm⟩
    | attr known bound inner => exact absurd known (hv _)
  · rintro ⟨rfl, rfl⟩
    exact .here rfl hw hv

theorem Evaluated.whnf (h : s.Evaluated v) : (s.resolve v).isWhnf := by
  cases h with
  | intro known whnf cell inner => exact known ▸ whnf

theorem Evaluated.forced (h : s.Evaluated v) (t : Addr .thunk) (ht : v = .thunk t) :
    ∃ w, s.thunks.get? t = some (.forced w) := by
  subst ht
  exact ⟨_, forced?_of_resolve rfl h.whnf⟩

/-- The attributes of an evaluated set are evaluated. -/
theorem Evaluated.set (h : s.Evaluated v) {a : Addr .set} (hv : s.resolve v = .set a) :
    ∃ m, s.sets.get? a = some m ∧ ∀ k x, m.get? k = some x → s.Evaluated x := by
  cases h with
  | intro known whnf cell inner =>
    cases hv.symm.trans known
    obtain ⟨xs, hxs⟩ := Option.isSome_iff_exists.mp (cell _ rfl)
    obtain ⟨m, hm, rfl⟩ := Option.map_eq_some_iff.mp hxs
    refine ⟨m, hm, fun k x hk => inner _ _ rfl hxs x ?_⟩
    exact List.mem_map.mpr ⟨(k, x), Attrs.get?_eq_some.mp hk, rfl⟩

/-- What stands for an evaluated value in a later store is evaluated there. -/
theorem Evaluated.mono (h : s.Evaluated v) (hs : s.Later s') (hu : s'.resolve u = s.resolve v) :
    s'.Evaluated u := by
  induction h generalizing u with
  | @intro v w known whnf cell inner ih =>
    have hparts : ∀ c, w.container? = some c → s'.parts? c = s.parts? c := by
      intro c hc
      obtain ⟨xs, hxs⟩ := Option.isSome_iff_exists.mp (cell c hc)
      rw [hxs, hs.parts? hxs]
    refine .intro (hu.trans known) whnf (fun c hc => ?_) fun c xs hc hxs x hx => ?_
    · rw [hparts c hc]
      exact cell c hc
    · rw [hparts c hc] at hxs
      exact ih c xs hc hxs x hx (hs.resolve (inner c xs hc hxs x hx).forced)

/-- What stands for an evaluated value in a later store has the same leaves. -/
theorem Evaluated.leaf_iff (h : s.Evaluated v) (hs : s.Later s')
    (hu : s'.resolve u = s.resolve v) : s'.Leaf p u q w ↔ s.Leaf p v q w := by
  induction h generalizing u p with
  | @intro v x known whnf cell inner ih =>
    have hev : s.Evaluated v := .intro known whnf cell inner
    by_cases hset : ∃ a, s.resolve v = .set a
    · obtain ⟨a, ha⟩ := hset
      obtain ⟨m, hm, -⟩ := hev.set ha
      rw [leaf_set_iff (hu.trans ha) (hs.set hm), leaf_set_iff ha hm]
      refine exists_congr fun k => exists_congr fun y => and_congr_right fun hk => ?_
      have hy : y ∈ m.bindings.map Prod.snd :=
        List.mem_map.mpr ⟨(k, y), Attrs.get?_eq_some.mp hk, rfl⟩
      have hc : x.container? = some (.set a) := by rw [← known, ha]; rfl
      exact ih _ _ hc (parts?_set hm) y hy
        (hs.resolve (inner _ _ hc (parts?_set hm) y hy).forced)
    · have hne : ∀ a, s.resolve v ≠ .set a := fun a ha => hset ⟨a, ha⟩
      rw [leaf_iff_of_ne_set (hu ▸ hne) (hu ▸ hev.whnf), leaf_iff_of_ne_set hne hev.whnf, hu]

theorem Evaluated.settled (h : s.Evaluated v) : Settled s v := by
  induction h with
  | @intro v w known whnf cell inner ih =>
    have hev : s.Evaluated v := .intro known whnf cell inner
    by_cases hset : ∃ a, w = .set a
    · obtain ⟨a, rfl⟩ := hset
      obtain ⟨m, hm, -⟩ := hev.set known
      exact .set known hm fun p hp => ih _ _ rfl (parts?_set hm) p.2 (List.mem_map.mpr ⟨p, hp, rfl⟩)
    · exact .plain known whnf fun a ha => hset ⟨a, ha⟩

end Leaf

end Store

/-! ### Sets that have been swept -/

namespace Store

/-- From `s` to `s'` the containers `seen` have been swept. -/
structure Swept (s s' : Store) (seen : List Container) : Prop where
  ripens : s.Ripens s'
  closed : ∀ c ∈ seen, s'.Closed seen c

theorem swept_of_deepForce {s s' : Store} {a : Addr .set} {w : Value}
    (h : (Comp.deepForce (.set a)).Ends s (.ok w) s') :
    w = .set a ∧ ∃ seen, Container.set a ∈ seen ∧ Swept s s' seen := by
  obtain ⟨hw, seen, hk, hclosed⟩ := Comp.deepForce_known h
  exact ⟨hw.symm, seen, hk.seen _ rfl, ripens_law.ends h, hclosed⟩

section Swept

variable {s s' : Store} {seen : List Container} {a : Addr .set} {m : Attrs Value} {k : String}

theorem Swept.known (h : Swept s s' seen) (ha : Container.set a ∈ seen)
    (hm : s.sets.get? a = some m) {x : Value} (hk : m.get? k = some x) : s'.Known seen x := by
  obtain ⟨xs, hxs, hx⟩ := h.closed _ ha
  cases (parts?_set (h.ripens.later.set hm)).symm.trans hxs
  exact hx x (List.mem_map.mpr ⟨(k, x), Attrs.get?_eq_some.mp hk, rfl⟩)

/-- A thunk of a literal has come to the value of the literal. -/
theorem Swept.leaf (h : Swept s s' seen) (ha : Container.set a ∈ seen)
    (hm : s.sets.get? a = some m) {t : Addr .thunk} {env : Env} {e : Expr} {w : Value}
    (hk : m.get? k = some (.thunk t)) (ht : s.thunks.get? t = some (.unforced env e))
    (he : s.literal? e = some w) : s'.resolve (.thunk t) = w := by
  obtain ⟨v, hv⟩ := (h.known ha hm hk).forced t rfl
  rw [resolve_thunk, forced?_eq_some.mpr hv, ← h.ripens.literal ht he hv]
  rfl

theorem Swept.node (h : Swept s s' seen) (ha : Container.set a ∈ seen)
    (hm : s.sets.get? a = some m) {a' : Addr .set} (hk : m.get? k = some (.set a')) :
    Container.set a' ∈ seen := (h.known ha hm hk).seen _ rfl

end Swept

end Store

/-! ### The leaves of definitions -/

namespace Definition

open Store

/-- The leaves of a definition at the place `p`: those of its literal, at the end of its path. -/
def Leaf (s : Store) (p : List String) (d : Definition) (q : List String) (w : Value) : Prop :=
  ∃ v, d.value = .lit v ∧ s.Leaf (p ++ d.names) v q w

/-- Two definitions have no leaf at the same place. -/
def Disjoint (s : Store) (p : List String) (d d' : Definition) : Prop :=
  ∀ q w w', Leaf s p d q w → ¬ Leaf s p d' q w'

/-- The paths of definitions are names throughout, and their values are evaluated literals. -/
def Spelled (s : Store) (ds : List Definition) : Prop :=
  ∀ d ∈ ds, d.IsWhole ∧ ∃ v, d.value = .lit v ∧ s.Evaluated v

section Spelled

variable {s : Store} {ds g : List Definition} {p q : List String} {w : Value}

theorem Spelled.settledAll (h : Spelled s ds) : SettledAll s ds := by
  intro d hd
  obtain ⟨-, v, hv, he⟩ := h d hd
  exact ⟨v, hv, he.settled⟩

theorem Spelled.under (h : Spelled s ds) (k : String) : Spelled s (under k ds) := by
  intro d hd
  obtain ⟨d', hd', hp, hv⟩ := mem_under.mp hd
  rw [hv, ← isWhole_of_tail hp]
  exact h d' hd'

theorem Spelled.inside (h : Spelled s g) : Spelled s (inside s g) := by
  intro d hd
  rcases mem_inside hd with ⟨hd, -⟩ | ⟨d', hd', -, x, hx, rfl⟩
  · exact h d hd
  · obtain ⟨-, v, hv, he⟩ := h d' hd'
    refine ⟨by simp [IsWhole], x.2, rfl, ?_⟩
    rw [hv] at hx
    cases hm : s.literalAttrs? (.lit v) with
    | none => rw [hm] at hx; cases hx
    | some m =>
      rw [hm] at hx
      obtain ⟨a, ha, hcell⟩ := literalAttrs?_eq_some.mp hm
      obtain ⟨v', hv', hres, -⟩ := literal?_eq_some.mp ha
      cases hv'
      obtain ⟨m', hm', hev⟩ := he.set hres
      cases hcell.symm.trans hm'
      exact hev x.1 x.2 (Attrs.get?_eq_some.mpr hx)

/-- The leaves of a definition are those of its rest after the first name. -/
theorem leaf_of_tail {d d' : Definition} {k : String} (hp : d.path = some k :: d'.path)
    (hv : d'.value = d.value) : Leaf s p d q w ↔ Leaf s (p ++ [k]) d' q w := by
  rw [Leaf, Leaf, names_of_tail hp, hv, List.append_assoc]
  rfl

/-- The leaves of a definition of a nested attribute are those of what it says about the inside. -/
theorem leaf_iff_opened {may : Prop} (hj : Joins s may g) (hn : Nested g) {d : Definition}
    (hd : d ∈ g) : Leaf s p d q w ↔ ∃ x ∈ opened s d, Leaf s p x q w := by
  by_cases hp : d.path = []
  · obtain ⟨-, m, hm⟩ := hj.literal hn hd hp
    obtain ⟨a, ha, hcell⟩ := literalAttrs?_eq_some.mp hm
    obtain ⟨v, hv, hres, -⟩ := literal?_eq_some.mp ha
    obtain ⟨path, e⟩ := d
    subst hp
    rw [opened_plain hm]
    constructor
    · rintro ⟨v', hv', hl⟩
      cases hv.symm.trans hv'
      obtain ⟨k, x, hk, hx⟩ := (leaf_set_iff hres hcell).mp hl
      refine ⟨_, List.mem_map.mpr ⟨(k, x), Attrs.get?_eq_some.mp hk, rfl⟩, x, rfl, ?_⟩
      rw [List.append_assoc] at hx
      exact hx
    · rintro ⟨_, hx, v', hv', hl⟩
      obtain ⟨⟨k, x⟩, hk, rfl⟩ := List.mem_map.mp hx
      cases hv'
      refine ⟨v, hv, (leaf_set_iff hres hcell).mpr ⟨k, x, Attrs.get?_eq_some.mpr hk, ?_⟩⟩
      rw [List.append_assoc]
      exact hl
  · rw [opened_nested hp]
    simp

theorem exists_leaf_inside {may : Prop} (hj : Joins s may g) (hn : Nested g) :
    (∃ d ∈ inside s g, Leaf s p d q w) ↔ ∃ d ∈ g, Leaf s p d q w := by
  constructor
  · rintro ⟨x, hx, hl⟩
    obtain ⟨d, hd, hx⟩ := List.mem_flatMap.mp hx
    exact ⟨d, hd, (leaf_iff_opened hj hn hd).mpr ⟨x, hx, hl⟩⟩
  · rintro ⟨d, hd, hl⟩
    obtain ⟨x, hx, hl⟩ := (leaf_iff_opened hj hn hd).mp hl
    exact ⟨x, List.mem_flatMap.mpr ⟨d, hd, hx⟩, hl⟩

/-- The first name of a path that is not empty. -/
theorem IsWhole.exists_tail {d : Definition} (hw : d.IsWhole) (hp : d.path ≠ []) :
    ∃ k d', d.tail? k = some d' := by
  obtain ⟨path, e⟩ := d
  rcases path with _ | ⟨_ | k, rest⟩
  · exact absurd rfl hp
  · exact absurd List.mem_cons_self hw
  · exact ⟨k, ⟨rest, e⟩, tail?_eq_some.mpr ⟨rfl, rfl⟩⟩

/-- The leaves of definitions are those of the definitions of each attribute. -/
theorem exists_leaf_under (hs : Spelled s ds) (hp : ∀ d ∈ ds, d.path ≠ []) :
    (∃ d ∈ ds, Leaf s p d q w) ↔ ∃ k, ∃ d ∈ Definition.under k ds, Leaf s (p ++ [k]) d q w := by
  constructor
  · rintro ⟨d, hd, hl⟩
    obtain ⟨k, d', hd'⟩ := (hs d hd).1.exists_tail (hp d hd)
    obtain ⟨hpath, hv⟩ := tail?_eq_some.mp hd'
    exact ⟨k, d', List.mem_filterMap.mpr ⟨d, hd, hd'⟩, (leaf_of_tail hpath hv).mp hl⟩
  · rintro ⟨k, d', hd', hl⟩
    obtain ⟨d, hd, hpath, hv⟩ := mem_under.mp hd'
    exact ⟨d, hd, (leaf_of_tail hpath hv).mpr hl⟩

end Spelled

/-- Compatible definitions have no leaf in common. -/
theorem Compatible.disjoint {s : Store} {may : Prop} {ds : List Definition}
    (hc : Compatible s may ds) (hs : Spelled s ds) (hp : ∀ d ∈ ds, d.path ≠ [])
    (p : List String) : ds.Pairwise (Disjoint s p) := by
  induction hc generalizing p with
  | @intro ds joins nested ih =>
    refine List.pairwise_iff_forall_sublist.mpr fun {d e} hsub q w w' hd he => ?_
    have hmem : ∀ x ∈ [d, e], x ∈ ds := fun x hx => hsub.subset hx
    obtain ⟨k, d', hd'⟩ := (hs d (hmem d (by simp))).1.exists_tail (hp d (hmem d (by simp)))
    obtain ⟨j, e', he'⟩ := (hs e (hmem e (by simp))).1.exists_tail (hp e (hmem e (by simp)))
    obtain ⟨hdp, hdv⟩ := tail?_eq_some.mp hd'
    obtain ⟨hep, hev⟩ := tail?_eq_some.mp he'
    rw [leaf_of_tail hdp hdv] at hd
    rw [leaf_of_tail hep hev] at he
    -- both leaves are at the same place, so both paths start with the same name
    obtain rfl : k = j := by
      obtain ⟨_, _, hl⟩ := hd
      obtain ⟨_, _, hl'⟩ := he
      have hk := (List.prefix_append (p ++ [k]) d'.names).trans hl.place
      have hj := (List.prefix_append (p ++ [j]) e'.names).trans hl'.place
      have := List.prefix_of_prefix_length_le hk hj (by simp)
      simpa using (List.prefix_append_right_inj p).mp this
    have hsub' : [d', e'].Sublist (Definition.under k ds) := by
      have h := hsub.filterMap (tail? k)
      rwa [List.filterMap_cons_some hd', List.filterMap_cons_some he'] at h
    have hn : Nested (Definition.under k ds) := by
      have hlen := hsub'.length_le
      refine nested_iff.mpr ⟨fun h => ?_, fun v h => ?_⟩ <;> rw [h] at hlen <;> simp at hlen
    have hin := ih k hn (hs.under k).inside (fun x => path_ne_nil_of_mem_inside) (p ++ [k])
    have hpair := List.pairwise_iff_forall_sublist.mp (List.pairwise_flatMap.mp hin).2 hsub'
    obtain ⟨x, hx, hlx⟩ := (leaf_iff_opened (joins k) hn (hsub'.subset (by simp))).mp hd
    obtain ⟨y, hy, hly⟩ := (leaf_iff_opened (joins k) hn (hsub'.subset (by simp))).mp he
    exact hpair x hx y hy q w w' hlx hly

/-! ### The leaves of the set -/

section Evaluated

variable {s s₁ s₂ : Store} {may : Prop} {env : Env} {ds : List Definition} {a : Addr .set}
  {seen : List Container}

/-- The attribute of a plain literal stands for the literal's value after a sweep. -/
theorem Spelled.leaf_resolve (hs : Spelled s ds) (h₁ : s.Later s₁) (hw : Swept s₁ s₂ seen)
    (ha : Container.set a ∈ seen) {m : Attrs Value} (cell : s₁.sets.get? a = some m) {k : String}
    {e : Expr} (hk : alone? (Definition.under k ds) = some e) {t : Addr .thunk}
    (ht : m.get? k = some (.thunk t)) (hc : s₁.thunks.get? t = some (.unforced env e)) :
    ∃ v, e = .lit v ∧ s.Evaluated v ∧ s₂.resolve (.thunk t) = s.resolve v := by
  obtain ⟨-, v, hv, hev⟩ := hs.under k ⟨[], e⟩ (by rw [alone?_eq_some.mp hk]; simp)
  obtain rfl : e = .lit v := hv
  have hlit : s.literal? (.lit v) = some (s.resolve v) :=
    literal?_eq_some.mpr ⟨v, rfl, rfl, hev.whnf⟩
  exact ⟨v, rfl, hev, hw.leaf ha cell ht hc (h₁.literal? hlit)⟩

/-- The leaves of a set that is laid out, after a sweep, are those of the definitions. -/
theorem Laid.leaf_iff (hc : Compatible s may ds) (hs : Spelled s ds) (hp : ∀ d ∈ ds, d.path ≠ [])
    (hl : Laid s s₁ env ds a) (h₁ : s.Later s₁) (hw : Swept s₁ s₂ seen)
    (ha : Container.set a ∈ seen) (p q : List String) (w : Value) :
    s₂.Leaf p (.set a) q w ↔ ∃ d ∈ ds, Leaf s p d q w := by
  induction hc generalizing a p with
  | @intro ds joins nested ih =>
    obtain ⟨sub, cell, absent, leaf, node, below⟩ := hl
    rw [leaf_set_iff rfl (hw.ripens.later.set cell), exists_leaf_under hs hp]
    refine exists_congr fun k => ?_
    rcases Gathered.cases_under (Definition.under k ds) with hk | ⟨e, hk⟩ | hk
    · rw [absent k hk, hk]
      simp
    · obtain ⟨t, ht, hcell⟩ := leaf k e hk
      obtain ⟨v, rfl, hev, hres⟩ := hs.leaf_resolve h₁ hw ha cell hk ht hcell
      simp only [ht, Option.some.injEq, exists_eq_left', alone?_eq_some.mp hk,
        List.mem_singleton, exists_eq_left, Leaf, Expr.lit.injEq, names, cut, List.append_nil]
      exact hev.leaf_iff (h₁.trans hw.ripens.later) hres
    · rw [← exists_leaf_inside (joins k) hk, node k hk]
      simp only [Option.some.injEq, exists_eq_left']
      exact ih k hk (hs.under k).inside (fun d => path_ne_nil_of_mem_inside) (below k hk)
        (hw.node ha cell (node k hk)) (p ++ [k])

/-- A set that is laid out is evaluated after a sweep. -/
theorem Laid.evaluated (hs : Spelled s ds) (hl : Laid s s₁ env ds a) (h₁ : s.Later s₁)
    (hw : Swept s₁ s₂ seen) (ha : Container.set a ∈ seen) : s₂.Evaluated (.set a) := by
  induction hl with
  | @intro ds a m sub cell absent leaf node below ih =>
    have hm : s₂.sets.get? a = some m := hw.ripens.later.set cell
    refine .intro rfl rfl (fun c hc => ?_) fun c xs hc hxs x hx => ?_
    · cases hc
      rw [parts?_set hm]
      rfl
    · cases hc
      cases hxs.symm.trans (parts?_set hm)
      obtain ⟨⟨k, x⟩, hkx, rfl⟩ := List.mem_map.mp hx
      have hget : m.get? k = some x := Attrs.get?_eq_some.mpr hkx
      rcases Gathered.cases_under (Definition.under k ds) with hk | ⟨e, hk⟩ | hk
      · rw [absent k hk] at hget
        cases hget
      · obtain ⟨t, ht, hcell⟩ := leaf k e hk
        cases hget.symm.trans ht
        obtain ⟨v, rfl, hev, hres⟩ := hs.leaf_resolve h₁ hw ha cell hk ht hcell
        exact hev.mono (h₁.trans hw.ripens.later) hres
      · cases hget.symm.trans (node k hk)
        exact ih k hk (hs.under k).inside (hw.node ha cell (node k hk))

/-- Every path leads somewhere in a set that is laid out. -/
theorem Laid.follow_names (hc : Compatible s may ds) (hs : Spelled s ds)
    (hp : ∀ d ∈ ds, d.path ≠ []) (hl : Laid s s₁ env ds a) (h₂ : s₁.Later s₂) {d : Definition}
    (hd : d ∈ ds) : ∃ x, s₂.follow (.set a) d.names = some x := by
  induction hc generalizing a d with
  | @intro ds joins nested ih =>
    obtain ⟨sub, cell, absent, leaf, node, below⟩ := hl
    obtain ⟨k, d', hd'⟩ := (hs d hd).1.exists_tail (hp d hd)
    have hmem : d' ∈ Definition.under k ds := List.mem_filterMap.mpr ⟨d, hd, hd'⟩
    rw [names_of_tail (tail?_eq_some.mp hd').1, follow_set (h₂.set cell)]
    rcases Gathered.cases_under (Definition.under k ds) with hk | ⟨e, hk⟩ | hk
    · rw [hk] at hmem
      cases hmem
    · obtain ⟨t, ht, -⟩ := leaf k e hk
      rw [alone?_eq_some.mp hk, List.mem_singleton] at hmem
      subst hmem
      exact ⟨.thunk t, by rw [ht]; rfl⟩
    · rw [node k hk, Option.bind_some]
      by_cases hpath : d'.path = []
      · exact ⟨.set (sub k), by rw [names, hpath]; rfl⟩
      · refine ih k hk (hs.under k).inside (fun x => path_ne_nil_of_mem_inside) (below k hk) ?_
        refine List.mem_flatMap.mpr ⟨d', hmem, ?_⟩
        rw [opened_nested hpath]
        exact List.mem_singleton_self d'

end Evaluated

end Definition

/-! ### Full evaluation of the set -/

namespace Comp

open Store

/-- A value can be swept in a store, and whenever more of its literals have been forced. -/
def Sweeps (s : Store) (v : Value) : Prop :=
  ∀ s₁ seen, s.Ripens s₁ → ∃ w seen' s', (Request.sweep seen v).Ends s₁ (.ok (w, seen')) s'

section Sweeps

variable {s s₁ s₂ : Store} {v w : Value}

theorem sweepAll_ends {xs : List Value} (hx : ∀ x ∈ xs, Sweeps s x) (h₁ : s.Ripens s₁)
    (seen : List Container) : ∃ seen' s', (sweepAll seen xs).Ends s₁ (.ok seen') s' := by
  induction xs generalizing s₁ seen with
  | nil => exact ⟨seen, s₁, ends_pure.mpr ⟨rfl, rfl⟩⟩
  | cons x xs ih =>
    obtain ⟨w, seen₁, s₂, h₂⟩ := hx x List.mem_cons_self s₁ seen h₁
    obtain ⟨seen', s', h'⟩ := ih (fun y hy => hx y (List.mem_cons_of_mem x hy))
      (h₁.trans (ripens_law.ends (ends_request.mpr h₂))) seen₁
    exact ⟨seen', s', (ends_request.mpr h₂).bind h'⟩

/-- A value can be swept if it can be forced and what is inside its container can be swept. -/
theorem sweep_ends (h : (force v).Ends s₁ (.ok w) s₂)
    (hw : ∀ c, w.container? = some c → ∃ xs, s₂.parts? c = some xs ∧ ∀ seen,
      ∃ seen' s', (sweepAll seen xs).Ends s₂ (.ok seen') s') (seen : List Container) :
    ∃ seen' s', (Request.sweep seen v).Ends s₁ (.ok (w, seen')) s' := by
  suffices hv : ∃ seen' s', (visit seen w).Ends s₂ (.ok (w, seen')) s' by
    obtain ⟨seen', s', hv⟩ := hv
    refine ⟨seen', s', (Request.ends_run rfl).mpr ⟨s', ?_, rfl⟩⟩
    rw [sweep_eq]
    exact h.bind hv
  unfold visit
  split
  · exact ⟨seen, s₂, ends_pure.mpr ⟨rfl, rfl⟩⟩
  · rename_i c hc
    split
    · exact ⟨seen, s₂, ends_pure.mpr ⟨rfl, rfl⟩⟩
    · obtain ⟨xs, hxs, hall⟩ := hw c hc
      obtain ⟨seen', s', h'⟩ := hall (c :: seen)
      have hparts : (partsOf c).Ends s₂ (.ok xs) s₂ := ⟨0, runWith_partsOf_ok.mpr ⟨hxs, rfl⟩⟩
      exact ⟨seen', s', hparts.bind (h'.bind (ends_pure.mpr ⟨rfl, rfl⟩))⟩

/-- What is inside an evaluated value can be swept if each part can. -/
theorem sweepAll_parts (hev : s.Evaluated v) (h₁ : s.Ripens s₁)
    (hx : ∀ c xs, (s.resolve v).container? = some c → s.parts? c = some xs →
      ∀ x ∈ xs, Sweeps s x) {c : Container} (hc : (s.resolve v).container? = some c) :
    ∃ xs, s₁.parts? c = some xs ∧ ∀ seen,
      ∃ seen' s', (sweepAll seen xs).Ends s₁ (.ok seen') s' := by
  cases hev with
  | intro known whnf cell inner =>
    obtain ⟨xs, hxs⟩ := Option.isSome_iff_exists.mp (cell c (known ▸ hc))
    exact ⟨xs, h₁.later.parts? hxs, sweepAll_ends (hx c xs hc hxs) h₁⟩

theorem sweeps_of_evaluated (h : s.Evaluated v) : Sweeps s v := by
  induction h with
  | @intro v w known whnf cell inner ih =>
    have hev : s.Evaluated v := .intro known whnf cell inner
    intro s₁ seen h₁
    refine ⟨w, sweep_ends (force_known ((h₁.later.resolve hev.forced).trans known) whnf)
      (fun c hc => ?_) seen⟩
    rw [← known] at hc ih
    exact sweepAll_parts hev h₁ ih hc

/-- An unforced thunk of an evaluated literal can be swept below the limit. -/
theorem sweeps_thunk {t : Addr .thunk} {env : Env}
    (ht : s.thunks.get? t = some (.unforced env (.lit v))) (hev : s.Evaluated v)
    (hl : s.atLimit env = false) : Sweeps s (.thunk t) := by
  intro s₁ seen h₁
  have hlit : s.literal? (.lit v) = some (s.resolve v) :=
    literal?_eq_some.mpr ⟨v, rfl, rfl, hev.whnf⟩
  -- by now the thunk may have been forced, but only to the value of its literal
  have hforce : ∃ s₂, (force (.thunk t)).Ends s₁ (.ok (s.resolve v)) s₂ := by
    obtain ⟨c, hc, hm⟩ := h₁.later.thunk ht
    cases hm with
    | stay =>
      exact ⟨_, force_literal hc ((h₁.later.atLimit env).trans hl) (h₁.later.literal? hlit)⟩
    | forced _ _ u =>
      cases h₁.literal ht hlit hc
      refine ⟨s₁, force_known ?_ hev.whnf⟩
      rw [resolve_thunk, forced?_eq_some.mpr hc]
      rfl
  obtain ⟨s₂, h₂⟩ := hforce
  have hparts : ∀ c xs, (s.resolve v).container? = some c → s.parts? c = some xs →
      ∀ x ∈ xs, Sweeps s x := by
    intro c xs hc hxs x hx
    cases hev with
    | intro known whnf cell inner => exact sweeps_of_evaluated (inner c xs (known ▸ hc) hxs x hx)
  exact ⟨_, sweep_ends h₂ (fun c hc => sweepAll_parts hev (h₁.trans (ripens_law.ends h₂)) hparts hc)
    seen⟩

/-- A set that is laid out can be swept below the limit. -/
theorem sweeps_of_laid {env : Env} {ds : List Definition} {a : Addr .set}
    (hs : Definition.Spelled s ds) (hl : Definition.Laid s s₁ env ds a) (h₁ : s.Later s₁)
    (hlim : s₁.atLimit env = false) : Sweeps s₁ (.set a) := by
  induction hl with
  | @intro ds a m sub cell absent leaf node below ih =>
    intro s₂ seen h₂
    refine ⟨.set a, sweep_ends (ends_pure.mpr ⟨rfl, rfl⟩) (fun c hc => ?_) seen⟩
    cases hc
    refine ⟨_, parts?_set (h₂.later.set cell), sweepAll_ends (fun x hx => ?_) h₂⟩
    obtain ⟨⟨k, x⟩, hkx, rfl⟩ := List.mem_map.mp hx
    have hget : m.get? k = some x := Attrs.get?_eq_some.mpr hkx
    rcases Definition.Gathered.cases_under (Definition.under k ds) with hk | ⟨e, hk⟩ | hk
    · rw [absent k hk] at hget
      cases hget
    · obtain ⟨t, ht, hcell⟩ := leaf k e hk
      cases hget.symm.trans ht
      obtain ⟨-, v, hv, hev⟩ := hs.under k ⟨[], e⟩ (by rw [Definition.alone?_eq_some.mp hk]; simp)
      obtain rfl : e = .lit v := hv
      exact sweeps_thunk hcell (hev.mono h₁ (h₁.resolve hev.forced)) hlim
    · cases hget.symm.trans (node k hk)
      exact ih k hk (hs.under k).inside

theorem deepForce_ends (h : Sweeps s v) : ∃ w s', (deepForce v).Ends s (.ok w) s' := by
  obtain ⟨w, seen, s', h'⟩ := h s [] (ripens_law.refl s)
  exact ⟨w, s', (ends_request.mpr h').bind (ends_pure.mpr ⟨rfl, rfl⟩)⟩

end Sweeps

end Comp

/-! ### Merging -/

open Definition

/-- The definitions of plain values at paths of names. -/
def Definition.ofPaths (ps : List (List String × Value)) : List Definition :=
  ps.map fun p => ⟨p.1.map some, .lit p.2⟩

theorem Definition.cut_map_some (p : List String) : cut (p.map some) = p := by
  induction p with
  | nil => rfl
  | cons x p ih => exact congrArg (x :: ·) ih

theorem Definition.leaf_ofPaths {s : Store} {p : List String × Value} {q : List String}
    {w : Value} : Leaf s [] ⟨p.1.map some, .lit p.2⟩ q w ↔ s.Leaf p.1 p.2 q w := by
  simp [Leaf, names, cut_map_some]

theorem Definition.spelled_ofPaths {s : Store} {ps : List (List String × Value)}
    (hv : ∀ p ∈ ps, s.Evaluated p.2) : Spelled s (ofPaths ps) := by
  intro d hd
  obtain ⟨p, hp, rfl⟩ := List.mem_map.mp hd
  exact ⟨by simp [IsWhole], p.2, rfl, hv p hp⟩

/-- **Merging loses nothing and makes nothing up.** Whenever literals at paths of names are built
into a set, the set can be evaluated to the end if thunks may be forced; and once it is, its leaves
are those of the literals at their paths, no two literals have a leaf at the same place, and every
path leads somewhere. -/
theorem construct_leaves (s s' : Store) (env : Env) (ps : List (List String × Value))
    (a : Addr .set) (hp : ∀ p ∈ ps, p.1 ≠ []) (hv : ∀ p ∈ ps, s.Evaluated p.2)
    (h : (Comp.construct env (ps.map fun p => ⟨p.1.map .string, .lit p.2⟩) false).Ends s
      (.ok a) s') :
    (s.atLimit env = false → ∃ s'', (Comp.deepForce (.set a)).Ends s' (.ok (.set a)) s'') ∧
    ∀ v s'', (Comp.deepForce (.set a)).Ends s' (.ok v) s'' →
      s''.Evaluated (.set a) ∧
      (∀ q w, s''.Leaf [] (.set a) q w ↔ ∃ p ∈ ps, s.Leaf p.1 p.2 q w) ∧
      ps.Pairwise (fun p p' => ∀ q w w', s.Leaf p.1 p.2 q w → ¬ s.Leaf p'.1 p'.2 q w') ∧
      ∀ p ∈ ps, ∃ x, s''.follow (.set a) p.1 = some x := by
  have hentries : ps.map (fun p => ⟨p.1.map .string, .lit p.2⟩) = (ofPaths ps).map entry := by
    simp only [ofPaths, List.map_map]
    refine List.map_congr_left fun p _ => ?_
    simp only [Function.comp, entry, List.map_map]
    rfl
  rw [hentries] at h
  have hs : Spelled s (ofPaths ps) := spelled_ofPaths hv
  have hne : ∀ d ∈ ofPaths ps, d.path ≠ [] := by
    intro d hd
    obtain ⟨p, hmem, rfl⟩ := List.mem_map.mp hd
    simpa using hp p hmem
  obtain ⟨n, hn⟩ := exists_length_le (ofPaths ps)
  -- what has been built is compatible, and laid out accordingly
  have hc : Compatible s (s.atLimit env = false) (ofPaths ps) := by
    by_contra hc
    obtain ⟨c, s₁, h₁, -⟩ := Comp.construct_incompatible (hs.settledAll.mergeable hn) hne
      (.refl s) hc false
    cases (h.unique h₁).1
  obtain ⟨a', s₁, ha, ⟨hext, hl, -⟩, -⟩ := Comp.construct_compatible hc hne (.refl s) id false
  obtain ⟨hok, rfl⟩ := h.unique ha
  cases hok
  refine ⟨fun hlim => ?_, fun v s'' hd => ?_⟩
  · obtain ⟨w, s'', hd⟩ := Comp.deepForce_ends
      (Comp.sweeps_of_laid hs hl hext.later ((hext.atLimit env).trans hlim))
    cases (Store.swept_of_deepForce hd).1
    exact ⟨s'', hd⟩
  · obtain ⟨-, seen, hseen, hw⟩ := Store.swept_of_deepForce hd
    refine ⟨hl.evaluated hs hext.later hw hseen, fun q w => ?_, ?_, fun p hmem => ?_⟩
    · rw [hl.leaf_iff hc hs hne hext.later hw hseen]
      simp only [ofPaths, List.mem_map, exists_exists_and_eq_and, leaf_ofPaths]
    · have hdis := List.pairwise_map.mp (hc.disjoint hs hne [])
      simpa only [Definition.Disjoint, leaf_ofPaths] using hdis
    · have hfollow := hl.follow_names hc hs hne hw.ripens.later
        (List.mem_map.mpr ⟨p, hmem, rfl⟩)
      rwa [names, cut_map_some] at hfollow

/-- A set with one attribute is merged with a definition beside that attribute. -/
theorem construct_leaves_merged :
    ∃ a s' s'', (Comp.construct .empty [⟨[.string "k"], .lit (.set ⟨3⟩)⟩,
        ⟨[.string "k", .string "y"], .lit .null⟩] false).Ends
        (Store.initial.newSet (.ofList [("x", .bool true)])).2 (.ok a) s' ∧
      (Comp.deepForce (.set a)).Ends s' (.ok (.set a)) s'' ∧
      ∀ q w, s''.Leaf [] (.set a) q w ↔
        (q = ["k", "x"] ∧ w = .bool true) ∨ (q = ["k", "y"] ∧ w = .null) := by
  obtain ⟨a, s', h⟩ : ∃ a s', (Comp.construct .empty [⟨[.string "k"], .lit (.set ⟨3⟩)⟩,
      ⟨[.string "k", .string "y"], .lit .null⟩] false).Ends
      (Store.initial.newSet (.ofList [("x", .bool true)])).2 (.ok a) s' := ⟨_, _, 8, rfl⟩
  have hcell : (Store.initial.newSet (.ofList [("x", .bool true)])).2.sets.get? ⟨3⟩ =
      some (.ofList [("x", .bool true)]) := rfl
  have hlim : (Store.initial.newSet (.ofList [("x", .bool true)])).2.atLimit .empty = false := rfl
  generalize (Store.initial.newSet (.ofList [("x", .bool true)])).2 = s at *
  have htrue : s.Evaluated (.bool true) := .intro rfl rfl nofun nofun
  have hset : s.Evaluated (.set ⟨3⟩) := by
    refine .intro rfl rfl (fun c hc => ?_) fun c xs hc hxs x hx => ?_
    · cases hc
      rw [Store.parts?_set hcell]
      rfl
    · cases hc
      cases hxs.symm.trans (Store.parts?_set hcell)
      obtain rfl : x = .bool true := List.mem_singleton.mp hx
      exact htrue
  obtain ⟨hok, hall⟩ := construct_leaves s s' .empty [(["k"], .set ⟨3⟩), (["k", "y"], .null)] a
    (by simp) (by simpa using ⟨hset, .intro rfl rfl nofun nofun⟩) h
  obtain ⟨s'', hd⟩ := hok hlim
  obtain ⟨-, hleaf, -⟩ := hall _ s'' hd
  refine ⟨a, s', s'', h, hd, fun q w => (hleaf q w).trans ?_⟩
  have hx : ∀ k x, (Attrs.ofList [("x", Value.bool true)]).get? k = some x ↔
      k = "x" ∧ x = .bool true := by
    intro k x
    rw [Attrs.get?_eq_some, ← Prod.mk.injEq]
    exact List.mem_singleton
  have hk := Store.leaf_set_iff (p := ["k"]) (q := q) (w := w) (v := .set ⟨3⟩) rfl hcell
  have hkx := Store.leaf_iff_of_ne_set (s := s) (p := ["k", "x"]) (q := q) (w := w)
    (v := .bool true) nofun rfl
  have hky := Store.leaf_iff_of_ne_set (s := s) (p := ["k", "y"]) (q := q) (w := w)
    (v := .null) nofun rfl
  simp only [hx, ↓existsAndEq, true_and] at hk
  simp [hk, hkx, hky, Store.resolve]

end NixKernel
