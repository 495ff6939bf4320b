import NixKernel.Proofs.Alike.Run
import NixKernel.Proofs.Construct.Grown

/-!
The order of definitions. Definitions at different short paths that are compatible are so in every
order, and the sets that are built from them are twins: they differ in the addresses of their cells
only, so nothing that is computed from them tells them apart.
-/

namespace NixKernel

open Definition

/-! ### Definitions in another order -/

namespace Definition

variable {s : Store} {may : Prop} {ds es g g' : List Definition}

theorem under_perm (h : ds.Perm es) (k : String) : (under k ds).Perm (under k es) :=
  h.filterMap _

theorem inside_perm (h : g.Perm g') : (inside s g).Perm (inside s g') := h.flatMap_right _

theorem alone?_perm (h : g.Perm g') {e : Expr} (he : alone? g = some e) : alone? g' = some e := by
  rw [alone?_eq_some.mp he] at h
  exact alone?_eq_some.mpr h.singleton_eq.symm

theorem nested_perm (h : g.Perm g') (hn : Nested g) : Nested g' := by
  refine ⟨fun hg => hn.1 ?_, ?_⟩
  · rw [hg] at h
    exact h.eq_nil
  · cases he : alone? g' with
    | none => rfl
    | some e => rw [← alone?_perm h.symm he, hn.2]

theorem Joins.perm (hj : Joins s may g) (h : g.Perm g') (ht : ¬ Twice g') : Joins s may g' := by
  rcases hj with ⟨e, he⟩ | ⟨-, hj⟩
  · exact Or.inl ⟨e, alone?_perm h he⟩
  · exact Or.inr ⟨ht, fun d hd => hj d (h.mem_iff.mpr hd)⟩

/-- Definitions at different paths never start with two plain ones of one attribute. -/
theorem not_twice_of_ne (h : ds.Pairwise fun d d' => d.path ≠ d'.path) (k : String) :
    ¬ Twice (under k ds) := by
  have hne : (under k ds).Pairwise fun d d' => d.path ≠ d'.path := by
    refine List.pairwise_filterMap.mpr (h.imp fun {d d'} hdd e he e' he' hee => hdd ?_)
    rw [(tail?_eq_some.mp he).1, (tail?_eq_some.mp he').1, hee]
  intro ht
  unfold Twice at ht
  split at ht
  · rename_i hu
    rw [hu] at hne
    exact (List.pairwise_cons.mp hne).1 _ List.mem_cons_self rfl
  · exact ht

/-- Definitions whose paths have one component go together if every attribute is defined once. -/
theorem compatible_flat (h : ∀ d ∈ ds, d.path.length ≤ 1) :
    Compatible s may ds ↔ ∀ k, (under k ds).length ≤ 1 := by
  have hplain : ∀ k, ∀ d ∈ under k ds, d.path = [] := by
    intro k d hd
    obtain ⟨d', hd', hpath, -⟩ := mem_under.mp hd
    have := h d' hd'
    rw [hpath, List.length_cons] at this
    exact List.length_eq_zero_iff.mp (Nat.le_zero.mp (Nat.le_of_succ_le_succ this))
  constructor
  · intro hc k
    by_cases hg : under k ds = []
    · rw [hg]
      exact Nat.zero_le 1
    · obtain ⟨e, he⟩ := alone_of_plain (hplain k) (hc.joins k).not_twice hg
      rw [alone?_eq_some.mp he]
      exact Nat.le_refl 1
  · intro hlen
    -- at most one definition, whose path ends here
    have halone : ∀ k, under k ds = [] ∨ ∃ e, alone? (under k ds) = some e := by
      intro k
      have hk := hlen k
      have hp := hplain k
      generalize under k ds = g at hk hp
      rcases g with _ | ⟨⟨p, e⟩, _ | ⟨d', g⟩⟩
      · exact Or.inl rfl
      · cases hp ⟨p, e⟩ List.mem_cons_self
        exact Or.inr ⟨e, rfl⟩
      · simp at hk
    refine .intro (fun k => ?_) fun k hn => ?_
    · rcases halone k with hg | he
      · rw [hg]
        exact Or.inr ⟨id, fun d hd => nomatch hd⟩
      · exact Or.inl he
    · rcases halone k with hg | ⟨e, he⟩
      · exact absurd hg hn.1
      · rw [hn.2] at he
        cases he

/-- What is inside an attribute of definitions at short paths has paths of one component. -/
theorem length_le_one_of_short (h : ∀ d ∈ ds, d.path.length ≤ 2) (k : String) :
    ∀ d ∈ inside s (under k ds), d.path.length ≤ 1 := by
  refine fun d => length_le_of_mem_inside (fun d' hd' => ?_) (Nat.le_refl 1)
  obtain ⟨d₀, hd₀, hpath, -⟩ := mem_under.mp hd'
  have := h d₀ hd₀
  rw [hpath, List.length_cons] at this
  exact Nat.le_of_succ_le_succ this

/-- **Compatible definitions at different short paths are compatible in every order.** -/
theorem Compatible.perm (hc : Compatible s may ds) (h : ds.Perm es)
    (hshort : ∀ d ∈ ds, d.path.length ≤ 2) (hne : ds.Pairwise fun d d' => d.path ≠ d'.path) :
    Compatible s may es := by
  have hne' : es.Pairwise fun d d' => d.path ≠ d'.path := hne.perm h fun {x y} hxy => hxy.symm
  have hshort' : ∀ d ∈ es, d.path.length ≤ 2 := fun d hd => hshort d (h.mem_iff.mpr hd)
  refine .intro (fun k => ?_) fun k hn => ?_
  · exact (hc.joins k).perm (under_perm h k) (not_twice_of_ne hne' k)
  have hin := hc.nested (nested_perm (under_perm h k).symm hn)
  rw [compatible_flat (length_le_one_of_short hshort k)] at hin
  rw [compatible_flat (length_le_one_of_short hshort' k)]
  intro j
  rw [← (under_perm (inside_perm (under_perm h k)) j).length_eq]
  exact hin j

theorem Literals.perm (hl : Literals s g) (h : g.Perm g') : Literals s g' := by
  rintro ⟨d, hd, hp⟩ d' hd' hp'
  exact hl ⟨d, h.mem_iff.mpr hd, hp⟩ d' (h.mem_iff.mpr hd') hp'

/-- Below the attributes of definitions at short paths there is nothing to merge. -/
theorem mergeable_of_short (h : ∀ d ∈ ds, d.path.length ≤ 2)
    (hlit : ∀ k, Literals s (under k ds)) : Mergeable s ds := by
  refine .intro hlit fun k _ => ?_
  have hno : ∀ j, ¬ Opens (under j (inside s (under k ds))) := by
    rintro j ⟨d, hd, hp⟩
    obtain ⟨d', hd', hpath, -⟩ := mem_under.mp hd
    have := length_le_one_of_short h k d' hd'
    rw [hpath, List.length_cons] at this
    exact hp (List.length_eq_zero_iff.mp (Nat.le_zero.mp (Nat.le_of_succ_le_succ this)))
  exact .intro (fun j ho => absurd ho (hno j)) fun j ho => absurd ho (hno j)

end Definition

/-! ### Twins -/

/-- Two values of stores that grew out of `s` are the same up to new cells: unforced thunks of the
same expression, or sets of twins. -/
inductive Twins (s s₁ s₂ : Store) (env : Env) : Value → Value → Prop
  | leaf {t t' : Addr .thunk} {e : Expr} (body : e.Over s)
      (left : s₁.thunks.get? t = some (.unforced env e))
      (right : s₂.thunks.get? t' = some (.unforced env e)) :
      Twins s s₁ s₂ env (.thunk t) (.thunk t')
  | node {a a' : Addr .set} {m m' : Attrs Value} (left : s₁.sets.get? a = some m)
      (right : s₂.sets.get? a' = some m')
      (values : ∀ k, Option.Rel (Twins s s₁ s₂ env) (m.get? k) (m'.get? k)) :
      Twins s s₁ s₂ env (.set a) (.set a')

section Twins

variable {s s₁ s₂ : Store} {env : Env} {ds es : List Definition} {a a' : Addr .set} {v w : Value}

/-- The attributes of a literal set have their addresses in the store. -/
theorem Store.Sound.over_attr (hs : s.Sound) {e : Expr} {p : String × Value}
    (hp : p ∈ ((s.literalAttrs? e).getD .empty).bindings) : (Expr.lit p.2).Over s := by
  cases hm : s.literalAttrs? e with
  | none =>
    rw [hm] at hp
    cases hp
  | some m =>
    rw [hm] at hp
    obtain ⟨a, -, ha⟩ := Store.literalAttrs?_eq_some.mp hm
    exact Expr.over_lit (hs.set ha p hp)

theorem Definition.over_inside (hs : s.Sound) (h : ∀ d ∈ ds, d.value.Over s) (k : String) :
    ∀ d ∈ inside s (under k ds), d.value.Over s := by
  intro d hd
  rcases mem_inside hd with ⟨hd, -⟩ | ⟨d', -, -, p, hp, rfl⟩
  · obtain ⟨d', hd', -, hv⟩ := mem_under.mp hd
    rw [hv]
    exact h d' hd'
  · exact hs.over_attr hp

/-- Sets that are laid out as the same definitions ask for, in any order, are twins. -/
theorem Definition.Laid.twins (hs : s.Sound) (hl : Laid s s₁ env ds a)
    (hl' : Laid s s₂ env es a') (h : ds.Perm es) (ho : ∀ d ∈ ds, d.value.Over s) :
    Twins s s₁ s₂ env (.set a) (.set a') := by
  induction hl generalizing es a' with
  | @intro ds a m sub cell absent leaf node below ih =>
    obtain ⟨sub', cell', absent', leaf', node', below'⟩ := hl'
    refine .node cell cell' fun k => ?_
    have hk := under_perm h k
    rcases Gathered.cases_under (under k ds) with hu | ⟨e, hu⟩ | hu
    · rw [hu] at hk
      rw [absent k hu, absent' k hk.symm.eq_nil]
      exact .none
    · obtain ⟨t, ht, hc⟩ := leaf k e hu
      obtain ⟨t', ht', hc'⟩ := leaf' k e (alone?_perm hk hu)
      have hmem : ⟨[], e⟩ ∈ under k ds := by
        rw [alone?_eq_some.mp hu]
        exact List.mem_cons_self
      obtain ⟨d, hd, -, hv⟩ := mem_under.mp hmem
      have hover : e.Over s := by
        rw [show e = d.value from hv]
        exact ho d hd
      rw [ht, ht']
      exact .some (.leaf hover hc hc')
    · have hu' := nested_perm hk hu
      rw [node k hu, node' k hu']
      exact .some (ih k hu (below' k hu') (inside_perm hk) (over_inside hs ho k))

/-- The values at the same place in twins are twins. -/
theorem Twins.at? (h : Twins s s₁ s₂ env v w) (p : List String) :
    Option.Rel (Twins s s₁ s₂ env) (s₁.at? v p) (s₂.at? w p) := by
  induction p generalizing v w with
  | nil =>
    rw [Store.at?_nil, Store.at?_nil]
    exact .some h
  | cons k p ih =>
    cases h with
    | leaf body left right => exact .none
    | node left right values =>
      rw [Store.at?_set left, Store.at?_set right]
      rcases rel_cases (values k) with ⟨hv, hw⟩ | ⟨v, w, hv, hw, hvw⟩
      · rw [hv, hw]
        exact .none
      · rw [hv, hw]
        exact ih hvw

/-- Two values are at the same place in the sets `a` and `a'`. -/
def SamePlace (s₁ s₂ : Store) (a a' : Addr .set) (v w : Value) : Prop :=
  ∃ p, s₁.at? (.set a) p = some v ∧ s₂.at? (.set a') p = some w

theorem SamePlace.twins (h : Twins s s₁ s₂ env (.set a) (.set a'))
    (hp : SamePlace s₁ s₂ a a' v w) : Twins s s₁ s₂ env v w := by
  obtain ⟨p, hv, hw⟩ := hp
  have hvw := h.at? p
  rw [hv, hw] at hvw
  cases hvw with
  | some hvw => exact hvw

theorem SamePlace.attr {b b' : Addr .set} {m m' : Attrs Value}
    (hp : SamePlace s₁ s₂ a a' (.set b) (.set b')) (hb : s₁.sets.get? b = some m)
    (hb' : s₂.sets.get? b' = some m') {k : String} (hv : m.get? k = some v)
    (hw : m'.get? k = some w) : SamePlace s₁ s₂ a a' v w := by
  obtain ⟨p, hpb, hpb'⟩ := hp
  refine ⟨p ++ [k], ?_, ?_⟩
  · rw [Store.at?_append, hpb, Option.bind_some, Store.at?_set hb, hv, Option.bind_some,
      Store.at?_nil]
  · rw [Store.at?_append, hpb', Option.bind_some, Store.at?_set hb', hw, Option.bind_some,
      Store.at?_nil]

/-- New sets whose contents are spread pair these by their places. -/
theorem pairing_samePlace (h₁ : s.Extends s₁) (h₂ : s.Extends s₂) (hs₁ : Spread s s₁ (.set a))
    (hs₂ : Spread s s₂ (.set a')) : Pairing s s₁ s₂ (SamePlace s₁ s₂ a a') := by
  refine ⟨h₁, h₂, ?_, ?_, ?_⟩
  · rintro v w ⟨p, hv, hw⟩
    exact ⟨hs₁.made hv, hs₂.made hw⟩
  · rintro v w ⟨p, hv, hw⟩
    exact ⟨hs₁.has hv, hs₂.has hw⟩
  · rintro v w v' w' ⟨p, hv, hw⟩ ⟨q, hv', hw'⟩
    constructor
    · rintro rfl
      cases hs₁.once hv hv'
      exact Option.some.inj (hw.symm.trans hw')
    · rintro rfl
      cases hs₂.once hw hw'
      exact Option.some.inj (hv.symm.trans hv')

/-- Twins at the same place are linked. -/
theorem Twins.alike (hg : Grown s s₁ s₂ (SamePlace s₁ s₂ a a') a a')
    (h : Twins s s₁ s₂ env v w) (hp : SamePlace s₁ s₂ a a' v w) : v.Alike hg.link w := by
  cases h with
  | leaf body left right => exact .thunk (.new hp)
  | node left right values => exact .set (.new hp)

/-- **Twins make stores alike.** -/
theorem Twins.stores (hg : Grown s s₁ s₂ (SamePlace s₁ s₂ a a') a a')
    (h : Twins s s₁ s₂ env (.set a) (.set a')) (henv : env.Alike hg.link env) :
    s₁.Alike hg.link s₂ := by
  refine hg.alike (fun {t t'} hp => ?_) (fun {b b'} hp => ?_) ⟨[], rfl, rfl⟩
  · cases hp.twins h with
    | leaf body left right =>
      rw [left, right]
      exact .some (.unforced henv (body.alike hg.keeps))
  · cases hp.twins h with
    | node left right values =>
      refine ⟨_, _, left, right, Attrs.alike_of_get? fun k => ?_⟩
      rcases rel_cases (values k) with ⟨hv, hw⟩ | ⟨v, w, hv, hw, hvw⟩
      · rw [hv, hw]
        exact .none
      · rw [hv, hw]
        exact .some (hvw.alike hg (hp.attr left right hv hw))

end Twins

/-! ### Constructions -/

section Constructions

variable {s s₁ s₂ : Store} {env : Env} {ds es : List Definition} {a₁ a₂ : Addr .set}
  {recursive : Bool}

/-- Sets that are made of the same definitions in different orders leave alike stores. -/
theorem Made.alike (hs : s.Sound) (henv : env.Over s) (hv : ∀ d ∈ ds, d.value.Over s)
    (h : ds.Perm es) (h₁ : Made s s s₁ (s.entryScope env recursive) ds a₁)
    (h₂ : Made s s s₂ (s.entryScope env recursive) es a₂) (hb₁ : s.BuiltNext s₁ a₁)
    (hb₂ : s.BuiltNext s₂ a₂) :
    ∃ ρ : Link, ρ.Keeps s ∧ s₁.Alike ρ s₂ ∧ a₁.Alike ρ a₂ := by
  have hg : Grown s s₁ s₂ (SamePlace s₁ s₂ a₁ a₂) a₁ a₂ :=
    ⟨pairing_samePlace h₁.grows h₂.grows h₁.spread h₂.spread, hs, hb₁, hb₂⟩
  have hscope : (s.entryScope env recursive).Alike hg.link (s.entryScope env recursive) := by
    have hold := henv.alike hg.keeps
    cases recursive with
    | true => exact hold.withShadow (.settled ⟨rfl, rfl⟩)
    | false => exact hold
  have ht := h₁.laid.twins hs h₂.laid h hv
  exact ⟨hg.link, hg.keeps, ht.stores hg hscope, .new ⟨[], rfl, rfl⟩⟩

/-- Whether definitions at different short paths are built does not depend on their order, as long
as only literals have to be merged. -/
theorem construct_ok_perm (h : ds.Perm es) (hp : ∀ d ∈ ds, d.path.length = 1 ∨ d.path.length = 2)
    (hne : ds.Pairwise fun d d' => d.path ≠ d'.path) (hlit : ∀ k, Literals s (under k ds))
    (hok : (Comp.construct env (ds.map entry) recursive).Ends s (.ok a₁) s₁) :
    Made s s s₁ (s.entryScope env recursive) ds a₁ ∧ s.BuiltNext s₁ a₁ ∧
      ∃ a₂ s₂, (Comp.construct env (es.map entry) recursive).Ends s (.ok a₂) s₂ ∧
        Made s s s₂ (s.entryScope env recursive) es a₂ ∧ s.BuiltNext s₂ a₂ := by
  have hshort : ∀ d ∈ ds, d.path.length ≤ 2 := fun d hd => by have := hp d hd; omega
  have hnil : ∀ d ∈ ds, d.path ≠ [] := by
    intro d hd hnil
    have := hp d hd
    simp [hnil] at this
  have hc : Compatible s (s.atLimit env = false) ds := by
    by_contra hc
    obtain ⟨c, s', hr, -⟩ := Comp.construct_incompatible (mergeable_of_short hshort hlit) hnil
      (.refl s) hc recursive
    cases (hok.unique hr).1
  obtain ⟨a, s', ha, hmade, hb, -⟩ := Comp.construct_compatible hc hnil (.refl s) id recursive
  obtain ⟨heq, rfl⟩ := hok.unique ha
  cases heq
  obtain ⟨a₂, s₂, ha₂, hmade₂, hb₂, -⟩ := Comp.construct_compatible (hc.perm h hshort hne)
    (fun d hd => hnil d (h.mem_iff.mpr hd)) (.refl s) id recursive
  exact ⟨hmade, hb, a₂, s₂, ha₂, hmade₂, hb₂⟩

end Constructions

/-- **The order of definitions does not matter**, as long as only literals have to be merged. Of
definitions at different paths of one or two components, in any two orders, both are built or
neither is; the sets have the same names, alike attributes are forced to the same type and spelled
out to the same tree or fail alike, and no expression tells the sets apart. -/
theorem construct_order (s : Store) (env : Env) (ds es : List Definition) (recursive : Bool)
    (hs : s.Sound) (henv : env.Over s) (hv : ∀ d ∈ ds, d.value.Over s) (h : ds.Perm es)
    (hp : ∀ d ∈ ds, d.path.length = 1 ∨ d.path.length = 2)
    (hne : ds.Pairwise fun d d' => d.path ≠ d'.path) (hlit : ∀ k, Literals s (under k ds)) :
    ((∃ a s', (Comp.construct env (ds.map entry) recursive).Ends s (.ok a) s') ↔
      ∃ a s', (Comp.construct env (es.map entry) recursive).Ends s (.ok a) s') ∧
    ∀ a₁ s₁ a₂ s₂, (Comp.construct env (ds.map entry) recursive).Ends s (.ok a₁) s₁ →
      (Comp.construct env (es.map entry) recursive).Ends s (.ok a₂) s₂ →
      ∃ m₁ m₂, s₁.sets.get? a₁ = some m₁ ∧ s₂.sets.get? a₂ = some m₂ ∧ m₁.keys = m₂.keys ∧
        (∀ k v w, m₁.get? k = some v → m₂.get? k = some w →
          Comp.SameOutcomes (Comp.typeOf v) (Comp.typeOf w) s₁ s₂ ∧
          Comp.SameOutcomes (Comp.spell [] v) (Comp.spell [] w) s₁ s₂) ∧
        ∀ e, e.Over s → Comp.SameOutcomes
          (do Comp.print (← Comp.eval (env.withShadow (.set a₁)) e))
          (do Comp.print (← Comp.eval (env.withShadow (.set a₂)) e)) s₁ s₂ := by
  refine ⟨⟨?_, ?_⟩, fun a₁ s₁ a₂ s₂ h₁ h₂ => ?_⟩
  · rintro ⟨a₁, s₁, h₁⟩
    obtain ⟨-, -, a₂, s₂, h₂, -⟩ := construct_ok_perm h hp hne hlit h₁
    exact ⟨a₂, s₂, h₂⟩
  · rintro ⟨a₂, s₂, h₂⟩
    obtain ⟨-, -, a₁, s₁, h₁, -⟩ := construct_ok_perm h.symm
      (fun d hd => hp d (h.mem_iff.mpr hd)) (hne.perm h fun {x y} hxy => hxy.symm)
      (fun k => (hlit k).perm (under_perm h k)) h₂
    exact ⟨a₁, s₁, h₁⟩
  · obtain ⟨hmade₁, hb₁, a, s', h', hmade₂, hb₂⟩ := construct_ok_perm h hp hne hlit h₁
    obtain ⟨heq, rfl⟩ := h₂.unique h'
    cases heq
    -- the two sets are alike under a link of the stores, which no computation tells apart
    obtain ⟨ρ, hkeeps, hstores, ha⟩ := Made.alike hs henv hv h hmade₁ hmade₂ hb₁ hb₂
    obtain ⟨m₁, hm₁⟩ := hmade₁.spread.has (Store.at?_nil s₁ (.set a₁))
    obtain ⟨m₂, hm₂⟩ := hmade₂.spread.has (Store.at?_nil s₂ (.set a₂))
    have hm : m₁.Alike ρ m₂ := by
      have hcell := hstores.sets.cell ha
      rw [hm₁, hm₂] at hcell
      cases hcell with
      | some hm => exact hm
    refine ⟨m₁, m₂, hm₁, hm₂, hm.keys, fun k v w hv hw => ?_, fun e he => ?_⟩
    · have hvw := hm.get? k
      rw [hv, hw] at hvw
      cases hvw with
      | some hvw =>
        exact ⟨Comp.sameOutcomes (fun n => (answers ρ n).typeOf hvw) hstores,
          Comp.sameOutcomes (fun n => (answers ρ n).spellValue .nil hvw) hstores⟩
    · have hscope := (henv.alike hkeeps).withShadow (.set ha)
      exact Comp.sameOutcomes (fun n => ((answers ρ n).eval hscope (he.alike hkeeps)).bind
        fun x y hxy => (answers ρ n).print hxy) hstores

/-- A literal set is merged with a definition inside it in both orders, and what refers to it is the
same. -/
theorem construct_order_merged :
    ∃ a₁ s₁ a₂ s₂, (Comp.construct .empty [⟨[.string "k"], .lit (.set .builtins)⟩,
        ⟨[.string "k", .string "y"], .lit .null⟩, ⟨[.string "z"], .var "k"⟩] true).Ends .initial
        (.ok a₁) s₁ ∧
      (Comp.construct .empty [⟨[.string "z"], .var "k"⟩, ⟨[.string "k", .string "y"], .lit .null⟩,
        ⟨[.string "k"], .lit (.set .builtins)⟩] true).Ends .initial (.ok a₂) s₂ ∧
      Comp.SameOutcomes (do Comp.print (← Comp.eval (Env.empty.withShadow (.set a₁)) (.var "z")))
        (do Comp.print (← Comp.eval (Env.empty.withShadow (.set a₂)) (.var "z"))) s₁ s₂ := by
  obtain ⟨a₁, s₁, h₁⟩ : ∃ a₁ s₁, (Comp.construct .empty [⟨[.string "k"], .lit (.set .builtins)⟩,
      ⟨[.string "k", .string "y"], .lit .null⟩, ⟨[.string "z"], .var "k"⟩] true).Ends .initial
      (.ok a₁) s₁ := ⟨_, _, 8, rfl⟩
  set ds : List Definition := [⟨[some "k"], .lit (.set .builtins)⟩,
    ⟨[some "k", some "y"], .lit .null⟩, ⟨[some "z"], .var "k"⟩] with hds
  have hv : ∀ d ∈ ds, d.value.Over .initial := by
    simp only [hds, List.forall_mem_cons]
    exact ⟨Expr.over_lit (by decide), Expr.over_lit trivial, Expr.over_var _ "k",
      fun d hd => nomatch hd⟩
  -- only `k` has a definition inside it, and the built-in functions are a literal
  have hlit : ∀ j, Literals .initial (under j ds) := by
    rintro j ⟨d, hd, hne⟩ d' hd' hp'
    simp only [hds, mem_under, List.mem_cons, List.not_mem_nil, or_false, exists_eq_or_imp,
      exists_eq_left] at hd hd'
    have hj : j = "k" := by grind
    have hval : d'.value = .lit (.set .builtins) := by grind
    rw [hval]
    exact ⟨.set .builtins, rfl, fun a ha => ⟨_, by cases ha; rfl⟩⟩
  obtain ⟨hiff, hsame⟩ := construct_order .initial .empty ds ds.reverse true Store.sound_initial
    ⟨nofun, nofun⟩ hv (List.reverse_perm ds).symm (by simp [hds]) (by simp [hds]) hlit
  obtain ⟨a₂, s₂, h₂⟩ := hiff.mp ⟨a₁, s₁, h₁⟩
  obtain ⟨m₁, m₂, -, -, -, -, hall⟩ := hsame a₁ s₁ a₂ s₂ h₁ h₂
  exact ⟨a₁, s₁, a₂, s₂, h₁, h₂, hall _ (Expr.over_var _ "z")⟩

/-- A computed value that is merged: the value of `k` looks up `z`, and while it does so, `k.x` is
waiting for it. If `k.y` is still to come, it is taken up in between and asks for the value of `k`
again; if it has come before, both are merged with `k`. -/
theorem construct_order_computed :
    ∃ z k x y : Definition,
      [z, k, x, y].map path = [[some "z"], [some "k"], [some "k", some "x"], [some "k", some "y"]] ∧
      (∃ s', (Comp.construct .empty ([z, k, x, y].map entry) true).Ends .initial
        (.error (.eval .cyclicThunk)) s') ∧
      ∃ a s', (Comp.construct .empty ([z, x, y, k].map entry) true).Ends .initial (.ok a) s' :=
  ⟨⟨[some "z"], .lit (.bool true)⟩,
    ⟨[some "k"], .cond (.var "z") (.eagerSet [("q", .lit .null)]) (.eagerSet [])⟩,
    ⟨[some "k", some "x"], .lit .null⟩, ⟨[some "k", some "y"], .lit .null⟩,
    rfl, ⟨_, 20, rfl⟩, _, _, 20, rfl⟩

end NixKernel
