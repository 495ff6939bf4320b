import NixKernel.Proofs.Construct.Assembly

/-!
Compatible definitions are built, in every store, into a set that is laid out as they ask for.
Literals that are not compatible are refused, and for no other reason as long as thunks may be
forced.
-/

namespace NixKernel

open Definition

/-- The scope of the entries of a set that is built next. -/
def Store.entryScope (s : Store) (env : Env) (recursive : Bool) : Env :=
  if recursive then env.withShadow (.builder s.builders.next) else env

theorem Store.atLimit_entryScope (s s' : Store) (env : Env) (recursive : Bool) :
    s'.atLimit (s.entryScope env recursive) = s'.atLimit env := by
  cases recursive <;> rfl

/-- The construction that started in `s` has come to the set `a`. -/
def Store.BuiltNext (s s' : Store) (a : Addr .set) : Prop :=
  ∃ c, s'.builders.get? s.builders.next = some c ∧ c.outcome = .built a

/-! ### One level -/

section Level

variable {s : Store} {env : Env} {ds : List Definition} {recursive : Bool} {may : Prop}
  {C : String → Prop} {E : Error → Prop}

/-- A construction whose entries go together, given what becomes of the nested attributes. -/
theorem Comp.construct_joins (hp : ∀ d ∈ ds, d.path ≠ []) (hj : ∀ k, Joins s may (under k ds))
    (hmay : may → s.atLimit env = false)
    (hn : NestedEnds s (s.entryScope env recursive) ds may C E) :
    (∃ a s', (construct env (ds.map entry) recursive).Ends s (.ok a) s' ∧
      Made s s s' (s.entryScope env recursive) ds a ∧ (∀ k, Nested (under k ds) → C k) ∧
      s.BuiltNext s' a ∧ (¬ may → s'.started = s.started)) ∨
    ∃ e s', (construct env (ds.map entry) recursive).Ends s (.error e) s' ∧ E e := by
  have hu := underway_newBuilder s env ds recursive
  obtain ⟨s₂, h₂, hu₂, hst₂⟩ := hu.takeEntries_ok hp hj
    (fun hm => (s.atLimit_entryScope s env recursive).trans (hmay hm)) (Nat.zero_add _)
  rcases hu₂.assemble hn with ⟨a, s', ha, hmade, hC, ⟨c, hc, hout⟩, hst⟩ | ⟨e, s', he, hE⟩
  · refine Or.inl ⟨a, s', ?_, hmade, hC, ⟨c, hc, hout⟩, fun hm => (hst hm).trans (hst₂ hm)⟩
    refine (perform_ends _ s).bind ((ends_request.mpr (build_assemble hu h₂ hu₂ ha)).bind
      ((perform_ends _ s').bind ?_))
    simp only [Action.perform]
    rw [show (s.newBuilder env (ds.map entry) recursive).1 = s.builders.next from rfl, hc,
      Option.bind_some, Builder.set_of_built hout]
    exact ends_pure.mpr ⟨rfl, rfl⟩
  · exact Or.inr ⟨e, s', (perform_ends _ s).bind
      (ends_request.mpr (build_assemble hu h₂ hu₂ he)).bind_error, hE⟩

/-- A construction whose entries do not go together, because of what is known of literals. -/
theorem Comp.construct_refused (hp : ∀ d ∈ ds, d.path ≠ [])
    (hlit : ∀ k, Literals s (under k ds))
    (hj : ¬ ∀ k, Joins s (s.atLimit env = false) (under k ds)) :
    ∃ c s', (construct env (ds.map entry) recursive).Ends s (.error (.eval c)) s' ∧
      (s.atLimit env = false → c.kind = .duplicateAttr) := by
  have hu := underway_newBuilder s env ds recursive
  rw [← s.atLimit_entryScope s env recursive] at hj ⊢
  obtain ⟨c, s', h, hk⟩ := hu.takeEntries_refused hp hlit hj (Nat.zero_add _)
    fun k => Or.inr ⟨id, fun d hd => nomatch hd⟩
  exact ⟨c, s', (perform_ends _ s).bind (ends_request.mpr (build_fails hu h)).bind_error, hk⟩

end Level

/-! ### All levels -/

/-- **Compatible definitions are built** from every later store, without touching what was there. -/
theorem Comp.construct_compatible {s : Store} {may : Prop} {ds : List Definition}
    (hc : Compatible s may ds) (hp : ∀ d ∈ ds, d.path ≠ []) {s₁ : Store} (hs : s.Extends s₁)
    {env : Env} (hmay : may → s.atLimit env = false) (recursive : Bool) :
    ∃ a s', (construct env (ds.map entry) recursive).Ends s₁ (.ok a) s' ∧
      Made s s₁ s' (s₁.entryScope env recursive) ds a ∧ s₁.BuiltNext s' a ∧
      (¬ may → s'.started = s₁.started) := by
  induction hc generalizing s₁ env recursive with
  | @intro ds joins nested ih =>
    have hc : Compatible s may ds := .intro joins nested
    have hmay₁ : may → s₁.atLimit env = false := fun hm => (hs.atLimit env).trans (hmay hm)
    have hnested : NestedEnds s₁ (s₁.entryScope env recursive) ds may (fun _ => True)
        (fun _ => False) := by
      intro k hk s₂ hs₂
      rw [(joins k).inside_eq hk hs]
      obtain ⟨a, s₃, ha, hmade, -, hst⟩ := ih k hk (fun d => path_ne_nil_of_mem_inside)
        (hs.trans hs₂) (fun hm => (s₁.atLimit_entryScope s env recursive).trans (hmay hm)) false
      exact Or.inl ⟨trivial, a, s₃, ha,
        { hmade with laid := hmade.laid.ref (nested k hk) (.refl s) hs }, hst⟩
    rcases construct_joins hp (fun k => (joins k).extends hs) hmay₁ hnested with
      ⟨a, s', ha, hmade, -, hb, hst⟩ | ⟨e, s', -, hE⟩
    · exact ⟨a, s', ha, { hmade with laid := hmade.laid.ref hc hs (.refl s) }, hb, hst⟩
    · exact hE.elim

/-- **Incompatible definitions are refused** from every later store, as long as only literals have
to be merged. -/
theorem Comp.construct_incompatible {s : Store} {ds : List Definition} (hm : Mergeable s ds)
    (hp : ∀ d ∈ ds, d.path ≠ []) {s₁ : Store} (hs : s.Extends s₁) {env : Env}
    (hc : ¬ Compatible s (s.atLimit env = false) ds) (recursive : Bool) :
    ∃ c s', (construct env (ds.map entry) recursive).Ends s₁ (.error (.eval c)) s' ∧
      (s.atLimit env = false → c.kind = .duplicateAttr) := by
  induction hm generalizing s₁ env recursive with
  | @intro ds literals below ih =>
    rw [← hs.atLimit env] at hc ⊢
    have hlim := s₁.atLimit_entryScope s₁ env recursive
    -- refused at this level, or inside some attribute, which the induction is for
    by_cases hj : ∀ k, Joins s (s₁.atLimit env = false) (under k ds)
    · have hnested : NestedEnds s₁ (s₁.entryScope env recursive) ds (s₁.atLimit env = false)
          (fun k => Compatible s (s₁.atLimit env = false) (inside s (under k ds)))
          (fun e => ∃ c, e = .eval c ∧ (s₁.atLimit env = false → c.kind = .duplicateAttr)) := by
        intro k hk s₂ hs₂
        have hs' := hs.trans hs₂
        have hlim' : s.atLimit (s₁.entryScope env recursive) = s₁.atLimit env :=
          (hs.atLimit _).symm.trans hlim
        rw [(hj k).inside_eq hk hs]
        by_cases hck : Compatible s (s₁.atLimit env = false) (inside s (under k ds))
        · obtain ⟨a, s₃, ha, hmade, -, hst⟩ := construct_compatible hck
            (fun d => path_ne_nil_of_mem_inside) hs' (fun h => hlim'.trans h) false
          exact Or.inl ⟨hck, a, s₃, ha,
            { hmade with laid := hmade.laid.ref hck (.refl s) hs }, hst⟩
        · obtain ⟨c, s₃, h₃, hkind⟩ := ih k ((hj k).opens hk)
            (fun d => path_ne_nil_of_mem_inside) hs' (hlim' ▸ hck) false
          exact Or.inr ⟨_, s₃, h₃, c, rfl, fun h => hkind (hlim'.trans h)⟩
      rcases construct_joins hp (fun k => (hj k).extends hs) id hnested with
        ⟨a, s', -, -, hC, -⟩ | ⟨e, s', he, c, rfl, hk⟩
      · exact absurd (.intro hj hC) hc
      · exact ⟨c, s', he, hk⟩
    · exact construct_refused hp (fun k => (literals k).extends hs) fun hj₁ =>
        hj fun k => (hj₁ k).of_extends hs (literals k)

/-! ### Literals -/

/-- A value is known, and so are the attributes of the sets inside it. -/
inductive Settled (s : Store) : Value → Prop
  | plain {v w : Value} (known : s.resolve v = w) (whnf : w.isWhnf) (notSet : ∀ a, w ≠ .set a) :
      Settled s v
  | set {v : Value} {a : Addr .set} {m : Attrs Value} (known : s.resolve v = .set a)
      (cell : s.sets.get? a = some m) (inner : ∀ p ∈ m.bindings, Settled s p.2) : Settled s v

/-- The values of definitions are literals that are known. -/
def SettledAll (s : Store) (ds : List Definition) : Prop :=
  ∀ d ∈ ds, ∃ v, d.value = .lit v ∧ Settled s v

section Literals

variable {s s' : Store} {ds : List Definition}

theorem Settled.isLiteral {v : Value} (h : Settled s v) : s.IsLiteral (.lit v) := by
  cases h with
  | plain known whnf notSet =>
    exact ⟨_, Store.literal?_eq_some.mpr ⟨v, rfl, known, whnf⟩, fun a ha => absurd ha (notSet a)⟩
  | set known cell inner =>
    refine ⟨_, Store.literal?_eq_some.mpr ⟨v, rfl, known, rfl⟩, fun a ha => ?_⟩
    cases ha
    exact ⟨_, cell⟩

theorem Settled.attr {v : Value} (h : Settled s v) {p : String × Value}
    (hp : p ∈ ((s.literalAttrs? (.lit v)).getD .empty).bindings) : Settled s p.2 := by
  cases h with
  | plain known whnf notSet =>
    have hnone : s.literalAttrs? (.lit v) = none := by
      unfold Store.literalAttrs?
      rw [Store.literal?_eq_some.mpr ⟨v, rfl, known, whnf⟩]
      split
      · rename_i a ha
        exact absurd (Option.some.inj ha) (notSet a)
      · rfl
    rw [hnone] at hp
    cases hp
  | set known cell inner =>
    rw [Store.literalAttrs?_eq_some.mpr
      ⟨_, Store.literal?_eq_some.mpr ⟨v, rfl, known, rfl⟩, cell⟩] at hp
    exact inner p hp

theorem SettledAll.isLiteral (h : SettledAll s ds) {d : Definition} (hd : d ∈ ds) :
    s.IsLiteral d.value := by
  obtain ⟨v, hv, hs⟩ := h d hd
  exact hv ▸ hs.isLiteral

theorem SettledAll.under (h : SettledAll s ds) (k : String) : SettledAll s (under k ds) := by
  intro d hd
  obtain ⟨d', hd', -, hv⟩ := mem_under.mp hd
  rw [hv]
  exact h d' hd'

theorem SettledAll.inside (h : SettledAll s ds) : SettledAll s (inside s ds) := by
  intro d hd
  rcases mem_inside hd with ⟨hd, -⟩ | ⟨d', hd', -, p, hp, rfl⟩
  · exact h d hd
  · obtain ⟨v, hv, hset⟩ := h d' hd'
    rw [hv] at hp
    exact ⟨p.2, rfl, hset.attr hp⟩

/-- Known literals can be merged at every level. There are as many levels as a path has
components. -/
theorem SettledAll.mergeable (h : SettledAll s ds) {n : Nat} (hn : ∀ d ∈ ds, d.path.length ≤ n) :
    Mergeable s ds := by
  -- on a bound of the paths, which are one shorter inside an attribute
  induction n generalizing ds with
  | zero =>
    have hnil : ∀ d ∈ ds, d.path = [] := fun d hd =>
      List.length_eq_zero_iff.mp (Nat.le_zero.mp (hn d hd))
    have hunder : ∀ k, Definition.under k ds = [] := by
      intro k
      refine List.eq_nil_iff_forall_not_mem.mpr fun d hd => ?_
      obtain ⟨d', hd', hp, -⟩ := mem_under.mp hd
      rw [hnil d' hd'] at hp
      cases hp
    refine .intro (fun k => ?_) fun k => ?_
    · rw [hunder k]
      rintro ⟨d, hd, -⟩
      cases hd
    · rw [hunder k]
      rintro ⟨d, hd, -⟩
      cases hd
  | succ n ih =>
    refine .intro (literals_under fun d => h.isLiteral) fun k ho => ?_
    have hlen : ∀ d ∈ Definition.under k ds, d.path.length ≤ n := by
      intro d hd
      obtain ⟨d', hd', hpath, -⟩ := mem_under.mp hd
      have := hn d' hd'
      rw [hpath, List.length_cons] at this
      exact Nat.le_of_succ_le_succ this
    obtain ⟨d₀, hd₀, hne⟩ := ho
    have hpos : 1 ≤ n := Nat.le_trans (List.length_pos_iff.mpr hne) (hlen d₀ hd₀)
    exact ih (h.under k).inside fun d => length_le_of_mem_inside hlen hpos

end Literals

end NixKernel
