import NixKernel.Proofs.Construct.Compatible

/-!
Construction from written-out paths is the construction of a trie. Each path is cut at its first
null. If no whole path leads to another one or past its end, the set has a thunk at the end of each
whole path, a set at every place before that, and nothing else; if one does, plain values that are
no sets are refused.
-/

namespace NixKernel

/-! ### Places in a set -/

/-- The value at a path inside a value, as it is stored. Forced thunks are passed through on the
way. -/
def Store.follow (s : Store) : Value → List String → Option Value
  | v, [] => some v
  | v, k :: p =>
    match s.resolve v with
    | .set a => ((s.attrs a).get? k).bind fun w => s.follow w p
    | _ => none

theorem Store.follow_set {s : Store} {a : Addr .set} {m : Attrs Value}
    (h : s.sets.get? a = some m) (k : String) (p : List String) :
    s.follow (.set a) (k :: p) = (m.get? k).bind fun w => s.follow w p := by
  rw [Store.follow]
  simp only [Store.resolve, Store.attrs, h, Option.getD_some]

/-- Nothing is behind a thunk that has not been forced. -/
theorem Store.follow_unforced {s : Store} {t : Addr .thunk} {env : Env} {e : Expr}
    (h : s.thunks.get? t = some (.unforced env e)) (k : String) (p : List String) :
    s.follow (.thunk t) (k :: p) = none := by
  rw [Store.follow]
  simp only [Store.resolve, Store.forced?, h, Option.getD_none]

namespace Definition

/-! ### Cut paths -/

/-- The names of a path up to its first null. -/
def cut : List (Option String) → List String
  | some x :: p => x :: cut p
  | _ => []

/-- The names of the path of a definition up to its first null. -/
def names (d : Definition) : List String := cut d.path

/-- The path of a definition has no null. -/
def IsWhole (d : Definition) : Prop := none ∉ d.path

/-- A definition is cut, or its path leads neither to the place of the other one nor to one before
it. -/
def Clear (d d' : Definition) : Prop := d.IsWhole → ¬ d.names <+: d'.names

def Apart (d d' : Definition) : Prop := Clear d d' ∧ Clear d' d

instance : DecidableRel Apart := fun d d' =>
  inferInstanceAs (Decidable ((none ∉ d.path → ¬ d.names <+: d'.names) ∧
    (none ∉ d'.path → ¬ d'.names <+: d.names)))

/-- No whole path leads to the place of another definition or to one before it. -/
def Separate (ds : List Definition) : Prop := ds.Pairwise Apart

instance (ds : List Definition) : Decidable (Separate ds) :=
  inferInstanceAs (Decidable (ds.Pairwise Apart))

section Tail

variable {d d' e e' : Definition} {k : String}

theorem names_of_tail (h : d.path = some k :: d'.path) : d.names = k :: d'.names := by
  rw [names, h]
  rfl

theorem isWhole_of_tail (h : d.path = some k :: d'.path) : d.IsWhole ↔ d'.IsWhole := by
  rw [IsWhole, h]
  simp [IsWhole]

theorem apart_of_tail (hd : d.path = some k :: d'.path) (he : e.path = some k :: e'.path) :
    Apart d e ↔ Apart d' e' := by
  simp only [Apart, Clear, isWhole_of_tail hd, isWhole_of_tail he, names_of_tail hd,
    names_of_tail he, List.cons_prefix_cons, true_and]

theorem IsWhole.path_eq_nil (h : d.IsWhole) (hn : d.names = []) : d.path = [] := by
  obtain ⟨path, v⟩ := d
  rcases path with _ | ⟨_ | y, rest⟩
  · rfl
  · exact absurd List.mem_cons_self h
  · cases hn

/-- A name at the head of a cut path is at the head of the path. -/
theorem exists_tail_of_names {x : String} {p : List String} (h : x :: p <+: d.names) :
    ∃ d', d.tail? x = some d' ∧ p <+: d'.names := by
  obtain ⟨path, v⟩ := d
  rcases path with _ | ⟨_ | y, rest⟩
  · simp [names, cut] at h
  · simp [names, cut] at h
  · obtain ⟨rfl, hp⟩ := List.cons_prefix_cons.mp h
    exact ⟨⟨rest, v⟩, tail?_eq_some.mpr ⟨rfl, rfl⟩, hp⟩

/-- Definitions whose rests are clear of each other under every name are so themselves. -/
theorem clear_of_tails (hp : d.path ≠ [])
    (h : ∀ k d' e', d.tail? k = some d' → e.tail? k = some e' → Clear d' e') : Clear d e := by
  intro hw hpre
  obtain ⟨path, v⟩ := d
  rcases path with _ | ⟨_ | k, rest⟩
  · exact hp rfl
  · exact hw List.mem_cons_self
  · obtain ⟨e', he', hpre'⟩ := exists_tail_of_names (x := k) (p := cut rest) hpre
    refine h k ⟨rest, v⟩ e' (tail?_eq_some.mpr ⟨rfl, rfl⟩) he' (fun hmem => hw ?_) hpre'
    exact List.mem_cons_of_mem (some k) hmem

end Tail

/-! ### Separate definitions are compatible -/

section Separate

variable {ds g : List Definition}

theorem Separate.under (h : Separate ds) (k : String) : Separate (under k ds) := by
  refine List.pairwise_filterMap.mpr (h.imp fun {d e} hde d' hd' e' he' => ?_)
  exact (apart_of_tail (tail?_eq_some.mp hd').1 (tail?_eq_some.mp he').1).mp hde

/-- A plain definition leaves no room for another one. -/
theorem Separate.alone (h : Separate g) {d : Definition} (hd : d ∈ g) (hp : d.path = []) :
    alone? g = some d.value := by
  have hw : d.IsWhole := by rw [IsWhole, hp]; exact List.not_mem_nil
  have hn : d.names = [] := by rw [names, hp]; rfl
  obtain ⟨path, v⟩ := d
  cases hp
  obtain ⟨l, r, rfl⟩ := List.append_of_mem hd
  obtain ⟨-, hr, hl⟩ := List.pairwise_append.mp h
  have hl' : l = [] := List.eq_nil_iff_forall_not_mem.mpr fun x hx =>
    (hl x hx _ List.mem_cons_self).2 hw (hn ▸ List.nil_prefix)
  have hr' : r = [] := List.eq_nil_iff_forall_not_mem.mpr fun x hx =>
    ((List.pairwise_cons.mp hr).1 x hx).1 hw (hn ▸ List.nil_prefix)
  rw [hl', hr']
  rfl

theorem Separate.path_ne_nil (h : Separate g) (hn : Nested g) {d : Definition} (hd : d ∈ g) :
    d.path ≠ [] := by
  intro hp
  have := h.alone hd hp
  rw [hn.2] at this
  cases this

theorem Separate.joins (h : Separate g) (s : Store) (may : Prop) : Joins s may g := by
  by_cases hall : ∀ d ∈ g, d.path ≠ []
  · refine Or.inr ⟨fun ht => ?_, fun d hd hp => absurd hp (hall d hd)⟩
    obtain ⟨d, hd, hp⟩ := ht.exists_plain
    exact hall d hd hp
  · push Not at hall
    obtain ⟨d, hd, hp⟩ := hall
    exact Or.inl ⟨d.value, h.alone hd hp⟩

theorem length_le_of_mem_under {n : Nat} (hn : ∀ d ∈ ds, d.path.length ≤ n + 1) {k : String}
    {d : Definition} (hd : d ∈ under k ds) : d.path.length ≤ n := by
  obtain ⟨d', hd', hp, -⟩ := mem_under.mp hd
  have := hn d' hd'
  rw [hp, List.length_cons] at this
  exact Nat.le_of_succ_le_succ this

/-- Separate definitions are compatible, and nothing needs to be forced. -/
theorem Separate.compatible (h : Separate ds) (s : Store) {n : Nat}
    (hn : ∀ d ∈ ds, d.path.length ≤ n) : Compatible s False ds := by
  induction n generalizing ds with
  | zero =>
    refine .intro (fun k => (h.under k).joins s False) fun k hk => absurd ?_ hk.1
    refine List.eq_nil_iff_forall_not_mem.mpr fun d hd => ?_
    obtain ⟨d', hd', hp, -⟩ := mem_under.mp hd
    have := hn d' hd'
    rw [hp] at this
    exact Nat.not_succ_le_zero _ this
  | succ n ih =>
    refine .intro (fun k => (h.under k).joins s False) fun k hk => ?_
    rw [inside_eq_self fun d => (h.under k).path_ne_nil hk]
    exact ih (h.under k) fun d => length_le_of_mem_under hn

/-! ### Without literal sets -/

/-- No value is a literal set that may be taken apart. -/
def NoSets (s : Store) (may : Prop) (ds : List Definition) : Prop :=
  ∀ d ∈ ds, may → s.literalAttrs? d.value = none

variable {s : Store} {may : Prop}

theorem NoSets.under (h : NoSets s may ds) (k : String) : NoSets s may (under k ds) := by
  intro d hd hm
  obtain ⟨d', hd', -, hv⟩ := mem_under.mp hd
  rw [hv]
  exact h d' hd' hm

theorem NoSets.path_ne_nil (h : NoSets s may g) (hj : Joins s may g) (hn : Nested g)
    {d : Definition} (hd : d ∈ g) : d.path ≠ [] := by
  intro hp
  obtain ⟨hm, m, hl⟩ := hj.literal hn hd hp
  rw [h d hd hm] at hl
  cases hl

/-- Without literal sets compatible definitions are separate. -/
theorem Compatible.separate (hc : Compatible s may ds) (hp : ∀ d ∈ ds, d.path ≠ [])
    (hset : NoSets s may ds) : Separate ds := by
  induction hc with
  | @intro ds joins nested ih =>
    have hunder : ∀ k, Separate (Definition.under k ds) := by
      intro k
      rcases Gathered.cases_under (Definition.under k ds) with hk | ⟨e, hk⟩ | hk
      · rw [hk]
        exact List.Pairwise.nil
      · rw [alone?_eq_some.mp hk]
        exact List.pairwise_singleton _ _
      · have hne := fun d => (hset.under k).path_ne_nil (joins k) hk (d := d)
        have := ih k hk
        rw [inside_eq_self hne] at this
        exact this hne (hset.under k)
    refine List.pairwise_iff_forall_sublist.mpr fun {d e} hsub => ?_
    have htails : ∀ k d' e', d.tail? k = some d' → e.tail? k = some e' → Apart d' e' :=
      fun k d' e' hd he => List.pairwise_iff_forall_sublist.mp
        (List.pairwise_filterMap.mp (hunder k)) hsub d' hd e' he
    refine ⟨clear_of_tails (hp d (hsub.subset (by simp))) fun k d' e' hd he => ?_,
      clear_of_tails (hp e (hsub.subset (by simp))) fun k e' d' he hd => ?_⟩
    · exact (htails k d' e' hd he).1
    · exact (htails k d' e' hd he).2

end Separate

/-! ### The places of a set that is laid out -/

section Places

variable {ref s : Store} {may : Prop} {env : Env} {ds : List Definition} {a : Addr .set}

/-- A whole path leads to a thunk of its value, and any other part of a path to a set. -/
theorem Laid.follow_prefix (hc : Compatible ref may ds) (hset : NoSets ref may ds)
    (hl : Laid ref s env ds a) {d : Definition} (hd : d ∈ ds) {p : List String} (hp : p ≠ [])
    (hpre : p <+: d.names) :
    (d.IsWhole ∧ p = d.names ∧ ∃ t, s.follow (.set a) p = some (.thunk t) ∧
      s.thunks.get? t = some (.unforced env d.value)) ∨
    (¬ (d.IsWhole ∧ p = d.names) ∧ ∃ a', s.follow (.set a) p = some (.set a')) := by
  induction hc generalizing a p d with
  | @intro ds joins nested ih =>
    obtain ⟨sub, cell, absent, leaf, node, below⟩ := hl
    obtain ⟨k, p, rfl⟩ := List.exists_cons_of_ne_nil hp
    obtain ⟨d', hd', hpre'⟩ := exists_tail_of_names hpre
    have hmem : d' ∈ under k ds := List.mem_filterMap.mpr ⟨d, hd, hd'⟩
    obtain ⟨hpath, hval⟩ := tail?_eq_some.mp hd'
    rw [Store.follow_set cell, isWhole_of_tail hpath, names_of_tail hpath]
    -- what stands under the first name decides: nothing, one value, or definitions inside it
    rcases Gathered.cases_under (under k ds) with hk | ⟨e, hk⟩ | hk
    · rw [hk] at hmem
      cases hmem
    · obtain ⟨t, ht, hc⟩ := leaf k e hk
      rw [alone?_eq_some.mp hk, List.mem_singleton] at hmem
      subst hmem
      obtain rfl := List.prefix_nil.mp hpre'
      rw [ht]
      exact Or.inl ⟨List.not_mem_nil, rfl, t, rfl, hval ▸ hc⟩
    · have hne := fun x => (hset.under k).path_ne_nil (joins k) hk (d := x)
      rw [node k hk, Option.bind_some]
      by_cases hp' : p = []
      · subst hp'
        refine Or.inr ⟨fun ⟨hw, hnames⟩ => hne d' hmem (hw.path_eq_nil ?_), sub k, rfl⟩
        exact ((List.cons.inj hnames).2).symm
      · have hin := inside_eq_self (s := ref) hne
        rcases ih k hk (hin.symm ▸ hset.under k) (below k hk) (hin.symm ▸ hmem) hp' hpre' with
          ⟨hw, rfl, ht⟩ | ⟨hn, ha⟩
        · exact Or.inl ⟨hw, rfl, hval ▸ ht⟩
        · exact Or.inr ⟨fun ⟨hw, hnames⟩ => hn ⟨hw, (List.cons.inj hnames).2⟩, ha⟩

/-- Only the parts of the paths lead anywhere. -/
theorem Laid.exists_prefix (hc : Compatible ref may ds) (hset : NoSets ref may ds)
    (hl : Laid ref s env ds a) {p : List String} {v : Value} (hp : p ≠ [])
    (hv : s.follow (.set a) p = some v) : ∃ d ∈ ds, p <+: d.names := by
  induction hc generalizing a p with
  | @intro ds joins nested ih =>
    obtain ⟨sub, cell, absent, leaf, node, below⟩ := hl
    obtain ⟨k, p, rfl⟩ := List.exists_cons_of_ne_nil hp
    rw [Store.follow_set cell] at hv
    -- a definition inside `k` whose names go on as the path does
    suffices h : ∃ d' ∈ under k ds, p <+: d'.names by
      obtain ⟨d', hd', hpre⟩ := h
      obtain ⟨d, hd, hpath, -⟩ := mem_under.mp hd'
      exact ⟨d, hd, names_of_tail hpath ▸ List.cons_prefix_cons.mpr ⟨rfl, hpre⟩⟩
    rcases Gathered.cases_under (under k ds) with hk | ⟨e, hk⟩ | hk
    · rw [absent k hk] at hv
      cases hv
    · obtain ⟨t, ht, hc⟩ := leaf k e hk
      rw [ht, Option.bind_some] at hv
      rw [alone?_eq_some.mp hk]
      refine ⟨_, List.mem_singleton_self _, ?_⟩
      cases p with
      | nil => exact List.nil_prefix
      | cons j p =>
        rw [Store.follow_unforced hc] at hv
        cases hv
    · rw [node k hk, Option.bind_some] at hv
      by_cases hp' : p = []
      · subst hp'
        obtain ⟨d', hd'⟩ := List.exists_mem_of_ne_nil _ hk.1
        exact ⟨d', hd', List.nil_prefix⟩
      · have hin := inside_eq_self (s := ref)
          fun x => (hset.under k).path_ne_nil (joins k) hk (d := x)
        obtain ⟨d', hd', hpre⟩ := ih k hk (hin.symm ▸ hset.under k) (below k hk) hp' hv
        exact ⟨d', hin ▸ hd', hpre⟩

end Places

end Definition

open Definition

/-- **Construction from written-out paths is the construction of a trie.** Separate definitions are
built without running any value: whole paths lead to unforced thunks of their values, cut paths and
the places on the way to sets, and nothing else is there. Definitions that are not separate are
refused if their values are literals other than sets and thunks may be forced. -/
theorem construct_trie (s : Store) (env : Env) (ds : List Definition) (recursive : Bool)
    (hp : ∀ d ∈ ds, d.path ≠ []) :
    (Separate ds →
      ∃ a s', (Comp.construct env (ds.map entry) recursive).Ends s (.ok a) s' ∧
        s.Extends s' ∧ s'.started = s.started ∧
        (∀ d ∈ ds, d.IsWhole → ∃ t, s'.follow (.set a) d.names = some (.thunk t) ∧
          s'.thunks.get? t = some (.unforced (s.entryScope env recursive) d.value)) ∧
        (∀ d ∈ ds, ¬ d.IsWhole → d.names ≠ [] →
          ∃ a', s'.follow (.set a) d.names = some (.set a')) ∧
        (∀ d ∈ ds, ∀ p, p ≠ [] → p <+: d.names → p ≠ d.names →
          ∃ a', s'.follow (.set a) p = some (.set a')) ∧
        ∀ p v, p ≠ [] → s'.follow (.set a) p = some v → ∃ d ∈ ds, p <+: d.names) ∧
    (¬ Separate ds → (∀ d ∈ ds, ∃ w, s.literal? d.value = some w ∧ ∀ a, w ≠ .set a) →
      s.atLimit env = false →
      ∃ c s', (Comp.construct env (ds.map entry) recursive).Ends s (.error (.eval c)) s' ∧
        c.kind = .duplicateAttr) := by
  obtain ⟨n, hn⟩ := exists_length_le ds
  constructor
  · intro hsep
    -- separate paths go together even if no thunk may be forced, so nothing is merged
    have hc : Compatible s False ds := hsep.compatible s hn
    have hset : NoSets s False ds := fun d _ h => h.elim
    obtain ⟨a, s', ha, ⟨hs', hl, -⟩, -, hst⟩ :=
      Comp.construct_compatible hc hp (.refl s) (fun h => h.elim) recursive
    refine ⟨a, s', ha, hs', hst id, fun d hd hw => ?_, fun d hd hw hne => ?_,
      fun d hd p hne hpre hp' => ?_, fun p v hne hv => hl.exists_prefix hc hset hne hv⟩
    · have hne : d.names ≠ [] := fun h => hp d hd (hw.path_eq_nil h)
      rcases hl.follow_prefix hc hset hd hne List.prefix_rfl with ⟨-, -, ht⟩ | ⟨hn, -⟩
      · exact ht
      · exact absurd ⟨hw, rfl⟩ hn
    · rcases hl.follow_prefix hc hset hd hne List.prefix_rfl with ⟨hw', -⟩ | ⟨-, ht⟩
      · exact absurd hw' hw
      · exact ht
    · rcases hl.follow_prefix hc hset hd hne hpre with ⟨-, h, -⟩ | ⟨-, ht⟩
      · exact absurd h hp'
      · exact ht
  · intro hsep hval hlim
    -- no value is a set, so what is not separate is not compatible either
    have hall : SettledAll s ds := by
      intro d hd
      obtain ⟨w, hw, hne⟩ := hval d hd
      obtain ⟨v, hv, hr, hwhnf⟩ := Store.literal?_eq_some.mp hw
      exact ⟨v, hv, .plain hr hwhnf hne⟩
    have hset : NoSets s (s.atLimit env = false) ds := by
      intro d hd _
      obtain ⟨w, hw, hne⟩ := hval d hd
      cases hm : s.literalAttrs? d.value with
      | none => rfl
      | some m =>
        obtain ⟨a, ha, -⟩ := Store.literalAttrs?_eq_some.mp hm
        exact absurd (Option.some.inj (hw.symm.trans ha)) (hne a)
    obtain ⟨c, s', h, hk⟩ := Comp.construct_incompatible (hall.mergeable hn) hp (.refl s)
      (fun hc => hsep (hc.separate hp hset)) recursive
    exact ⟨c, s', h, hk hlim⟩

/-- Two paths that part ways and one that is cut are built, and a path past a plain value is
refused. -/
theorem construct_trie_cases :
    (∃ a s', (Comp.construct .empty [⟨[.string "a", .string "b"], .nothing⟩,
        ⟨[.string "a", .string "c"], .var "a"⟩, ⟨[.string "d", .lit .null], .nothing⟩] true).Ends
        .initial (.ok a) s' ∧ s'.started = [] ∧
        ∃ t, s'.follow (.set a) ["a", "c"] = some (.thunk t) ∧
          s'.thunks.get? t = some (.unforced ⟨none, [.builder ⟨0⟩], []⟩ (.var "a"))) ∧
    ∃ c s', (Comp.construct .empty [⟨[.string "a"], .lit .null⟩,
        ⟨[.string "a", .string "b"], .string "x"⟩] false).Ends .initial (.error (.eval c)) s' ∧
      c.kind = .duplicateAttr := by
  refine ⟨?_, ?_⟩
  · obtain ⟨a, s', h, -, hst, hw, -⟩ := (construct_trie .initial .empty
      [⟨[some "a", some "b"], .nothing⟩, ⟨[some "a", some "c"], .var "a"⟩,
        ⟨[some "d", none], .nothing⟩] true (by simp)).1 (by decide)
    exact ⟨a, s', h, hst, hw ⟨[some "a", some "c"], .var "a"⟩ (by simp) (by simp [IsWhole])⟩
  · refine (construct_trie .initial .empty [⟨[some "a"], .lit .null⟩,
      ⟨[some "a", some "b"], .string "x"⟩] false (by simp)).2 (by decide) ?_ rfl
    intro d hd
    rcases List.mem_pair.mp hd with rfl | rfl
    · exact ⟨.null, rfl, by simp⟩
    · exact ⟨.str "x", rfl, by simp⟩

end NixKernel
