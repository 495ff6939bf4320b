import NixKernel.Proofs.Builder.Slots
import NixKernel.Proofs.Construct.Force

/-!
Taking up definitions one after the other. What is known of the attributes after some definitions
depends on these definitions alone: an attribute that is defined once and plainly has an unforced
thunk, and the definitions of any other are gathered in their order.
-/

namespace NixKernel

/-! ### Slots by name -/

namespace Store

variable {s₀ s : Store} {b : Addr .builder}

theorem Extends.setSlot (h : s₀.Extends s) (hb : s₀.builders.get? b = none) (k : String)
    (x : Slot) (isNew : Bool) : s₀.Extends (s.setSlot b k x isNew) := h.modifyBuilder hb _

theorem Extends.settle (h : s₀.Extends s) {t : Addr .thunk} (ht : s₀.thunks.get? t = none)
    (w : Value) : s₀.Extends (s.settle t w) := (h.modifyThunk ht _).record (.force t)

end Store

namespace Definition

/-! ### What is known after some definitions -/

/-- What the definitions `ds` make known of the attributes of a set under construction, which was
begun in the store `s₀`. -/
structure Gathered (s₀ : Store) (env : Env) (ds : List Definition)
    (slots : List (String × Slot)) (s : Store) : Prop where
  old : s₀.Extends s
  names : (slots.map Prod.fst).Nodup
  absent : ∀ k, under k ds = [] → slots.lookup k = none
  leaf : ∀ k e, alone? (under k ds) = some e → ∃ t, slots.lookup k = some (.leaf (.thunk t)) ∧
    s.thunks.get? t = some (.unforced env e) ∧ s₀.thunks.get? t = none
  tree : ∀ k, Nested (under k ds) →
    slots.lookup k = some (.tree ((inside s₀ (under k ds)).map entry))
  apart : ∀ k k' t, slots.lookup k = some (.leaf (.thunk t)) →
    slots.lookup k' = some (.leaf (.thunk t)) → k = k'

/-- A definition of another attribute says nothing about this one. -/
theorem under_append_of_ne {k k' : String} {rest : List (Option String)} {d : Definition}
    (hd : d.path = some k :: rest) (hk : k' ≠ k) (ds : List Definition) :
    under k' (ds ++ [d]) = under k' ds := by
  have ht : d.tail? k' = none := by
    simp only [tail?, hd]
    exact if_neg (Ne.symm hk)
  rw [under_append, under_singleton, ht]
  exact List.append_nil _

theorem under_append_self {k : String} {rest : List (Option String)} {d : Definition}
    (hd : d.path = some k :: rest) (ds : List Definition) :
    under k (ds ++ [d]) = under k ds ++ [⟨rest, d.value⟩] := by
  have ht : d.tail? k = some ⟨rest, d.value⟩ := by simp [tail?, hd]
  rw [under_append, under_singleton, ht]
  rfl

/-- A definition whose path starts with null defines nothing. -/
theorem under_append_null {rest : List (Option String)} {d : Definition}
    (hd : d.path = none :: rest) (k : String) (ds : List Definition) :
    under k (ds ++ [d]) = under k ds := by
  have ht : d.tail? k = none := by simp [tail?, hd]
  rw [under_append, under_singleton, ht]
  exact List.append_nil _

namespace Gathered

variable {s₀ s s' : Store} {env : Env} {ds : List Definition} {slots : List (String × Slot)}

theorem nil (h : s₀.Extends s) : Gathered s₀ env [] [] s where
  old := h
  names := List.nodup_nil
  absent _ _ := rfl
  leaf _ _ h := nomatch h
  tree _ h := absurd rfl h.1
  apart _ _ _ h := nomatch h

/-- The slots are those of the definitions with a name; the others say nothing. -/
theorem null (h : Gathered s₀ env ds slots s) {rest : List (Option String)} {d : Definition}
    (hd : d.path = none :: rest) : Gathered s₀ env (ds ++ [d]) slots s where
  old := h.old
  names := h.names
  absent k := by rw [under_append_null hd]; exact h.absent k
  leaf k := by rw [under_append_null hd]; exact h.leaf k
  tree k := by rw [under_append_null hd]; exact h.tree k
  apart := h.apart

/-- Other changes of the store do not matter as long as the thunks of the slots are kept. -/
theorem move (h : Gathered s₀ env ds slots s) (old : s₀.Extends s') (ht : s'.thunks = s.thunks) :
    Gathered s₀ env ds slots s' :=
  { h with old := old, leaf := fun k e he => ht ▸ h.leaf k e he }

/-- Every attribute is absent, alone or nested. -/
theorem cases_under (g : List Definition) : g = [] ∨ (∃ e, alone? g = some e) ∨ Nested g := by
  by_cases hg : g = []
  · exact Or.inl hg
  · cases h : alone? g with
    | none => exact Or.inr (Or.inr ⟨hg, h⟩)
    | some e => exact Or.inr (Or.inl ⟨e, rfl⟩)

/-- A leaf is there for an attribute that is defined alone. -/
theorem of_leaf (h : Gathered s₀ env ds slots s) {k : String} {v : Value}
    (hk : slots.lookup k = some (.leaf v)) : ∃ t e, v = .thunk t ∧
      alone? (under k ds) = some e ∧ s.thunks.get? t = some (.unforced env e) ∧
        s₀.thunks.get? t = none := by
  rcases cases_under (under k ds) with hu | ⟨e, hu⟩ | hu
  · rw [h.absent k hu] at hk
    cases hk
  · obtain ⟨t, ht, hc, hn⟩ := h.leaf k e hu
    rw [ht] at hk
    cases hk
    exact ⟨t, e, rfl, hu, hc, hn⟩
  · rw [h.tree k hu] at hk
    cases hk

/-- A tree is there for an attribute that is nested. -/
theorem of_tree (h : Gathered s₀ env ds slots s) {k : String} {es : List Entry}
    (hk : slots.lookup k = some (.tree es)) : Nested (under k ds) := by
  rcases cases_under (under k ds) with hu | ⟨e, hu⟩ | hu
  · rw [h.absent k hu] at hk
    cases hk
  · obtain ⟨t, ht, -⟩ := h.leaf k e hu
    rw [ht] at hk
    cases hk
  · exact hu

/-- The slot of a name is set, and the other slots stay as they are. -/
theorem put (h : Gathered s₀ env ds slots s) {k : String} {d : Definition}
    {rest : List (Option String)} (hd : d.path = some k :: rest) {x : Slot} (old : s₀.Extends s')
    (hs : ∀ k' ≠ k, ∀ t, slots.lookup k' = some (.leaf (.thunk t)) →
      s'.thunks.get? t = s.thunks.get? t)
    (hne : under k (ds ++ [d]) ≠ [])
    (hleaf : ∀ e, alone? (under k (ds ++ [d])) = some e → ∃ t, x = .leaf (.thunk t) ∧
      s'.thunks.get? t = some (.unforced env e) ∧ s₀.thunks.get? t = none)
    (htree : Nested (under k (ds ++ [d])) →
      x = .tree ((inside s₀ (under k (ds ++ [d]))).map entry))
    (hapart : ∀ t, x = .leaf (.thunk t) → ∀ k' ≠ k, slots.lookup k' ≠ some (.leaf (.thunk t))) :
    Gathered s₀ env (ds ++ [d]) (setKey k x slots) s' := by
  -- in every part the name that is set is told apart from the others
  refine ⟨old, nodup_setKey h.names, fun k' hk' => ?_, fun k' e he => ?_, fun k' hk' => ?_,
    fun k₁ k₂ t h₁ h₂ => ?_⟩
  · by_cases hkk : k' = k
    · subst hkk
      exact absurd hk' hne
    · rw [lookup_setKey, if_neg hkk]
      rw [under_append_of_ne hd hkk] at hk'
      exact h.absent k' hk'
  · rw [lookup_setKey]
    by_cases hkk : k' = k
    · subst hkk
      obtain ⟨t, rfl, ht⟩ := hleaf e he
      exact ⟨t, if_pos rfl, ht⟩
    · rw [if_neg hkk]
      rw [under_append_of_ne hd hkk] at he
      obtain ⟨t, hl, hc, hf⟩ := h.leaf k' e he
      exact ⟨t, hl, (hs k' hkk t hl).trans hc, hf⟩
  · rw [lookup_setKey]
    by_cases hkk : k' = k
    · subst hkk
      rw [if_pos rfl, htree hk']
    · rw [if_neg hkk]
      rw [under_append_of_ne hd hkk] at hk' ⊢
      exact h.tree k' hk'
  · rw [lookup_setKey] at h₁ h₂
    split at h₁ <;> rename_i hk₁ <;> split at h₂ <;> rename_i hk₂
    · rw [hk₁, hk₂]
    · exact absurd h₂ (hapart t (Option.some.inj h₁) k₂ hk₂)
    · exact absurd h₁ (hapart t (Option.some.inj h₂) k₁ hk₁)
    · exact h.apart k₁ k₂ t h₁ h₂

/-- The slot of a name becomes a leaf. -/
theorem putLeaf (h : Gathered s₀ env ds slots s) {k : String} {d : Definition}
    (hd : d.path = [some k]) (hk : under k ds = []) {t : Addr .thunk} (old : s₀.Extends s')
    (ht : s'.thunks.get? t = some (.unforced env d.value)) (hn : s.thunks.get? t = none)
    (hs : ∀ t' c, s.thunks.get? t' = some c → s'.thunks.get? t' = some c) :
    Gathered s₀ env (ds ++ [d]) (setKey k (.leaf (.thunk t)) slots) s' := by
  have hu : under k (ds ++ [d]) = [⟨[], d.value⟩] := by rw [under_append_self hd, hk]; rfl
  have hheld : ∀ {k' t'}, slots.lookup k' = some (.leaf (.thunk t')) →
      ∃ c, s.thunks.get? t' = some c := by
    intro k' t' hl
    obtain ⟨t₀, e, hv, -, hc, -⟩ := h.of_leaf hl
    cases hv
    exact ⟨_, hc⟩
  refine h.put hd old (fun k' _ t' hl => ?_) (by rw [hu]; exact List.cons_ne_nil _ _)
    (fun e he => ?_) (fun hn => ?_) fun t' hx k' _ hl => ?_
  · obtain ⟨c, hc⟩ := hheld hl
    rw [hs t' c hc, hc]
  · rw [hu, alone?_eq_some] at he
    cases he
    refine ⟨t, rfl, ht, ?_⟩
    cases hc : s₀.thunks.get? t with
    | none => rfl
    | some c => rw [h.old.thunk hc] at hn; cases hn
  · rw [hu] at hn
    cases hn.2
  · cases hx
    obtain ⟨c, hc⟩ := hheld hl
    rw [hn] at hc
    cases hc

/-- The slot of a name becomes a tree. -/
theorem putTree (h : Gathered s₀ env ds slots s) {k : String} {d : Definition}
    {rest : List (Option String)} (hd : d.path = some k :: rest)
    (hk : Nested (under k (ds ++ [d]))) (old : s₀.Extends s')
    (hs : ∀ k' ≠ k, ∀ t, slots.lookup k' = some (.leaf (.thunk t)) →
      s'.thunks.get? t = s.thunks.get? t) :
    Gathered s₀ env (ds ++ [d])
      (setKey k (.tree ((inside s₀ (under k (ds ++ [d]))).map entry)) slots) s' := by
  refine h.put hd old hs hk.1 (fun e he => ?_) (fun _ => rfl) fun _ hx => nomatch hx
  rw [hk.2] at he
  cases he

end Gathered

end Definition

/-! ### Taking up one definition -/

namespace Comp

open Definition

variable {s s' : Store} {b : Addr .builder} {env : Env} {d : Definition}

/-- A written-out component is evaluated without any effect. -/
theorem forceName_component (env : Env) (c : Option String) :
    ∃ v, (eval env (component c)).Ends s (.ok v) s ∧ (forceName v).Ends s (.ok c) s := by
  cases c with
  | none => exact ⟨.null, eval_literal env _, ends_pure.mpr ⟨rfl, rfl⟩⟩
  | some x => exact ⟨.str x, eval_literal env _, ends_pure.mpr ⟨rfl, rfl⟩⟩

/-- A definition whose path starts with null is passed over. -/
theorem define_null {rest : List (Option String)} (hd : d.path = none :: rest) :
    (define b env d.entry).Ends s (.ok ()) s := by
  obtain ⟨v, hv, hn⟩ := forceName_component (s := s) env none
  simp only [define, entry, hd, List.map_cons]
  rw [hv.bind_iff, hn.bind_iff]
  exact ends_pure.mpr ⟨rfl, rfl⟩

/-- A definition of a name goes into the slot of that name. -/
theorem define_name {k : String} {rest : List (Option String)} (hd : d.path = some k :: rest)
    {r : Except Error Unit} :
    (define b env d.entry).Ends s r s' ↔
      (do
        let new ← definition env (rest.map component) d.value
        match ← slot b k with
        | none => perform (.setSlot b k new true)
        | some old => merge b k old new).Ends s r s' := by
  obtain ⟨v, hv, hn⟩ := forceName_component (s := s) env (some k)
  simp only [define, entry, hd, List.map_cons]
  exact hv.bind_iff.trans hn.bind_iff

/-- What is known of an attribute is set, its name being new just if nothing was known of it. -/
theorem get?_setSlot {c : Builder} (hb : s.builders.get? b = some c)
    (ho : c.order = c.slots.map Prod.fst) {k : String} (x : Slot) {isNew : Bool}
    (hn : isNew = (c.slots.lookup k).isNone) :
    (s.setSlot b k x isNew).builders.get? b = some (c.withSlots (setKey k x c.slots)) := by
  rw [Store.get?_setSlot hb, Builder.put_eq ho hn]

theorem slot_ends {c : Builder} (hb : s.builders.get? b = some c) (k : String) :
    (slot b k).Ends s (.ok (c.slots.lookup k)) s := by
  refine (perform_ends (.builder b) s).bind (ends_pure.mpr ⟨?_, rfl⟩)
  simp only [Action.perform, hb, Option.bind_some]

section TakeApart

variable {t : Addr .thunk} {e : Expr} (k : String)
  (ht : s.thunks.get? t = some (.unforced env e))

include ht

/-- A thunk of a literal set is taken apart into its attributes. -/
theorem takeApart_set (hl : s.atLimit env = false) {m : Attrs Value}
    (he : s.literalAttrs? e = some m) :
    ∃ w, (takeApart k (.thunk t)).Ends s (.ok ((ofAttrs m).map entry)) (s.settle t w) := by
  obtain ⟨a, ha, hm⟩ := Store.literalAttrs?_eq_some.mp he
  have hattrs : (attrs a).Ends (s.settle t (.set a)) (.ok m) (s.settle t (.set a)) :=
    ⟨0, runWith_attrs_ok.mpr ⟨hm, rfl⟩⟩
  refine ⟨.set a, (force_literal ht hl ha).bind (hattrs.bind (ends_pure.mpr ⟨?_, rfl⟩))⟩
  rw [entry_ofAttrs]

/-- A thunk of a literal that is no set, or that cannot be forced, is not taken apart. -/
theorem takeApart_fails {s₀ : Store} (old : s₀.Extends s) (he : s₀.IsLiteral e)
    (hn : s₀.atLimit env = false → ¬ ∃ m, s₀.literalAttrs? e = some m) :
    ∃ c s', (takeApart k (.thunk t)).Ends s (.error (.eval c)) s' ∧
      (s₀.atLimit env = false → c.kind = .duplicateAttr) := by
  rw [← old.atLimit env] at hn ⊢
  cases hl : s.atLimit env with
  | true => exact ⟨.depthLimit, s, (force_at_limit ht hl).bind_error, fun h => nomatch h⟩
  | false =>
    obtain ⟨w, hw, hs⟩ := he.literalAttrs?.resolve_left (hn hl)
    refine ⟨.duplicateTyped k w.typeName, s.settle t w,
      (force_literal ht hl (old.literal? hw)).bind ?_, fun _ => rfl⟩
    cases w with
    | set a => exact absurd rfl (hs a)
    | _ => exact ends_refuse.mpr ⟨rfl, rfl⟩

end TakeApart

theorem definition_plain (s : Store) (env : Env) (v : Expr) :
    (definition env ([].map component) v).Ends s (.ok (.leaf (.thunk s.thunks.next)))
      (s.newThunk env v).2 :=
  ((perform_ends (.newThunk env v) s).bind (ends_pure.mpr ⟨rfl, rfl⟩)).bind
    (ends_pure.mpr ⟨rfl, rfl⟩)

theorem definition_nested (s : Store) (env : Env) {rest : List (Option String)} (h : rest ≠ [])
    (v : Expr) :
    (definition env (rest.map component) v).Ends s
      (.ok (.tree [entry ⟨rest, v⟩])) s := by
  cases rest with
  | nil => exact absurd rfl h
  | cons c rest => exact ends_pure.mpr ⟨rfl, rfl⟩

theorem collect_tree {c : Builder} {k : String} {old : List Entry}
    (hb : s.builders.get? b = some c) (hk : c.slots.lookup k = some (.tree old))
    (entries : List Entry) :
    (collect b k entries).Ends s (.ok ()) (s.setSlot b k (.tree (old ++ entries)) false) := by
  have hs := slot_ends hb k
  rw [hk] at hs
  exact hs.bind (ends_perform.mpr ⟨rfl, rfl⟩)

section Joins

variable {s₀ : Store} {may : Prop} {c : Builder} {ds : List Definition} {k : String}
  (hb : s.builders.get? b = some c) (ho : c.order = c.slots.map Prod.fst)
  (hb₀ : s₀.builders.get? b = none) (h : Gathered s₀ env ds c.slots s)
  (hmay : may → s₀.atLimit env = false)

include hb ho hb₀ h hmay

/-- A plain definition that goes together with those before it is taken up. -/
theorem define_plain (hp : d.path = [some k]) (hj : Joins s₀ may (under k (ds ++ [d]))) :
    ∃ slots s', (define b env d.entry).Ends s (.ok ()) s' ∧
      Gathered s₀ env (ds ++ [d]) slots s' ∧
      s'.builders.get? b = some (c.withSlots slots) ∧ (¬ may → s'.started = s.started) := by
  have hu := under_append_self hp ds
  have hnew := definition_plain s env d.value
  have hs₁ : s₀.Extends (s.newThunk env d.value).2 := h.old.newThunk env d.value
  have hb₁ : (s.newThunk env d.value).2.builders.get? b = some c := hb
  have ht₁ : (s.newThunk env d.value).2.thunks.get? s.thunks.next =
      some (.unforced env d.value) := Heap.get?_push_next _ _
  have hslot := slot_ends hb₁ k
  simp only [define_name hp]
  rcases Gathered.cases_under (under k ds) with hk | ⟨e, hk⟩ | hk
  · rw [h.absent k hk] at hslot
    refine ⟨_, _, hnew.bind (hslot.bind (perform_ends _ _)), ?_,
      get?_setSlot hb₁ ho _ (by rw [h.absent k hk]; rfl), fun _ => rfl⟩
    exact h.putLeaf hp hk (hs₁.setSlot hb₀ k _ _) ht₁ (Heap.get?_next _)
      fun t' c' hc => Heap.get?_push_of_some hc
  · -- two plain definitions do not go together
    rw [hu, alone?_eq_some.mp hk] at hj
    rcases hj with ⟨e', he'⟩ | ⟨ht, -⟩
    · cases he'
    · exact absurd trivial ht
  · have hn : Nested (under k (ds ++ [d])) := hu ▸ nested_append hk.1 _
    obtain ⟨hm, m, hl⟩ := hj.literal hn (d := ⟨[], d.value⟩) (by rw [hu]; simp) rfl
    obtain ⟨w, htake⟩ := takeApart_set k ht₁ ((hs₁.atLimit env).trans (hmay hm))
      (hs₁.literalAttrs? hl)
    have hfresh : s₀.thunks.get? s.thunks.next = none := by
      cases hc : s₀.thunks.get? s.thunks.next with
      | none => rfl
      | some x => exact absurd rfl (Heap.get?_ne_next (h.old.thunk hc))
    have hb₂ : ((s.newThunk env d.value).2.settle s.thunks.next w).builders.get? b = some c := hb
    rw [h.tree k hk] at hslot
    refine ⟨_, _, hnew.bind (hslot.bind (htake.bind (collect_tree hb₂ (h.tree k hk) _))), ?_,
      get?_setSlot hb₂ ho _ (by rw [h.tree k hk]; rfl), fun hm' => absurd hm hm'⟩
    have hin : inside s₀ (under k (ds ++ [d])) = inside s₀ (under k ds) ++ ofAttrs m := by
      rw [hu, inside_append, inside_singleton, opened_plain hl]
    rw [← List.map_append, ← hin]
    refine h.putTree hp hn ((hs₁.settle hfresh w).setSlot hb₀ k _ _) fun k' _ t' ht' => ?_
    obtain ⟨t₀, e, hv, -, hc, -⟩ := h.of_leaf ht'
    cases hv
    rw [hc]
    refine (Heap.get?_modify ..).trans ?_
    rw [if_neg (Ne.symm (Heap.get?_ne_next hc))]
    exact Heap.get?_push_of_some hc

/-- A definition inside an attribute that goes together with those before it is taken up. -/
theorem define_nested {rest : List (Option String)} (hp : d.path = some k :: rest)
    (hr : rest ≠ []) (hj : Joins s₀ may (under k (ds ++ [d]))) :
    ∃ slots s', (define b env d.entry).Ends s (.ok ()) s' ∧
      Gathered s₀ env (ds ++ [d]) slots s' ∧
      s'.builders.get? b = some (c.withSlots slots) ∧ (¬ may → s'.started = s.started) := by
  have hu := under_append_self hp ds
  have hnew := definition_nested s env hr d.value
  have hslot := slot_ends hb k
  have hopen : opened s₀ ⟨rest, d.value⟩ = [⟨rest, d.value⟩] := opened_nested hr
  have hin : inside s₀ (under k (ds ++ [d])) = inside s₀ (under k ds) ++ [⟨rest, d.value⟩] := by
    rw [hu, inside_append, inside_singleton, hopen]
  simp only [define_name hp]
  -- the attribute is new, a leaf that is taken apart, or a tree that grows
  rcases Gathered.cases_under (under k ds) with hk | ⟨e, hk⟩ | hk
  · have hn : Nested (under k (ds ++ [d])) := by
      rw [hu, hk, nested_iff]
      exact ⟨List.cons_ne_nil _ _, fun e he => hr (by cases he; rfl)⟩
    rw [h.absent k hk] at hslot
    refine ⟨_, _, hnew.bind (hslot.bind (perform_ends _ _)), ?_,
      get?_setSlot hb ho _ (by rw [h.absent k hk]; rfl), fun _ => rfl⟩
    have := h.putTree hp hn (h.old.setSlot hb₀ k (.tree [entry ⟨rest, d.value⟩]) true)
      fun _ _ _ _ => rfl
    rwa [hin, hk] at this
  · have hn : Nested (under k (ds ++ [d])) := by
      refine hu ▸ nested_append (fun h => ?_) _
      rw [h] at hk
      cases hk
    obtain ⟨hm, m, hl⟩ := hj.literal hn (d := ⟨[], e⟩)
      (by rw [hu, alone?_eq_some.mp hk]; simp) rfl
    obtain ⟨t, hleaf, ht, hfresh⟩ := h.leaf k e hk
    obtain ⟨w, htake⟩ := takeApart_set k ht ((h.old.atLimit env).trans (hmay hm))
      (h.old.literalAttrs? hl)
    have hb₂ : (s.settle t w).builders.get? b = some c := hb
    rw [hleaf] at hslot
    refine ⟨_, _, hnew.bind (hslot.bind (htake.bind (perform_ends _ _))), ?_,
      get?_setSlot hb₂ ho _ (by rw [hleaf]; rfl), fun hm' => absurd hm hm'⟩
    have hin' : inside s₀ (under k ds) = ofAttrs m := by
      rw [alone?_eq_some.mp hk, inside_singleton, opened_plain hl]
    rw [show [entry ⟨rest, d.value⟩] = [(⟨rest, d.value⟩ : Definition)].map entry from rfl,
      ← List.map_append, ← hin', ← hin]
    refine h.putTree hp hn ((h.old.settle hfresh w).setSlot hb₀ k _ _) fun k' hk' t' ht' => ?_
    refine (Heap.get?_modify ..).trans (if_neg ?_)
    rintro rfl
    exact hk' (h.apart k' k t ht' hleaf)
  · have hn : Nested (under k (ds ++ [d])) := hu ▸ nested_append hk.1 _
    rw [h.tree k hk] at hslot
    refine ⟨_, _, hnew.bind (hslot.bind (collect_tree hb (h.tree k hk) _)), ?_,
      get?_setSlot hb ho _ (by rw [h.tree k hk]; rfl), fun _ => rfl⟩
    rw [show [entry ⟨rest, d.value⟩] = [(⟨rest, d.value⟩ : Definition)].map entry from rfl,
      ← List.map_append, ← hin]
    exact h.putTree hp hn (h.old.setSlot hb₀ k _ _) fun _ _ _ _ => rfl

/-- A definition that goes together with those before it is taken up. -/
theorem define_joins (hd : d.path ≠ []) (hj : ∀ k, Joins s₀ may (under k (ds ++ [d]))) :
    ∃ slots s', (define b env d.entry).Ends s (.ok ()) s' ∧
      Gathered s₀ env (ds ++ [d]) slots s' ∧
      s'.builders.get? b = some (c.withSlots slots) ∧ (¬ may → s'.started = s.started) := by
  obtain ⟨_ | k, rest, hp⟩ : ∃ x rest, d.path = x :: rest := List.exists_cons_of_ne_nil hd
  · exact ⟨c.slots, s, define_null hp, h.null hp, (Builder.withSlots_self ho).symm ▸ hb,
      fun _ => rfl⟩
  · by_cases hr : rest = []
    · subst hr
      exact define_plain hb ho hb₀ h hmay hp (hj k)
    · exact define_nested hb ho hb₀ h hmay hp hr (hj k)

end Joins

section Refused

variable {s₀ : Store} {c : Builder} {ds : List Definition} {k : String}
  (hb : s.builders.get? b = some c) (h : Gathered s₀ env ds c.slots s)
  (hlit : Literals s₀ (under k (ds ++ [d])))
  (hj : Joins s₀ (s₀.atLimit env = false) (under k ds))
  (hn : ¬ Joins s₀ (s₀.atLimit env = false) (under k (ds ++ [d])))

include hb h hlit hj hn

/-- A plain literal that does not go together with the definitions before it is refused. -/
theorem define_plain_refused (hp : d.path = [some k]) :
    ∃ c s', (define b env d.entry).Ends s (.error (.eval c)) s' ∧
      (s₀.atLimit env = false → c.kind = .duplicateAttr) := by
  rw [under_append_self hp] at hn hlit
  have hnew := definition_plain s env d.value
  have hs₁ : s₀.Extends (s.newThunk env d.value).2 := h.old.newThunk env d.value
  have ht₁ : (s.newThunk env d.value).2.thunks.get? s.thunks.next =
      some (.unforced env d.value) := Heap.get?_push_next _ _
  have hslot := slot_ends (s := (s.newThunk env d.value).2) hb k
  simp only [define_name hp]
  rcases Gathered.cases_under (under k ds) with hk | ⟨e, hk⟩ | hk
  · rw [hk] at hn
    exact absurd (Or.inl ⟨d.value, rfl⟩) hn
  · obtain ⟨t, hleaf, -⟩ := h.leaf k e hk
    rw [hleaf] at hslot
    exact ⟨.duplicate k, _, hnew.bind (hslot.bind (ends_refuse.mpr ⟨rfl, rfl⟩)), fun _ => rfl⟩
  · rw [h.tree k hk] at hslot
    obtain ⟨d', hd', hpath⟩ := hj.opens hk
    have he : s₀.IsLiteral d.value :=
      hlit ⟨d', List.mem_append_left _ hd', hpath⟩ ⟨[], d.value⟩ (by simp) rfl
    obtain ⟨x, s', hx, hkind⟩ := takeApart_fails k ht₁ hs₁ he
      fun hl ⟨m, hm⟩ => hn (hj.append_plain hk hl hm)
    exact ⟨x, s', hnew.bind (hslot.bind hx.bind_error), hkind⟩

/-- A definition inside an attribute that does not go together with those before it is refused. -/
theorem define_nested_refused {rest : List (Option String)} (hp : d.path = some k :: rest)
    (hr : rest ≠ []) :
    ∃ c s', (define b env d.entry).Ends s (.error (.eval c)) s' ∧
      (s₀.atLimit env = false → c.kind = .duplicateAttr) := by
  rw [under_append_self hp] at hn hlit
  have hnew := definition_nested s env hr d.value
  have hslot := slot_ends hb k
  simp only [define_name hp]
  cases hk : alone? (under k ds) with
  | none => exact absurd (hj.append_nested (fun e he => by rw [hk] at he; cases he) hr) hn
  | some e =>
    obtain ⟨t, hleaf, ht, -⟩ := h.leaf k e hk
    rw [hleaf] at hslot
    have he : s₀.IsLiteral e := by
      refine hlit ⟨⟨rest, d.value⟩, by simp, hr⟩ ⟨[], e⟩ ?_ rfl
      rw [alone?_eq_some.mp hk]
      simp
    obtain ⟨x, s', hx, hkind⟩ := takeApart_fails k ht h.old he
      fun hl ⟨m, hm⟩ => hn (.alone_nested hk hr hl hm)
    exact ⟨x, s', hnew.bind (hslot.bind hx.bind_error), hkind⟩

end Refused

end Comp

end NixKernel
