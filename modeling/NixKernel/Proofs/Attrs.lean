import Mathlib.Data.List.Forall2
import Mathlib.Data.List.Perm.Subperm
import NixKernel.Attrs

/-!
Laws of finite maps: what a name is bound to is the one binding of that name in the list.
-/

namespace NixKernel.Attrs

variable {α : Type} {l : List (String × α)} {k j : String} {x y : α}

/-! ### Lists of bindings -/

theorem mem_of_lookup (h : l.lookup k = some x) : (k, x) ∈ l := by
  obtain ⟨r, r', hl, -⟩ := List.lookup_eq_some_iff.mp h
  rw [hl]
  exact List.mem_append_right r List.mem_cons_self

theorem lookup_of_mem (h : (l.map Prod.fst).Nodup) (hk : (k, x) ∈ l) : l.lookup k = some x := by
  induction l with
  | nil => cases hk
  | cons p l ih =>
    obtain ⟨j, y⟩ := p
    obtain ⟨hj, hl⟩ := List.nodup_cons.mp h
    rw [lookup_cons_ite]
    rcases List.mem_cons.mp hk with hk | hk
    · cases hk
      exact if_pos rfl
    · rw [if_neg fun hkj => hj (List.mem_map.mpr ⟨(k, x), hk, hkj⟩)]
      exact ih hl hk

theorem lookup_reverse_of_nodup (h : (l.map Prod.fst).Nodup) (k : String) :
    l.reverse.lookup k = l.lookup k := by
  induction l with
  | nil => rfl
  | cons p l ih =>
    obtain ⟨j, x⟩ := p
    obtain ⟨hj, hl⟩ := List.nodup_cons.mp h
    rw [List.reverse_cons, List.lookup_append, ih hl, lookup_cons_ite, lookup_cons_ite]
    by_cases hk : k = j
    · subst hk
      have hnone : l.lookup k = none :=
        lookup_eq_none_of_forall_ne fun q hq hqk => hj (List.mem_map.mpr ⟨q, hq, hqk⟩)
      rw [hnone]
      rfl
    · simp [hk]

/-- The first name of ascending bindings stands before the others. -/
theorem before_of_lookup (h : Ascending ((k, x) :: l)) (hj : l.lookup j = some y) :
    Text.Before k j := (List.pairwise_cons.mp h).1 (j, y) (mem_of_lookup hj)

/-- A list of ascending bindings that are all among those of another of the same length is that
list. -/
theorem subset_iff {n : List (String × α)} (hl : Ascending l) (hn : Ascending n)
    (hlen : l.length = n.length) : l ⊆ n ↔ l = n := by
  refine ⟨fun h => ?_, fun h => h ▸ List.Subset.refl l⟩
  have hnodup : l.Nodup := hl.imp fun hpq heq => hpq.ne (congrArg Prod.fst heq)
  have hperm : l.Perm n :=
    (List.subperm_of_subset hnodup h).perm_of_length_le (Nat.le_of_eq hlen.symm)
  exact hperm.eq_of_pairwise (fun p q _ _ hpq hqp => absurd hqp hpq.asymm) hl hn

/-! ### Maps -/

/-- The bindings of a map are what its names are bound to. -/
theorem get?_eq_some {m : Attrs α} : m.get? k = some x ↔ (k, x) ∈ m.bindings := by
  refine ⟨mem_of_lookup, lookup_of_mem ?_⟩
  exact List.pairwise_map.mpr (m.ascending.imp fun h => h.ne)

/-- Maps are equal if they bind the same names, each to the same. -/
theorem eq_iff_get? {m n : Attrs α} :
    m = n ↔ m.keys = n.keys ∧ ∀ k x y, m.get? k = some x → n.get? k = some y → x = y := by
  constructor
  · rintro rfl
    exact ⟨rfl, fun k x y hx hy => Option.some.inj (hx.symm.trans hy)⟩
  · rintro ⟨hkeys, hget⟩
    have hlen : m.bindings.length = n.bindings.length := by
      simpa [keys] using congrArg List.length hkeys
    have hsub : m.bindings ⊆ n.bindings := by
      rintro ⟨k, x⟩ hx
      have hk : k ∈ n.keys := hkeys ▸ List.mem_map_of_mem hx
      obtain ⟨⟨_, y⟩, hy, rfl⟩ := List.mem_map.mp hk
      rw [hget _ x y (get?_eq_some.mpr hx) (get?_eq_some.mpr hy)]
      exact hy
    have hbindings := (subset_iff m.ascending n.ascending hlen).mp hsub
    obtain ⟨l, hl⟩ := m
    obtain ⟨l', hl'⟩ := n
    subst hbindings
    rfl

/-- The names of a map are those that are bound. -/
theorem mem_keys {m : Attrs α} : k ∈ m.keys ↔ ∃ x, m.get? k = some x := by
  constructor
  · intro hk
    obtain ⟨⟨_, x⟩, hx, rfl⟩ := List.mem_map.mp hk
    exact ⟨x, get?_eq_some.mpr hx⟩
  · rintro ⟨x, hx⟩
    exact List.mem_map_of_mem (get?_eq_some.mp hx)

theorem keys_ascending (m : Attrs α) : m.keys.Pairwise Text.Before :=
  List.pairwise_map.mpr m.ascending

/-- Maps that bind every name alike are equal. -/
theorem ext_get? {m n : Attrs α} (h : ∀ k, m.get? k = n.get? k) : m = n := by
  refine eq_iff_get?.mpr ⟨?_, fun k x y hx hy => Option.some.inj (hx.symm.trans ((h k).trans hy))⟩
  have hperm : m.keys.Perm n.keys := by
    refine (List.perm_ext_iff_of_nodup (m.keys_ascending.imp fun h => h.ne)
      (n.keys_ascending.imp fun h => h.ne)).mpr fun k => ?_
    rw [mem_keys, mem_keys, h]
  exact hperm.eq_of_pairwise (fun j k _ _ hjk hkj => absurd hkj hjk.asymm)
    m.keys_ascending n.keys_ascending

theorem mem_of_mem_ofList {p : String × α} (hp : p ∈ (ofList l).bindings) : p ∈ l := by
  have hget : (ofList l).get? p.1 = some p.2 := get?_eq_some.mpr hp
  rw [get?_ofList] at hget
  exact List.mem_reverse.mp (mem_of_lookup hget)

end NixKernel.Attrs

namespace NixKernel

/-! ### Lists of pairs -/

/-- Two pairs have the same name and related values. -/
def Binding {α β : Type} (R : α → β → Prop) (p : String × α) (q : String × β) : Prop :=
  p.1 = q.1 ∧ R p.2 q.2

section Bindings

variable {α β : Type} {R : α → β → Prop} {l : List (String × α)} {l' : List (String × β)}

theorem lookup_alike (h : List.Forall₂ (Binding R) l l') (k : String) :
    Option.Rel R (l.lookup k) (l'.lookup k) := by
  induction h with
  | nil => exact .none
  | @cons p q l l' hpq _ ih =>
    obtain ⟨j, x⟩ := p
    obtain ⟨j', y⟩ := q
    obtain ⟨rfl, hxy⟩ := hpq
    rw [Attrs.lookup_cons_ite, Attrs.lookup_cons_ite]
    split
    · exact .some hxy
    · exact ih

theorem names_alike (h : List.Forall₂ (Binding R) l l') : l.map Prod.fst = l'.map Prod.fst := by
  induction h with
  | nil => rfl
  | cons hpq _ ih => rw [List.map_cons, List.map_cons, hpq.1, ih]

theorem values_alike (h : List.Forall₂ (Binding R) l l') :
    List.Forall₂ R (l.map Prod.snd) (l'.map Prod.snd) := by
  induction h with
  | nil => exact .nil
  | cons hpq _ ih => exact .cons hpq.2 ih

theorem binding_iff : List.Forall₂ (Binding R) l l' ↔
    l.map Prod.fst = l'.map Prod.fst ∧ List.Forall₂ R (l.map Prod.snd) (l'.map Prod.snd) := by
  refine ⟨fun h => ⟨names_alike h, values_alike h⟩, ?_⟩
  rintro ⟨hnames, hvalues⟩
  induction l generalizing l' with
  | nil =>
    obtain rfl : l' = [] := by simpa using hnames
    exact .nil
  | cons p l ih =>
    cases l' with
    | nil => cases hnames
    | cons q l' =>
      obtain ⟨hp, hnames⟩ := List.cons.inj hnames
      cases hvalues with
      | cons hv hvalues => exact .cons ⟨hp, hv⟩ (ih hnames hvalues)

theorem ascending_alike (h : List.Forall₂ (Binding R) l l') (hl : Ascending l) : Ascending l' := by
  have hnames : (l'.map Prod.fst).Pairwise Text.Before := by
    rw [← names_alike h]
    exact List.pairwise_map.mpr hl
  exact List.pairwise_map.mp hnames

end Bindings

end NixKernel
