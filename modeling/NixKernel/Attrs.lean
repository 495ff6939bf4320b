import NixKernel.Text.Order

/-!
Finite maps from attribute names. A map is the list of its bindings in the order of their names,
so two maps with the same bindings are equal.
-/

namespace NixKernel

variable {α : Type}

/-- The names of a list of bindings go up strictly. -/
def Ascending (l : List (String × α)) : Prop := l.Pairwise fun a b => Text.Before a.1 b.1

/-- A finite map from names. -/
structure Attrs (α : Type) where
  bindings : List (String × α)
  ascending : Ascending bindings

namespace Attrs

/-! ### One binding more -/

/-- Binds a name in an ascending list, in place of what was bound to it before. -/
def insertBinding (name : String) (a : α) : List (String × α) → List (String × α)
  | [] => [(name, a)]
  | (k, b) :: l =>
    if Text.Before name k then (name, a) :: (k, b) :: l
    else if name = k then (name, a) :: l
    else (k, b) :: insertBinding name a l

theorem mem_insertBinding {name : String} {a : α} {l : List (String × α)} {p : String × α}
    (h : p ∈ insertBinding name a l) : p = (name, a) ∨ p ∈ l := by
  induction l with
  | nil => exact Or.inl (by simpa [insertBinding] using h)
  | cons q l ih =>
    obtain ⟨k, b⟩ := q
    unfold insertBinding at h
    split at h
    · exact (List.mem_cons.mp h)
    · split at h
      · rcases List.mem_cons.mp h with h | h
        · exact Or.inl h
        · exact Or.inr (List.mem_cons_of_mem _ h)
      · rcases List.mem_cons.mp h with h | h
        · exact Or.inr (h ▸ List.mem_cons_self)
        · rcases ih h with h | h
          · exact Or.inl h
          · exact Or.inr (List.mem_cons_of_mem _ h)

theorem ascending_insertBinding {name : String} {a : α} {l : List (String × α)}
    (h : Ascending l) : Ascending (insertBinding name a l) := by
  induction l with
  | nil => exact List.pairwise_singleton _ _
  | cons q l ih =>
    obtain ⟨k, b⟩ := q
    obtain ⟨hk, hl⟩ := List.pairwise_cons.mp h
    unfold insertBinding
    split
    · rename_i hlt
      refine List.pairwise_cons.mpr ⟨fun p hp => ?_, h⟩
      rcases List.mem_cons.mp hp with rfl | hp
      · exact hlt
      · exact hlt.trans (hk p hp)
    · rename_i hlt
      split
      · rename_i heq
        exact List.pairwise_cons.mpr ⟨fun p hp => heq ▸ hk p hp, hl⟩
      · rename_i hne
        refine List.pairwise_cons.mpr ⟨fun p hp => ?_, ih hl⟩
        rcases mem_insertBinding hp with rfl | hp
        · exact (Text.before_or_before hne).resolve_left hlt
        · exact hk p hp

theorem lookup_cons_ite (j k : String) (b : α) (l : List (String × α)) :
    ((j, b) :: l).lookup k = if k = j then some b else l.lookup k := by
  rw [List.lookup_cons]
  by_cases h : k = j
  · simp [h]
  · simp [h, beq_eq_false_iff_ne.mpr h]

theorem lookup_insertBinding (name k : String) (a : α) (l : List (String × α)) :
    (insertBinding name a l).lookup k = if k = name then some a else l.lookup k := by
  induction l with
  | nil => simp [insertBinding, lookup_cons_ite]
  | cons q l ih =>
    obtain ⟨j, b⟩ := q
    unfold insertBinding
    split
    · simp only [lookup_cons_ite]
    · split
      · rename_i hj
        subst hj
        simp only [lookup_cons_ite]
        split <;> rfl
      · rename_i hj
        simp only [lookup_cons_ite, ih]
        by_cases h : k = j
        · subst h
          simp [Ne.symm hj]
        · simp [h]

/-! ### Operations -/

/-- The map without bindings. -/
def empty : Attrs α := ⟨[], List.Pairwise.nil⟩

instance : Inhabited (Attrs α) := ⟨empty⟩

/-- Binds a name, in place of what was bound to it before. -/
def insert (m : Attrs α) (name : String) (a : α) : Attrs α :=
  ⟨insertBinding name a m.bindings, ascending_insertBinding m.ascending⟩

/-- The map of a list of bindings; of two bindings of one name the later counts. -/
def ofList (l : List (String × α)) : Attrs α := l.foldl (fun m p => m.insert p.1 p.2) empty

/-- What a name is bound to. -/
def get? (m : Attrs α) (name : String) : Option α := m.bindings.lookup name

/-- The names that are bound, in order. -/
def keys (m : Attrs α) : List String := m.bindings.map Prod.fst

/-- The number of bindings. -/
def size (m : Attrs α) : Nat := m.bindings.length

/-- The bindings of both maps, those of the second in place of those of the first. -/
def union (m n : Attrs α) : Attrs α := n.bindings.foldl (fun m p => m.insert p.1 p.2) m

/-! ### What the operations do to a binding -/

theorem get?_empty (k : String) : (empty : Attrs α).get? k = none := rfl

theorem get?_insert (m : Attrs α) (name k : String) (a : α) :
    (m.insert name a).get? k = if k = name then some a else m.get? k :=
  lookup_insertBinding name k a m.bindings

theorem get?_foldl_insert (l : List (String × α)) (m : Attrs α) (k : String) :
    (l.foldl (fun m p => m.insert p.1 p.2) m).get? k = (l.reverse.lookup k).or (m.get? k) := by
  induction l generalizing m with
  | nil => rfl
  | cons p l ih =>
    obtain ⟨j, b⟩ := p
    rw [List.foldl_cons, ih, get?_insert, List.reverse_cons, List.lookup_append,
      lookup_cons_ite, Option.or_assoc]
    split <;> rfl

/-- The last binding of a name in a list is the one in its map. -/
theorem get?_ofList (l : List (String × α)) (k : String) :
    (ofList l).get? k = l.reverse.lookup k := by
  rw [ofList, get?_foldl_insert, get?_empty, Option.or_none]

theorem lookup_eq_none_of_forall_ne {l : List (String × α)} {k : String}
    (h : ∀ p ∈ l, p.1 ≠ k) : l.lookup k = none := by
  induction l with
  | nil => rfl
  | cons p l ih =>
    obtain ⟨j, b⟩ := p
    have hj : k ≠ j := (h (j, b) List.mem_cons_self).symm
    rw [lookup_cons_ite, if_neg hj]
    exact ih fun q hq => h q (List.mem_cons_of_mem _ hq)

/-- Ascending names are all different, so it does not matter from which end they are searched. -/
theorem lookup_reverse {l : List (String × α)} (h : Ascending l) (k : String) :
    l.reverse.lookup k = l.lookup k := by
  induction l with
  | nil => rfl
  | cons p l ih =>
    obtain ⟨j, b⟩ := p
    obtain ⟨hj, hl⟩ := List.pairwise_cons.mp h
    rw [List.reverse_cons, List.lookup_append, ih hl, lookup_cons_ite, lookup_cons_ite]
    by_cases hk : k = j
    · subst hk
      rw [lookup_eq_none_of_forall_ne fun q hq => (hj q hq).ne.symm]
      rfl
    · simp [hk]

/-- A union binds a name as its second map does, or else as the first. -/
theorem get?_union (m n : Attrs α) (k : String) :
    (m.union n).get? k = (n.get? k).or (m.get? k) := by
  rw [union, get?_foldl_insert, lookup_reverse n.ascending]
  rfl

end Attrs

end NixKernel
