import Mathlib.Data.List.Sort
import NixKernel.Proofs.Attrs
import NixKernel.Proofs.Extends

/-!
Sets kept in hash tables. A table is visited in no order that can be relied on, not even the same
one twice, while a map of attributes lists its names in order. A table stands for a map if a look-up
finds the same in both; what is read off such a table then depends on the map alone.
-/

namespace NixKernel

/-! ### Tables -/

/-- A hash table from names to values. -/
class Table (T : Type) where
  empty : T
  /-- Binds a name, in place of what was bound to it before. -/
  put : T → String → Value → T
  get? : T → String → Option Value
  size : T → Nat
  /-- A visit of the table can meet its bindings in the order of the list. -/
  Visits : T → List (String × Value) → Prop

/-- What is documented of a hash table: it is a finite map, and a visit meets each binding once. -/
class LawfulTable (T : Type) [Table T] : Prop where
  get?_empty : ∀ k, Table.get? (Table.empty : T) k = none
  get?_put : ∀ (t : T) (j k : String) (v : Value),
    Table.get? (Table.put t j v) k = if k = j then some v else Table.get? t k
  exists_visits : ∀ t : T, ∃ l, Table.Visits t l
  nodup : ∀ {t : T} {l}, Table.Visits t l → (l.map Prod.fst).Nodup
  mem_iff : ∀ {t : T} {l k v}, Table.Visits t l → ((k, v) ∈ l ↔ Table.get? t k = some v)
  size_eq : ∀ {t : T} {l}, Table.Visits t l → Table.size t = l.length

/-- Names in order, however they came. -/
def sortNames (names : List String) : List String :=
  names.mergeSort fun j k => !Text.Before k j

namespace Table

variable {T : Type} [Table T]

/-- Binds the names of a list one after the other. -/
def putAll (t : T) (l : List (String × Value)) : T := l.foldl (fun t p => put t p.1 p.2) t

/-- The names of a table, as they come out of a visit and a sort. -/
def IsKeys (t : T) (ks : List String) : Prop :=
  ∃ l, Visits t l ∧ ks = sortNames (l.map Prod.fst)

/-- A new table that is filled on a visit of one table and then on a visit of another. -/
def IsUpdate (t u w : T) : Prop :=
  ∃ l l', Visits t l ∧ Visits u l' ∧ w = putAll (putAll empty l) l'

/-- The bindings of a pattern, put into a table. -/
def bindFormals (inner : Env) (args : T) :
    List Formal → T × Heap .thunk Thunk → T × Heap .thunk Thunk
  | [], acc => acc
  | f :: fs, (vars, thunks) =>
    match get? args f.name, f.fallback with
    | some v, _ => bindFormals inner args fs (put vars f.name v, thunks)
    | none, some d =>
      bindFormals inner args fs
        (put vars f.name (.thunk thunks.next), thunks.push (.unforced inner d))
    | none, none => bindFormals inner args fs (vars, thunks)

/-- The frame that a call of a pattern function opens: its formals and the name of the whole
argument. -/
def frame (s : Store) (env : Env) (formals : List Formal) (whole : Option String)
    (arg : Addr .set) (args : T) : T :=
  let vars := (bindFormals (env.withShadow (.set s.sets.next)) args formals (empty, s.thunks)).1
  match whole with
  | some x => put vars x (.set arg)
  | none => vars

/-- The tables that the sets of a program can be kept in. -/
inductive Made : T → Attrs Value → Prop
  /-- A set of given bindings, which are put into the table in any order. -/
  | given {l l' : List (String × Value)} (distinct : (l.map Prod.fst).Nodup)
      (shuffled : l'.Perm l) :
      Made (putAll empty l') (.ofList l)
  /-- A set that has been constructed; its bindings are put into the table in their order. -/
  | constructed (l : List (String × Value)) : Made (putAll empty l) (.ofList l)
  | update {t u w : T} {m n : Attrs Value} (left : Made t m) (right : Made u n)
      (visited : IsUpdate t u w) : Made w (m.union n)
  /-- The frame of a call with a set. -/
  | call {s : Store} {args : T} {arg : Addr .set} (made : Made args (s.attrs arg)) (env : Env)
      (formals : List Formal) (whole : Option String) :
      Made (frame s env formals whole arg args)
        ((s.openScope env formals whole arg).2.attrs s.sets.next)

/-- A look-up finds the same in a table as in a map. -/
def Stands (t : T) (m : Attrs Value) : Prop := ∀ k, get? t k = m.get? k

end Table

/-! ### The order of bindings -/

/-- A sort leaves no more than one order to names that are all different. -/
theorem sortNames_eq {names ks : List String} (h : names.Perm ks)
    (hks : ks.Pairwise Text.Before) : sortNames names = ks := by
  have hsorted : (sortNames names).Pairwise fun j k => (!decide (Text.Before k j)) = true := by
    refine List.pairwise_mergeSort (fun i j k hij hjk => ?_) (fun j k => ?_) names
    · simp only [Bool.not_eq_true', decide_eq_false_iff_not] at hij hjk ⊢
      exact List.not_lt.mpr (List.le_trans (List.not_lt.mp hij) (List.not_lt.mp hjk))
    · by_cases hkj : Text.Before k j
      · simp [hkj.asymm]
      · simp [hkj]
  refine ((List.mergeSort_perm names _).trans h).eq_of_pairwise (fun j k _ _ hjk hkj => ?_)
    hsorted (hks.imp fun hjk => by simp [hjk.asymm])
  simp only [Bool.not_eq_true', decide_eq_false_iff_not] at hjk hkj
  by_contra hne
  exact (Text.before_or_before hne).elim hkj hjk

namespace Attrs

variable {α : Type} {l l' : List (String × α)} {m n : Attrs α}

theorem lookup_perm (hl : (l.map Prod.fst).Nodup) (h : l.Perm l') (k : String) :
    l.lookup k = l'.lookup k := by
  have hl' : (l'.map Prod.fst).Nodup := (h.map Prod.fst).nodup hl
  refine Option.ext fun x => ⟨fun hx => ?_, fun hx => ?_⟩
  · exact lookup_of_mem hl' (h.subset (mem_of_lookup hx))
  · exact lookup_of_mem hl (h.symm.subset (mem_of_lookup hx))

/-- Bindings of different names can be inserted in any order. -/
theorem insertAll_perm (hl : (l.map Prod.fst).Nodup) (h : l.Perm l') (m : Attrs α) :
    l.foldl (fun m p => m.insert p.1 p.2) m = l'.foldl (fun m p => m.insert p.1 p.2) m := by
  refine ext_get? fun k => ?_
  rw [get?_foldl_insert, get?_foldl_insert, lookup_reverse_of_nodup hl,
    lookup_reverse_of_nodup ((h.map Prod.fst).nodup hl), lookup_perm hl h]

theorem ofList_perm (hl : (l.map Prod.fst).Nodup) (h : l.Perm l') : ofList l = ofList l' :=
  insertAll_perm hl h empty

/-! ### Unions -/

theorem empty_union (m : Attrs α) : empty.union m = m :=
  ext_get? fun k => by rw [get?_union, get?_empty, Option.or_none]

theorem union_empty (m : Attrs α) : m.union empty = m := rfl

theorem union_assoc (m n p : Attrs α) : (m.union n).union p = m.union (n.union p) :=
  ext_get? fun k => by simp only [get?_union, Option.or_assoc]

end Attrs

/-! ### Tables that stand for maps -/

namespace Table

variable {T : Type} [Table T] [LawfulTable T] {t u w : T} {m n : Attrs Value}
  {l : List (String × Value)}

theorem Stands.empty : Stands (Table.empty : T) .empty := LawfulTable.get?_empty

theorem Stands.put (h : Stands t m) (j : String) (v : Value) :
    Stands (Table.put t j v) (m.insert j v) := by
  intro k
  rw [LawfulTable.get?_put, Attrs.get?_insert, h k]

theorem Stands.putAll (h : Stands t m) (l : List (String × Value)) :
    Stands (Table.putAll t l) (l.foldl (fun m p => m.insert p.1 p.2) m) := by
  induction l generalizing t m with
  | nil => exact h
  | cons p l ih => exact ih (h.put p.1 p.2)

/-- A visit meets the bindings of the map, in some order. -/
theorem Stands.visit (h : Stands t m) (hl : Visits t l) : l.Perm m.bindings := by
  refine (List.perm_ext_iff_of_nodup (.of_map _ (LawfulTable.nodup hl))
    (.of_map _ (m.keys_ascending.imp fun h => h.ne))).mpr fun ⟨k, v⟩ => ?_
  rw [LawfulTable.mem_iff hl, h k, Attrs.get?_eq_some]

theorem Stands.size (h : Stands t m) : Table.size t = m.size := by
  obtain ⟨l, hl⟩ := LawfulTable.exists_visits t
  rw [LawfulTable.size_eq hl, (h.visit hl).length_eq, Attrs.size]

/-- Whatever the visit, the names come out in the order of the map. -/
theorem Stands.isKeys_iff (h : Stands t m) {ks : List String} : IsKeys t ks ↔ ks = m.keys := by
  have hsort : ∀ {l}, Visits t l → sortNames (l.map Prod.fst) = m.keys :=
    fun hl => sortNames_eq ((h.visit hl).map Prod.fst) m.keys_ascending
  constructor
  · rintro ⟨l, hl, rfl⟩
    exact hsort hl
  · rintro rfl
    obtain ⟨l, hl⟩ := LawfulTable.exists_visits t
    exact ⟨l, hl, (hsort hl).symm⟩

theorem exists_isUpdate (t u : T) : ∃ w, IsUpdate t u w := by
  obtain ⟨l, hl⟩ := LawfulTable.exists_visits t
  obtain ⟨l', hl'⟩ := LawfulTable.exists_visits u
  exact ⟨_, l, l', hl, hl', rfl⟩

/-! ### The tables of a program -/

theorem Stands.update (ht : Stands t m) (hu : Stands u n) (h : IsUpdate t u w) :
    Stands w (m.union n) := by
  obtain ⟨l, l', hl, hl', rfl⟩ := h
  have hleft : Attrs.ofList l = m :=
    (Attrs.ofList_perm (LawfulTable.nodup hl) (ht.visit hl)).trans m.empty_union
  have hright := Attrs.insertAll_perm (LawfulTable.nodup hl') (hu.visit hl') m
  have hstands : Stands (Table.putAll (Table.putAll (Table.empty : T) l) l') _ :=
    (Stands.empty.putAll l).putAll l'
  rwa [← Attrs.ofList, hleft, hright] at hstands

/-- Binding the formals of a pattern, a table and a map go along with each other. -/
theorem Stands.bindFormals {args : T} {given : Attrs Value} (hargs : Stands args given)
    (inner : Env) (fs : List Formal) (ht : Stands t m) (thunks : Heap .thunk Thunk) :
    Stands (Table.bindFormals inner args fs (t, thunks)).1
      (Store.bindFormals inner given fs (m, thunks)).1 := by
  induction fs generalizing t m thunks with
  | nil => exact ht
  | cons f fs ih =>
    unfold Table.bindFormals Store.bindFormals
    rw [hargs f.name]
    cases given.get? f.name with
    | some v => exact ih (ht.put f.name v) thunks
    | none =>
      cases f.fallback with
      | some d => exact ih (ht.put f.name _) _
      | none => exact ih ht thunks

theorem Stands.frame {s : Store} {args : T} {arg : Addr .set} (h : Stands args (s.attrs arg))
    (env : Env) (formals : List Formal) (whole : Option String) :
    Stands (Table.frame s env formals whole arg args)
      ((s.openScope env formals whole arg).2.attrs s.sets.next) := by
  have hvars := h.bindFormals (env.withShadow (.set s.sets.next)) formals Stands.empty s.thunks
  unfold Store.attrs Store.openScope Table.frame
  rw [Heap.get?_push_next]
  cases whole with
  | none => exact hvars
  | some x => exact hvars.put x (.set arg)

theorem Made.stands (h : Made t m) : Stands t m := by
  induction h with
  | given distinct shuffled =>
    rw [← Attrs.ofList_perm ((shuffled.map Prod.fst).nodup_iff.mpr distinct) shuffled]
    exact Stands.empty.putAll _
  | constructed l => exact Stands.empty.putAll l
  | update _ _ visited left right => exact left.update right visited
  | call _ env formals whole made => exact made.frame env formals whole

omit [LawfulTable T] in
/-- Every map is that of a set that can be constructed. -/
theorem exists_made (m : Attrs Value) : ∃ t : T, Made t m := by
  have hm : Attrs.ofList m.bindings = m := m.empty_union
  have hmade : Made (putAll (empty : T) m.bindings) (.ofList m.bindings) := .constructed _
  rw [hm] at hmade
  exact ⟨_, hmade⟩

end Table

/-! ### The union in a run -/

/-- The union of two sets is a new cell; everything else is as the operands have left it. -/
theorem Comp.ends_update {l r : Value} {a b : Addr .set} {m n : Attrs Value} {s s' : Store}
    (h : (forceBoth l r).Ends s (.ok (.set a, .set b)) s') (ha : s'.sets.get? a = some m)
    (hb : s'.sets.get? b = some n) :
    (update l r).Ends s (.ok (.set s'.sets.next)) { s' with sets := s'.sets.push (m.union n) } := by
  refine h.bind ((ends_attrs.mpr ⟨ha, rfl⟩).bind ((ends_attrs.mpr ⟨hb, rfl⟩).bind ?_))
  exact (perform_ends (.newSet (m.union n)) s').bind (ends_pure.mpr ⟨rfl, rfl⟩)

/-- **Sets are finite maps whose order is canonical.** Let sets be kept in hash tables, each made
from given bindings, by a construction, as a union or by a call of a pattern function, and whatever
the orders in which the tables are visited on the way. Every map is that of some set. If a set has
the map `m`, then every look-up in its table finds what `m` has; its size is the number of the names
of `m`; and whatever the visit, its names come out as those of `m`, in ascending order and precisely
those that a look-up finds. The union of two sets binds each name as the second one does, or else as
the first. It is associative, and the empty map is neutral on both sides. In a run, nothing happens
after the operands have been forced but that the new set is added: no stored value is forced, and
both operands are as they were. -/
theorem sets_canonical {T : Type} [Table T] [LawfulTable T] :
    (∀ m : Attrs Value, ∃ t : T, Table.Made t m) ∧
    (∀ (t : T) (m : Attrs Value), Table.Made t m →
      (∀ ks, Table.IsKeys t ks ↔ ks = m.keys) ∧ m.keys.Pairwise Text.Before ∧
      (∀ k, k ∈ m.keys ↔ ∃ v, Table.get? t k = some v) ∧ (∀ k, Table.get? t k = m.get? k) ∧
      Table.size t = m.keys.length) ∧
    (∀ (t u : T) (m n : Attrs Value), Table.Made t m → Table.Made u n →
      (∃ w, Table.IsUpdate t u w) ∧ ∀ w, Table.IsUpdate t u w → Table.Made w (m.union n) ∧
        ∀ k, Table.get? w k = (Table.get? u k).or (Table.get? t k)) ∧
    (∀ m n p : Attrs Value, (m.union n).union p = m.union (n.union p) ∧
      m.union .empty = m ∧ Attrs.empty.union m = m) ∧
    ∀ (l r : Value) (a b : Addr .set) (m n : Attrs Value) (s s' : Store),
      (Comp.forceBoth l r).Ends s (.ok (.set a, .set b)) s' →
      s'.sets.get? a = some m → s'.sets.get? b = some n →
      (Comp.binary .update l r).Ends s (.ok (.set s'.sets.next))
        { s' with sets := s'.sets.push (m.union n) } ∧
      (s'.sets.push (m.union n)).get? s'.sets.next = some (m.union n) ∧
      ∀ c p, s'.sets.get? c = some p → (s'.sets.push (m.union n)).get? c = some p := by
  refine ⟨Table.exists_made, fun t m hm => ?_,
    fun t u m n hm hn => ⟨Table.exists_isUpdate t u, fun w hw => ?_⟩,
    fun m n p => ⟨m.union_assoc n p, m.union_empty, m.empty_union⟩,
    fun l r a b m n s s' h ha hb => ⟨Comp.ends_update h ha hb, Heap.get?_push_next _ _,
      fun c p hc => Heap.get?_push_of_some hc⟩⟩
  · have hstands := hm.stands
    refine ⟨fun ks => hstands.isKeys_iff, m.keys_ascending, fun k => ?_, hstands, ?_⟩
    · rw [Attrs.mem_keys, hstands k]
    · rw [hstands.size, Attrs.size, Attrs.keys, List.length_map]
  · have hmade := hm.update hn hw
    refine ⟨hmade, fun k => ?_⟩
    rw [hmade.stands k, hm.stands k, hn.stands k, Attrs.get?_union]

/-! ### A table of pairs -/

/-- A table that keeps its bindings as pairs and is visited in any order at all. -/
structure PairTable where
  pairs : List (String × Value)
  nodup : (pairs.map Prod.fst).Nodup

instance : Table PairTable where
  empty := ⟨[], List.nodup_nil⟩
  put t k v := ⟨setKey k v t.pairs, nodup_setKey t.nodup⟩
  get? t k := t.pairs.lookup k
  size t := t.pairs.length
  Visits t l := l.Perm t.pairs

instance : LawfulTable PairTable where
  get?_empty _ := rfl
  get?_put t j k v := lookup_setKey j k v t.pairs
  exists_visits t := ⟨t.pairs, .refl _⟩
  nodup {t _} h := (h.map Prod.fst).nodup_iff.mpr t.nodup
  mem_iff {t _ _ _} h := h.mem_iff.trans ⟨Attrs.lookup_of_mem t.nodup, Attrs.mem_of_lookup⟩
  size_eq h := h.length_eq.symm

/-- A store with two sets that both bind `b`; what the first one binds to `a` cannot be forced. -/
def Store.twoSets : Store :=
  { Store.initial with
    thunks := ⟨#[.unforced .empty (.raise "")]⟩
    sets := ⟨#[.ofList [("a", .thunk ⟨0⟩), ("b", .int 1)], .ofList [("b", .int 2), ("c", .null)]]⟩ }

/-- The tables are filled against the order of the names, and the value that cannot be forced is
passed over. -/
theorem sets_canonical_pairs : ∃ w : PairTable,
    Table.IsUpdate (Table.putAll Table.empty [("b", .int 1), ("a", .thunk ⟨0⟩)])
      (Table.putAll Table.empty [("c", .null), ("b", .int 2)]) w ∧
    (∀ ks, Table.IsKeys w ks ↔ ks = ["a", "b", "c"]) ∧ Table.size w = 3 ∧
    Table.get? w "a" = some (.thunk ⟨0⟩) ∧ Table.get? w "b" = some (.int 2) ∧
    ∃ m, (Comp.binary .update (.set ⟨0⟩) (.set ⟨1⟩)).Ends .twoSets (.ok (.set ⟨2⟩))
      { Store.twoSets with sets := Store.twoSets.sets.push m } ∧
      m.keys = ["a", "b", "c"] := by
  obtain ⟨-, hmade, hupdate, -, hrun⟩ := sets_canonical (T := PairTable)
  have hleft : Table.Made (Table.putAll (Table.empty : PairTable) _) _ :=
    .given (by decide) (.swap ("a", .thunk ⟨0⟩) ("b", .int 1) [])
  have hright : Table.Made (Table.putAll (Table.empty : PairTable) _) _ :=
    .given (by decide) (.swap ("b", .int 2) ("c", .null) [])
  obtain ⟨⟨w, hw⟩, hunion⟩ := hupdate _ _ _ _ hleft hright
  obtain ⟨hkeys, -, -, hget, hsize⟩ := hmade w _ (hunion w hw).1
  have hnames : ((Attrs.ofList [("a", Value.thunk ⟨0⟩), ("b", .int 1)]).union
    (.ofList [("b", .int 2), ("c", .null)])).keys = ["a", "b", "c"] := by decide
  rw [hnames] at hkeys hsize
  have hforced : (Comp.forceBoth (.set ⟨0⟩) (.set ⟨1⟩)).Ends .twoSets (.ok (.set ⟨0⟩, .set ⟨1⟩))
    .twoSets := ⟨0, rfl⟩
  exact ⟨w, hw, hkeys, hsize, hget "a", hget "b", _, (hrun _ _ _ _ _ _ _ _ hforced rfl rfl).1,
    hnames⟩

end NixKernel
