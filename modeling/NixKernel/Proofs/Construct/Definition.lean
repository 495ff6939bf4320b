import Mathlib.Data.List.Basic
import NixKernel.Proofs.Extends

/-!
Definitions whose paths are written out. Those that start with one name are the definitions of one
attribute; they go together if there is one plain value, or if all of them can be gathered into
definitions of what is inside the attribute. `Compatible` asks this at every level, and `Laid` says
of a set that it is what compatible definitions ask for.
-/

namespace NixKernel

/-- A definition of an attribute whose path is written out: every component is a name, or null. -/
structure Definition where
  path : List (Option String)
  value : Expr

namespace Definition

/-- A component of a path as an expression. -/
def component : Option String → Expr
  | some x => .string x
  | none => .lit .null

def entry (d : Definition) : Entry := ⟨d.path.map component, d.value⟩

/-- The paths of a list of definitions have a greatest length. -/
theorem exists_length_le (ds : List Definition) : ∃ n, ∀ d ∈ ds, d.path.length ≤ n := by
  induction ds with
  | nil => exact ⟨0, fun d hd => nomatch hd⟩
  | cons d ds ih =>
    obtain ⟨n, hn⟩ := ih
    refine ⟨max d.path.length n, fun d' hd' => ?_⟩
    rcases List.mem_cons.mp hd' with rfl | hd'
    · exact Nat.le_max_left _ _
    · exact Nat.le_trans (hn d' hd') (Nat.le_max_right _ _)

/-! ### The definitions of one attribute -/

/-- What a definition says about an attribute: the rest of the path after its name. -/
def tail? (k : String) (d : Definition) : Option Definition :=
  match d.path with
  | some x :: rest => if x = k then some ⟨rest, d.value⟩ else none
  | _ => none

/-- What definitions say about an attribute, in their order. -/
def under (k : String) (ds : List Definition) : List Definition := ds.filterMap (tail? k)

/-- The value of an attribute that is defined once and plainly. -/
def alone? : List Definition → Option Expr
  | [⟨[], e⟩] => some e
  | _ => none

/-- The first two definitions of an attribute are both plain. -/
def Twice : List Definition → Prop
  | ⟨[], _⟩ :: ⟨[], _⟩ :: _ => True
  | _ => False

/-- An attribute is to be a set of its own: it is defined, and not only by one plain value. -/
def Nested (g : List Definition) : Prop := g ≠ [] ∧ alone? g = none

section Under

variable (k : String) (d : Definition) (ds es : List Definition)

theorem under_append : under k (ds ++ es) = under k ds ++ under k es := List.filterMap_append

theorem under_singleton : under k [d] = (d.tail? k).toList := by
  rw [under, List.filterMap_cons, List.filterMap_nil]
  cases d.tail? k <;> rfl

theorem tail?_eq_some {k : String} {d d' : Definition} :
    d.tail? k = some d' ↔ d.path = some k :: d'.path ∧ d'.value = d.value := by
  obtain ⟨p, e⟩ := d
  obtain ⟨p', e'⟩ := d'
  rcases p with _ | ⟨_ | x, rest⟩
  · simp [tail?]
  · simp [tail?]
  · by_cases hx : x = k
    · simp [tail?, hx, eq_comm]
    · simp [tail?, hx]

theorem mem_under {k : String} {ds : List Definition} {d' : Definition} :
    d' ∈ under k ds ↔ ∃ d ∈ ds, d.path = some k :: d'.path ∧ d'.value = d.value := by
  simp only [under, List.mem_filterMap, tail?_eq_some]

end Under

theorem alone?_eq_some {g : List Definition} {e : Expr} : alone? g = some e ↔ g = [⟨[], e⟩] := by
  unfold alone?
  split
  · rename_i e'
    simp
  · rename_i h
    exact ⟨fun h' => (nomatch h'), fun h' => absurd h' (h e)⟩

/-- With one more definition an attribute that was defined before is not defined alone. -/
theorem nested_append {g : List Definition} (hg : g ≠ []) (d : Definition) :
    Nested (g ++ [d]) := by
  refine ⟨by simp, ?_⟩
  cases h : alone? (g ++ [d]) with
  | none => rfl
  | some e =>
    have := congrArg List.length (alone?_eq_some.mp h)
    have hl := List.length_pos_iff.mpr hg
    simp at this
    exact absurd this hg

theorem nested_iff {g : List Definition} : Nested g ↔ g ≠ [] ∧ ∀ e, g ≠ [⟨[], e⟩] := by
  refine and_congr_right fun _ => ?_
  rw [Option.eq_none_iff_forall_ne_some]
  exact forall_congr' fun e => not_congr alone?_eq_some

theorem Twice.append {g : List Definition} (h : Twice g) (g' : List Definition) :
    Twice (g ++ g') := by
  rcases g with _ | ⟨⟨_ | _, _⟩, _ | ⟨⟨_ | _, _⟩, g⟩⟩ <;> simp_all [Twice]

theorem Twice.exists_plain {g : List Definition} (h : Twice g) : ∃ d ∈ g, d.path = [] := by
  unfold Twice at h
  split at h
  · exact ⟨_, List.mem_cons_self, rfl⟩
  · exact h.elim

/-- A definition that follows one plain value makes two plain ones, or it does not. -/
theorem twice_append_singleton {g : List Definition} {d : Definition} (h : ¬ Twice g) :
    Twice (g ++ [d]) ↔ (∃ e, alone? g = some e) ∧ d.path = [] := by
  obtain ⟨p, v⟩ := d
  rcases g with _ | ⟨⟨_ | _, _⟩, _ | ⟨⟨_ | _, _⟩, g⟩⟩ <;> rcases p with _ | _ <;>
    simp_all [Twice, alone?]

end Definition

/-! ### Literals -/

namespace Store

/-- What a literal is known to stand for: a value that is no thunk, or that of a forced one. -/
def literal? (s : Store) : Expr → Option Value
  | .lit v => if (s.resolve v).isWhnf then some (s.resolve v) else none
  | _ => none

/-- The attributes of a literal set. -/
def literalAttrs? (s : Store) (e : Expr) : Option (Attrs Value) :=
  match s.literal? e with
  | some (.set a) => s.sets.get? a
  | _ => none

theorem literal?_eq_some {s : Store} {e : Expr} {w : Value} :
    s.literal? e = some w ↔ ∃ v, e = .lit v ∧ s.resolve v = w ∧ w.isWhnf := by
  unfold literal?
  split
  · rename_i v
    by_cases h : (s.resolve v).isWhnf
    · simp only [h, if_true, Option.some.injEq, Expr.lit.injEq, exists_eq_left']
      exact ⟨fun hw => ⟨hw, hw ▸ h⟩, And.left⟩
    · simp only [h, Expr.lit.injEq, exists_eq_left']
      exact ⟨fun hw => (nomatch hw), fun ⟨hw, h'⟩ => absurd (hw ▸ h') h⟩
  · rename_i h
    exact ⟨fun hw => (nomatch hw), fun ⟨v, hv, _⟩ => absurd hv (h v)⟩

theorem literalAttrs?_eq_some {s : Store} {e : Expr} {m : Attrs Value} :
    s.literalAttrs? e = some m ↔ ∃ a, s.literal? e = some (.set a) ∧ s.sets.get? a = some m := by
  unfold literalAttrs?
  split
  · rename_i a h
    simp [h]
  · rename_i h
    exact ⟨fun hm => (nomatch hm), fun ⟨a, ha, _⟩ => absurd ha (h a)⟩

/-- An expression is a literal whose value is known, and is a cell of the store if it is a set. -/
def IsLiteral (s : Store) (e : Expr) : Prop :=
  ∃ w, s.literal? e = some w ∧ ∀ a, w = .set a → ∃ m, s.sets.get? a = some m

theorem IsLiteral.literalAttrs? {s : Store} {e : Expr} (h : s.IsLiteral e) :
    (∃ m, s.literalAttrs? e = some m) ∨ ∃ w, s.literal? e = some w ∧ ∀ a, w ≠ .set a := by
  obtain ⟨w, hw, hs⟩ := h
  by_cases ha : ∃ a, w = .set a
  · obtain ⟨a, rfl⟩ := ha
    obtain ⟨m, hm⟩ := hs a rfl
    exact Or.inl ⟨m, literalAttrs?_eq_some.mpr ⟨a, hw, hm⟩⟩
  · exact Or.inr ⟨w, hw, fun a h => ha ⟨a, h⟩⟩

theorem Extends.literal? {s s' : Store} (h : s.Extends s') {e : Expr} {w : Value}
    (he : s.literal? e = some w) : s'.literal? e = some w := by
  obtain ⟨v, rfl, rfl, hw⟩ := literal?_eq_some.mp he
  exact literal?_eq_some.mpr ⟨v, rfl, h.resolve hw, hw⟩

theorem Extends.literalAttrs? {s s' : Store} (h : s.Extends s') {e : Expr} {m : Attrs Value}
    (he : s.literalAttrs? e = some m) : s'.literalAttrs? e = some m := by
  obtain ⟨a, ha, hm⟩ := literalAttrs?_eq_some.mp he
  exact literalAttrs?_eq_some.mpr ⟨a, h.literal? ha, h.set hm⟩

theorem IsLiteral.extends {s s' : Store} {e : Expr} (h : s.IsLiteral e) (hs : s.Extends s') :
    s'.IsLiteral e := by
  obtain ⟨w, hw, hset⟩ := h
  refine ⟨w, hs.literal? hw, fun a ha => ?_⟩
  obtain ⟨m, hm⟩ := hset a ha
  exact ⟨m, hs.set hm⟩

theorem IsLiteral.literalAttrs?_eq {s s' : Store} {e : Expr} (h : s.IsLiteral e)
    (hs : s.Extends s') : s'.literalAttrs? e = s.literalAttrs? e := by
  rcases h.literalAttrs? with ⟨m, hm⟩ | ⟨w, hw, hset⟩
  · rw [hm, hs.literalAttrs? hm]
  · unfold Store.literalAttrs?
    rw [hw, hs.literal? hw]
    cases w with
    | set a => exact absurd rfl (hset a)
    | _ => rfl

end Store

namespace Definition

/-! ### What is inside an attribute -/

/-- The attributes of a set as definitions. -/
def ofAttrs (m : Attrs Value) : List Definition := m.bindings.map fun p => ⟨[some p.1], .lit p.2⟩

/-- What a definition says about the inside of its attribute: a plain literal set is taken
apart. -/
def opened (s : Store) (d : Definition) : List Definition :=
  match d.path with
  | [] => ofAttrs ((s.literalAttrs? d.value).getD .empty)
  | _ :: _ => [d]

/-- What definitions of an attribute say about its inside. -/
def inside (s : Store) (g : List Definition) : List Definition := g.flatMap (opened s)

theorem entry_ofAttrs (m : Attrs Value) : (ofAttrs m).map entry = Comp.entriesOf m := by
  rw [ofAttrs, Comp.entriesOf, List.map_map]
  rfl

/-- What is inside comes from a path that goes on, or is an attribute of a literal set. -/
theorem mem_inside {s : Store} {g : List Definition} {d : Definition} (h : d ∈ inside s g) :
    (d ∈ g ∧ d.path ≠ []) ∨ ∃ d' ∈ g, d'.path = [] ∧
      ∃ p ∈ ((s.literalAttrs? d'.value).getD .empty).bindings, d = ⟨[some p.1], .lit p.2⟩ := by
  obtain ⟨d', hd', hd⟩ := List.mem_flatMap.mp h
  unfold opened at hd
  split at hd
  · rename_i hp
    obtain ⟨p, hm, rfl⟩ := List.mem_map.mp hd
    exact Or.inr ⟨d', hd', hp, p, hm, rfl⟩
  · rename_i c cs hp
    rw [List.mem_singleton.mp hd]
    exact Or.inl ⟨hd', by rw [hp]; exact List.cons_ne_nil c cs⟩

theorem path_ne_nil_of_mem_inside {s : Store} {g : List Definition} {d : Definition}
    (h : d ∈ inside s g) : d.path ≠ [] := by
  rcases mem_inside h with ⟨-, hp⟩ | ⟨-, -, -, p, -, rfl⟩
  · exact hp
  · exact List.cons_ne_nil _ _

theorem length_le_of_mem_inside {s : Store} {g : List Definition} {n : Nat}
    (hg : ∀ d ∈ g, d.path.length ≤ n) (hn : 1 ≤ n) {d : Definition} (h : d ∈ inside s g) :
    d.path.length ≤ n := by
  rcases mem_inside h with ⟨hd, -⟩ | ⟨-, -, -, p, -, rfl⟩
  · exact hg d hd
  · exact hn

theorem inside_singleton (s : Store) (d : Definition) : inside s [d] = opened s d :=
  List.append_nil _

theorem opened_plain {s : Store} {e : Expr} {m : Attrs Value} (h : s.literalAttrs? e = some m) :
    opened s ⟨[], e⟩ = ofAttrs m := by
  simp only [opened, h, Option.getD_some]

theorem opened_nested {s : Store} {d : Definition} (h : d.path ≠ []) : opened s d = [d] := by
  unfold opened
  split
  · rename_i hp
    exact absurd hp h
  · rfl

theorem inside_append (s : Store) (g g' : List Definition) :
    inside s (g ++ g') = inside s g ++ inside s g' := List.flatMap_append

theorem inside_eq_self {s : Store} {g : List Definition} (h : ∀ d ∈ g, d.path ≠ []) :
    inside s g = g := by
  induction g with
  | nil => rfl
  | cons d g ih =>
    rw [inside, List.flatMap_cons, opened_nested (h d List.mem_cons_self)]
    exact congrArg (d :: ·) (ih fun d' hd' => h d' (List.mem_cons_of_mem d hd'))

/-! ### Definitions that go together -/

/-- The definitions of one attribute go together: there is one plain value, or the first two are
not both plain and every plain value is a literal set. Values are forced only if `may` allows
it. -/
def Joins (s : Store) (may : Prop) (g : List Definition) : Prop :=
  (∃ e, alone? g = some e) ∨
    (¬ Twice g ∧ ∀ d ∈ g, d.path = [] → may ∧ ∃ m, s.literalAttrs? d.value = some m)

/-- Definitions go together at every level. -/
inductive Compatible (s : Store) (may : Prop) : List Definition → Prop
  | intro {ds : List Definition} (joins : ∀ k, Joins s may (under k ds))
      (nested : ∀ k, Nested (under k ds) → Compatible s may (inside s (under k ds))) :
      Compatible s may ds

/-- An attribute has a definition inside it. -/
def Opens (g : List Definition) : Prop := ∃ d ∈ g, d.path ≠ []

/-- If an attribute has a definition inside it, its plain values are literals. -/
def Literals (s : Store) (g : List Definition) : Prop :=
  Opens g → ∀ d ∈ g, d.path = [] → s.IsLiteral d.value

/-- At every level only literals have to be merged with definitions inside them. -/
inductive Mergeable (s : Store) : List Definition → Prop
  | intro {ds : List Definition} (literals : ∀ k, Literals s (under k ds))
      (below : ∀ k, Opens (under k ds) → Mergeable s (inside s (under k ds))) : Mergeable s ds

/-- A set is as definitions ask for: an attribute that is defined alone is an unforced thunk of its
value, one that is nested is such a set again, and there is no other. What is inside plain literals
is read off the store `ref`. -/
inductive Laid (ref s : Store) (env : Env) : List Definition → Addr .set → Prop
  | intro {ds : List Definition} {a : Addr .set} {m : Attrs Value} (sub : String → Addr .set)
      (cell : s.sets.get? a = some m) (absent : ∀ k, under k ds = [] → m.get? k = none)
      (leaf : ∀ k e, alone? (under k ds) = some e →
        ∃ t, m.get? k = some (.thunk t) ∧ s.thunks.get? t = some (.unforced env e))
      (node : ∀ k, Nested (under k ds) → m.get? k = some (.set (sub k)))
      (below : ∀ k, Nested (under k ds) → Laid ref s env (inside ref (under k ds)) (sub k)) :
      Laid ref s env ds a

section Joins

variable {s s' : Store} {may : Prop} {g : List Definition}

/-- The plain values of a nested attribute are literal sets. -/
theorem Joins.literal (h : Joins s may g) (hn : Nested g) {d : Definition} (hd : d ∈ g)
    (hp : d.path = []) : may ∧ ∃ m, s.literalAttrs? d.value = some m := by
  rcases h with ⟨e, he⟩ | ⟨-, h⟩
  · rw [hn.2] at he
    cases he
  · exact h d hd hp

/-- Definitions that go together do not start with two plain ones. -/
theorem Joins.not_twice (h : Joins s may g) : ¬ Twice g := by
  rcases h with ⟨e, he⟩ | ⟨ht, -⟩
  · rw [alone?_eq_some.mp he]
    exact id
  · exact ht

/-- Plain definitions of which the first two are not both plain are one at most. -/
theorem alone_of_plain (hp : ∀ d ∈ g, d.path = []) (ht : ¬ Twice g) (hg : g ≠ []) :
    ∃ e, alone? g = some e := by
  rcases g with _ | ⟨⟨p, e⟩, _ | ⟨⟨p', e'⟩, g⟩⟩
  · exact absurd rfl hg
  · cases hp ⟨p, e⟩ (by simp)
    exact ⟨e, rfl⟩
  · cases hp ⟨p, e⟩ (by simp)
    cases hp ⟨p', e'⟩ (by simp)
    exact absurd trivial ht

theorem plain_of_not_opens (h : ¬ Opens g) : ∀ d ∈ g, d.path = [] := by
  intro d hd
  by_contra hne
  exact h ⟨d, hd, hne⟩

/-- A nested attribute has a definition inside it. -/
theorem Joins.opens (h : Joins s may g) (hn : Nested g) : Opens g := by
  by_contra hall
  obtain ⟨e, he⟩ := alone_of_plain (plain_of_not_opens hall) h.not_twice hn.1
  rw [hn.2] at he
  cases he

theorem Joins.extends (h : Joins s may g) (hs : s.Extends s') : Joins s' may g := by
  rcases h with h | ⟨ht, h⟩
  · exact Or.inl h
  · refine Or.inr ⟨ht, fun d hd hp => ?_⟩
    obtain ⟨hm, m, hl⟩ := h d hd hp
    exact ⟨hm, m, hs.literalAttrs? hl⟩

theorem Joins.inside_eq (h : Joins s may g) (hn : Nested g) (hs : s.Extends s') :
    inside s' g = inside s g := by
  refine List.flatMap_congr fun d hd => ?_
  unfold opened
  split
  · rename_i hp
    obtain ⟨-, m, hm⟩ := h.literal hn hd hp
    rw [hm, hs.literalAttrs? hm]
  · rfl

/-- Nothing can go wrong with the first definition, nor with one inside a nested attribute. -/
theorem Joins.append_nested (h : Joins s may g) {d : Definition} (hg : ∀ e, alone? g ≠ some e)
    (hd : d.path ≠ []) : Joins s may (g ++ [d]) := by
  rcases h with ⟨e, he⟩ | ⟨ht, h⟩
  · exact absurd he (hg e)
  · refine Or.inr ⟨fun h' => hd ((twice_append_singleton ht).mp h').2, fun d' hd' hp => ?_⟩
    rcases List.mem_append.mp hd' with hd' | hd'
    · exact h d' hd' hp
    · rw [List.mem_singleton.mp hd'] at hp
      exact absurd hp hd

/-- A plain literal set goes together with the definitions of a nested attribute. -/
theorem Joins.append_plain (h : Joins s may g) {e : Expr} (hn : Nested g) (hmay : may)
    {m : Attrs Value} (he : s.literalAttrs? e = some m) : Joins s may (g ++ [⟨[], e⟩]) := by
  rcases h with ⟨e', he'⟩ | ⟨ht, h⟩
  · rw [hn.2] at he'
    cases he'
  · refine Or.inr ⟨fun h' => ?_, fun d hd hp => ?_⟩
    · obtain ⟨e', he'⟩ := ((twice_append_singleton ht).mp h').1
      rw [hn.2] at he'
      cases he'
    · rcases List.mem_append.mp hd with hd | hd
      · exact h d hd hp
      · rw [List.mem_singleton.mp hd]
        exact ⟨hmay, m, he⟩

/-- A definition inside an attribute goes together with one plain literal set. -/
theorem Joins.alone_nested {e : Expr} (hg : alone? g = some e) {d : Definition}
    (hd : d.path ≠ []) (hmay : may) {m : Attrs Value} (he : s.literalAttrs? e = some m) :
    Joins s may (g ++ [d]) := by
  rw [alone?_eq_some.mp hg]
  have ht : ¬ Twice ([⟨[], e⟩] ++ [d]) := fun h' => hd ((twice_append_singleton id).mp h').2
  refine Or.inr ⟨ht, fun d' hd' hp => ?_⟩
  rcases List.mem_append.mp hd' with hd' | hd'
  · rw [List.mem_singleton.mp hd']
    exact ⟨hmay, m, he⟩
  · rw [List.mem_singleton.mp hd'] at hp
    exact absurd hp hd

/-- The first definitions of those that go together do so too. -/
theorem Joins.of_append {g' : List Definition} (h : Joins s may (g ++ g')) : Joins s may g := by
  rcases h with ⟨e, he⟩ | ⟨ht, h⟩
  · rw [alone?_eq_some] at he
    rcases List.append_eq_singleton_iff.mp he with ⟨rfl, -⟩ | ⟨rfl, -⟩
    · exact Or.inr ⟨fun h => h, fun d hd => nomatch hd⟩
    · exact Or.inl ⟨e, rfl⟩
  · exact Or.inr ⟨fun h' => ht (h'.append g'), fun d hd => h d (List.mem_append_left g' hd)⟩

end Joins

section Literals

variable {s s' : Store} {may : Prop} {g : List Definition}

theorem literals_under {ds : List Definition} (h : ∀ d ∈ ds, s.IsLiteral d.value) (k : String) :
    Literals s (under k ds) := by
  intro _ d hd _
  obtain ⟨d', hd', -, hv⟩ := mem_under.mp hd
  rw [hv]
  exact h d' hd'

theorem Literals.extends (h : Literals s g) (hs : s.Extends s') : Literals s' g :=
  fun ho d hd hp => (h ho d hd hp).extends hs

theorem Literals.of_append {g' : List Definition} (h : Literals s (g ++ g')) : Literals s g := by
  rintro ⟨d, hd, hp⟩ d' hd' hp'
  exact h ⟨d, List.mem_append_left g' hd, hp⟩ d' (List.mem_append_left g' hd') hp'

/-- Whether definitions go together is known in every earlier store in which their literals are
known. -/
theorem Joins.of_extends (hs : s.Extends s') (h : Literals s g) (hj : Joins s' may g) :
    Joins s may g := by
  rcases hj with hj | ⟨ht, hj⟩
  · exact Or.inl hj
  · by_cases ho : Opens g
    · refine Or.inr ⟨ht, fun d hd hp => ?_⟩
      rw [← (h ho d hd hp).literalAttrs?_eq hs]
      exact hj d hd hp
    · by_cases hg : g = []
      · subst hg
        exact Or.inr ⟨ht, fun d hd => nomatch hd⟩
      · exact Or.inl (alone_of_plain (plain_of_not_opens ho) ht hg)

end Literals

theorem Compatible.joins {s : Store} {may : Prop} {ds : List Definition}
    (h : Compatible s may ds) (k : String) : Joins s may (under k ds) := by
  cases h with
  | intro joins nested => exact joins k

theorem Compatible.nested {s : Store} {may : Prop} {ds : List Definition}
    (h : Compatible s may ds) {k : String} (hk : Nested (under k ds)) :
    Compatible s may (inside s (under k ds)) := by
  cases h with
  | intro joins nested => exact nested k hk

/-- What is inside plain literals may be read off any store in which they are known. -/
theorem Laid.ref {s s₁ s₂ s' : Store} {may : Prop} {env : Env} {ds : List Definition}
    {a : Addr .set} (hc : Compatible s may ds) (h₁ : s.Extends s₁) (h₂ : s.Extends s₂)
    (h : Laid s₁ s' env ds a) : Laid s₂ s' env ds a := by
  induction hc generalizing a with
  | intro joins nested ih =>
    obtain ⟨sub, cell, absent, leaf, node, below⟩ := h
    refine .intro sub cell absent leaf node fun k hk => ?_
    have hb := below k hk
    rw [(joins k).inside_eq hk h₁] at hb
    rw [(joins k).inside_eq hk h₂]
    exact ih k hk hb

/-- A set stays as it is laid out as long as its cells are kept. -/
theorem Laid.mono {ref s s' : Store} {env : Env} {ds : List Definition} {a : Addr .set}
    (h : Laid ref s env ds a)
    (ht : ∀ {t c}, s.thunks.get? t = some c → s'.thunks.get? t = some c)
    (hs : ∀ {a m}, s.sets.get? a = some m → s'.sets.get? a = some m) : Laid ref s' env ds a := by
  induction h with
  | intro sub cell absent leaf node below ih =>
    refine .intro sub (hs cell) absent (fun k e he => ?_) node ih
    obtain ⟨t, hk, hc⟩ := leaf k e he
    exact ⟨t, hk, ht hc⟩

end Definition

end NixKernel
