import NixKernel.Proofs.Less
import NixKernel.Proofs.Path

/-!
Equality is structural. Two values that are evaluated to the end are equal if they agree on the
outside, and what is inside them is equal in its turn: element by element in lists, name by name in
sets. The operator compares the sizes of two sets and looks for the attributes of the first in the
second only; since no name is bound twice, that is enough for it to be symmetric.
-/

namespace NixKernel

theorem Value.typeName_of_isAtom {x : Value} (hx : x.isAtom = true) :
    x.typeName ≠ .list ∧ x.typeName ≠ .set := by
  cases x <;> simp_all [isAtom, typeName]

/-! ### Agreement on the outside -/

namespace Store

variable {s : Store} {v w x y : Value} {d e : Datum}

/-- Two values agree, given which values inside them do: they are the same number, truth value,
text or function, both null, or paths that are written the same; or they are lists of the same
length with elements that agree, or sets of the same names with values that agree under each. -/
def Agree (s : Store) (R : Value → Value → Prop) (v w : Value) : Prop :=
  match s.resolve v, s.resolve w with
  | .int m, .int n => m = n
  | .bool a, .bool b => a = b
  | .null, .null => True
  | .str t, .str u => t = u
  | .path p, .path q => p.text = q.text
  | .lambda f, .lambda g => f = g
  | .list a, .list b => List.Forall₂ R (s.list a) (s.list b)
  | .set a, .set b => (s.attrs a).keys = (s.attrs b).keys ∧
      ∀ k x y, (s.attrs a).get? k = some x → (s.attrs b).get? k = some y → R x y
  | _, _ => False

/-- The operator finds two values equal, without any effect. -/
def Equals (s : Store) (v w : Value) : Prop :=
  (Comp.comparison .eq v w).Ends s (.ok (.bool true)) s

/-- Both operators give an answer, and what they answer is whether the data are the same. -/
theorem Unfolds.comparison (hv : s.Unfolds v d) (hw : s.Unfolds w e) :
    ∃ b : Bool, (Comp.comparison .eq v w).Ends s (.ok (.bool b)) s ∧
      (Comp.comparison .ne v w).Ends s (.ok (.bool !b)) s ∧ (b = true ↔ d = e) := by
  obtain ⟨b, hb, hiff⟩ := s.recognizes d v w e hv hw
  have hne : (Comp.comparison .ne v w).Ends s (.ok (.bool !b)) s :=
    hb.bind (Comp.ends_pure.mpr ⟨rfl, rfl⟩)
  exact ⟨b, Comp.comparison_eq_ends hb, hne, hiff⟩

theorem Unfolds.equals_iff (hv : s.Unfolds v d) (hw : s.Unfolds w e) : s.Equals v w ↔ d = e := by
  obtain ⟨b, hb, -, hiff⟩ := hv.comparison hw
  rw [← hiff]
  constructor
  · intro h
    cases (h.unique hb).1
    rfl
  · rintro rfl
    exact hb

/-! ### Agreement of data -/

/-- Values that agree are of the same type. -/
theorem Agree.typeName {R : Value → Value → Prop} (h : s.Agree R v w) :
    s.typeName v = s.typeName w := by
  unfold Agree at h
  unfold Store.typeName
  generalize s.resolve v = x at h ⊢
  generalize s.resolve w = y at h ⊢
  cases x <;> cases y <;> first | rfl | exact h.elim

theorem agree_iff_of_ne (hv : s.Forced v x) (hw : s.Forced w y) (hxy : x.typeName ≠ y.typeName)
    (hde : d ≠ e) : s.Agree s.Equals v w ↔ d = e := by
  refine iff_of_false (fun h => hxy ?_) hde
  have htype := h.typeName
  rwa [Store.typeName, Store.typeName, hv.resolve, hw.resolve] at htype

theorem agree_atom (hv : s.Forced v x) (hw : s.Forced w y) (hx : x.isAtom = true)
    (hy : y.isAtom = true) (R : Value → Value → Prop) : s.Agree R v w ↔ x = y := by
  unfold Agree
  rw [hv.resolve, hw.resolve]
  cases x <;> cases y <;> simp_all [Value.isAtom, Path.text_inj]

theorem forall₂_equals_iff {xs ys : List Value} {ds es : List Datum}
    (hx : List.Forall₂ s.Unfolds xs ds) (hy : List.Forall₂ s.Unfolds ys es) :
    List.Forall₂ s.Equals xs ys ↔ ds = es := by
  induction hx generalizing ys es with
  | nil => cases hy <;> simp
  | cons hd hds ih =>
    cases hy with
    | nil => simp
    | cons he hes => rw [List.forall₂_cons, hd.equals_iff he, ih hes, List.cons.injEq]

/-- Sets that bind the same names to equal values stand for the same data. -/
theorem attrs_equals_iff {m n : Attrs Value} {items others : List (String × Datum)}
    (hm : List.Forall₂ (Binding s.Unfolds) m.bindings items)
    (hn : List.Forall₂ (Binding s.Unfolds) n.bindings others) :
    (m.keys = n.keys ∧ ∀ k x y, m.get? k = some x → n.get? k = some y → s.Equals x y) ↔
      items = others := by
  let m' : Attrs Datum := ⟨items, ascending_alike hm m.ascending⟩
  let n' : Attrs Datum := ⟨others, ascending_alike hn n.ascending⟩
  have hkeys : m.keys = n.keys ↔ m'.keys = n'.keys := by
    rw [show m.keys = m'.keys from names_alike hm, show n.keys = n'.keys from names_alike hn]
  have hmaps : items = others ↔ m' = n' := (Attrs.mk.injEq ..).symm ▸ Iff.rfl
  rw [hmaps, Attrs.eq_iff_get?, hkeys]
  refine and_congr_right fun _ => forall_congr' fun k => ?_
  -- a name is bound on the side of the values if it is on the side of the data
  have hmk : Option.Rel s.Unfolds (m.get? k) (m'.get? k) := lookup_alike hm k
  have hnk : Option.Rel s.Unfolds (n.get? k) (n'.get? k) := lookup_alike hn k
  rcases rel_cases hmk with ⟨hx, hd⟩ | ⟨x, d, hx, hd, hxd⟩
  · simp [hx, hd]
  · rcases rel_cases hnk with ⟨hy, he⟩ | ⟨y, e, hy, he, hye⟩
    · simp [hy, he]
    · simp [hx, hd, hy, he, hxd.equals_iff hye]

/-- **Values agree if they stand for the same datum.** -/
theorem Unfolds.agree_iff (hv : s.Unfolds v d) (hw : s.Unfolds w e) :
    s.Agree s.Equals v w ↔ d = e := by
  cases hv with
  | atom hx h =>
    cases hw with
    | atom hy h' => rw [agree_atom h h' hx hy, Datum.atom.injEq]
    | list h' => exact agree_iff_of_ne h h' (Value.typeName_of_isAtom hx).1 (by simp)
    | set h' => exact agree_iff_of_ne h h' (Value.typeName_of_isAtom hx).2 (by simp)
  | list h ha inner =>
    cases hw with
    | atom hy h' => exact agree_iff_of_ne h h' (Value.typeName_of_isAtom hy).1.symm (by simp)
    | list h' hb inner' =>
      rw [Agree, h.resolve, h'.resolve]
      simp only [Store.list, ha, hb, Option.getD_some]
      rw [forall₂_equals_iff inner inner', Datum.list.injEq]
    | set h' => exact agree_iff_of_ne h h' (by simp [Value.typeName]) (by simp)
  | set h ha names inner =>
    cases hw with
    | atom hy h' => exact agree_iff_of_ne h h' (Value.typeName_of_isAtom hy).2.symm (by simp)
    | list h' => exact agree_iff_of_ne h h' (by simp [Value.typeName]) (by simp)
    | set h' hb names' inner' =>
      rw [Agree, h.resolve, h'.resolve]
      simp only [Store.attrs, ha, hb, Option.getD_some]
      rw [attrs_equals_iff (binding_iff.mpr ⟨names, inner⟩) (binding_iff.mpr ⟨names', inner'⟩),
        Datum.set.injEq]

end Store

/-- **Equality is structural.** For values that are evaluated to the end and hold no floating point
number, `==` always answers and `!=` answers the opposite, both without any effect. The answer is
that they are equal if and only if they are of the same type and agree, where what is inside them
agrees if it is found equal itself. So every value is equal to itself, and to be equal is symmetric
and transitive. -/
theorem equal_structural (s : Store) (x y z : Value)
    (hx : s.Evaluated x) (hy : s.Evaluated y) (hz : s.Evaluated z)
    (hx' : s.Throughout (·.typeName ≠ .float) x) (hy' : s.Throughout (·.typeName ≠ .float) y)
    (hz' : s.Throughout (·.typeName ≠ .float) z) :
    (∃ b : Bool, (Comp.comparison .eq x y).Ends s (.ok (.bool b)) s ∧
      (Comp.comparison .ne x y).Ends s (.ok (.bool !b)) s ∧
      (b = true ↔ s.typeName x = s.typeName y ∧ s.Agree s.Equals x y)) ∧
    s.Equals x x ∧ (s.Equals x y → s.Equals y x) ∧
    (s.Equals x y → s.Equals y z → s.Equals x z) := by
  obtain ⟨d, hd⟩ := Store.exists_unfolds_iff.mpr ⟨hx, hx'⟩
  obtain ⟨e, he⟩ := Store.exists_unfolds_iff.mpr ⟨hy, hy'⟩
  obtain ⟨f, hf⟩ := Store.exists_unfolds_iff.mpr ⟨hz, hz'⟩
  obtain ⟨b, heq, hne, hiff⟩ := hd.comparison he
  have hagree : s.typeName x = s.typeName y ∧ s.Agree s.Equals x y ↔ d = e := by
    rw [← hd.agree_iff he]
    exact and_iff_right_of_imp Store.Agree.typeName
  refine ⟨⟨b, heq, hne, hiff.trans hagree.symm⟩, ?_, ?_, ?_⟩
  · rw [hd.equals_iff hd]
  · rw [hd.equals_iff he, he.equals_iff hd]
    exact Eq.symm
  · rw [hd.equals_iff he, he.equals_iff hf, hd.equals_iff hf]
    exact Eq.trans

/-- A store with three sets of the same attributes, a list and a function: the lists hold the number
one, a path that is written in two ways, and null, which is a forced thunk in one of them. -/
def Store.mirrors : Store :=
  { Store.initial with
    thunks := ⟨#[.forced .null]⟩
    lists := ⟨#[[], [.int 1, .path (.ofString "/a//b/."), .thunk ⟨0⟩],
      [.int 1, .path (.ofString "/c/../a/b"), .null]]⟩
    sets := ⟨#[.empty, builtinBindings, globalBindings,
      .ofList [("items", .list ⟨1⟩), ("f", .lambda .typeOf)],
      .ofList [("f", .lambda .typeOf), ("items", .list ⟨2⟩)],
      .ofList [("f", .lambda .typeOf), ("items", .list ⟨1⟩)]]⟩ }

/-- The sets are equal in pairs, and they agree. -/
theorem equal_structural_mirrors :
    Store.mirrors.Equals (.set ⟨4⟩) (.set ⟨3⟩) ∧ Store.mirrors.Equals (.set ⟨3⟩) (.set ⟨5⟩) ∧
    Store.mirrors.Agree Store.mirrors.Equals (.set ⟨3⟩) (.set ⟨4⟩) := by
  have hatom : ∀ x : Value, (hx : x.isAtom = true) → Store.mirrors.Unfolds x (.atom x hx) :=
    fun x hx => .atom hx (.self (by cases x <;> first | rfl | cases hx))
  have hnull : Store.mirrors.Unfolds (.thunk ⟨0⟩) (.atom .null rfl) :=
    .atom rfl (Store.forced_thunk rfl)
  have hone : Store.mirrors.Unfolds (.list ⟨1⟩) _ := .list (.self rfl) rfl
    (.cons (hatom (.int 1) rfl) (.cons (hatom (.path (.ofString "/a//b/.")) rfl)
      (.cons hnull .nil)))
  have htwo : Store.mirrors.Unfolds (.list ⟨2⟩) _ := .list (.self rfl) rfl
    (.cons (hatom (.int 1) rfl) (.cons (hatom (.path (.ofString "/c/../a/b")) rfl)
      (.cons (hatom .null rfl) .nil)))
  have hfun := hatom (.lambda .typeOf) rfl
  have hx : Store.mirrors.Unfolds (.set ⟨3⟩) (.set [("f", _), ("items", _)]) :=
    .set (.self rfl) rfl rfl (.cons hfun (.cons hone .nil))
  have hy : Store.mirrors.Unfolds (.set ⟨4⟩) (.set [("f", _), ("items", _)]) :=
    .set (.self rfl) rfl rfl (.cons hfun (.cons htwo .nil))
  have hz : Store.mirrors.Unfolds (.set ⟨5⟩) (.set [("f", _), ("items", _)]) :=
    .set (.self rfl) rfl rfl (.cons hfun (.cons hone .nil))
  obtain ⟨⟨b, hb, -, hiff⟩, -, hsymm, htrans⟩ := equal_structural .mirrors (.set ⟨3⟩) (.set ⟨4⟩)
    (.set ⟨5⟩) hx.evaluated.1 hy.evaluated.1 hz.evaluated.1 hx.evaluated.2 hy.evaluated.2
    hz.evaluated.2
  have hxy : Store.mirrors.Equals (.set ⟨3⟩) (.set ⟨4⟩) := ⟨10, rfl⟩
  have hyz : Store.mirrors.Equals (.set ⟨4⟩) (.set ⟨5⟩) := ⟨10, rfl⟩
  cases (hxy.unique hb).1
  exact ⟨hsymm hxy, htrans hxy hyz, (hiff.mp rfl).2⟩

end NixKernel
