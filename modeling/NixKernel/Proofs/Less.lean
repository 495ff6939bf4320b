import NixKernel.Proofs.Datum

/-!
The order of data. Two numbers, two strings or two lists can be compared, lists by the first pair of
elements that differ, and whether a comparison fails does not depend on its direction. What can be
compared is in a strict total order, as long as no floating point number is involved.
-/

namespace NixKernel

/-! ### Three-way comparison -/

/-- How two atoms are ordered, if they can be compared. -/
def Value.order? : Value → Value → Option Ordering
  | .int m, .int n => some (compare m.toInt n.toInt)
  | .str s, .str t => some (Text.compare s t)
  | _, _ => none

namespace Datum

/-- Two nulls, or twice the same truth value. -/
def isSameConstant : Datum → Datum → Bool
  | .atom x _, .atom y _ => x.isSameConstant y
  | _, _ => false

mutual

/-- How two data are ordered, if they can be compared. -/
def order? : Datum → Datum → Option Ordering
  | .atom x _, .atom y _ => x.order? y
  | .list ds, .list es => orderItems? ds es
  | _, _ => none

/-- The first pair of elements that are not the same decides, and else the lengths do. -/
def orderItems? : List Datum → List Datum → Option Ordering
  | [], [] => some .eq
  | [], _ :: _ => some .lt
  | _ :: _, [] => some .gt
  | d :: ds, e :: es =>
    match if d.isSameConstant e then some .eq else d.order? e with
    | some .eq => orderItems? ds es
    | o => o

end

/-- How two elements of lists are ordered: constants can be compared there if they are the same. -/
def orderItem? (d e : Datum) : Option Ordering :=
  if d.isSameConstant e then some .eq else d.order? e

theorem orderItems?_cons (d e : Datum) (ds es : List Datum) :
    orderItems? (d :: ds) (e :: es) = match d.orderItem? e with
      | some .eq => orderItems? ds es
      | o => o := by
  rw [orderItems?, orderItem?]

end Datum

/-! ### The laws of the order -/

theorem Text.compare_swap (s t : String) : (compare s t).swap = compare t s := by
  unfold compare
  by_cases h : s = t
  · simp [h, Before.irrefl]
  · rcases before_or_before h with hlt | hlt
    · simp [Ne.symm h, hlt, hlt.asymm]
    · simp [h, hlt, hlt.asymm]

namespace Value

variable {x y z : Value}

theorem order?_swap (x y : Value) : y.order? x = (x.order? y).map Ordering.swap := by
  cases x <;> cases y <;> simp [order?, Int.compare_swap, Text.compare_swap]

theorem eq_of_order? (h : x.order? y = some .eq) : x = y := by
  cases x <;> cases y <;>
    simp_all [order?, Text.compare_eq_eq, Int64.toInt_inj]

theorem order?_eq_lt : x.order? y = some .lt ↔
    (∃ m n, x = .int m ∧ y = .int n ∧ m < n) ∨
      ∃ s t, x = .str s ∧ y = .str t ∧ Text.Before s t := by
  cases x <;> cases y <;>
    simp [order?, Int.compare_eq_lt, Int64.lt_iff_toInt_lt, Text.compare_eq_lt]

theorem order?_trans (h : x.order? y = some .lt) (h' : y.order? z = some .lt) :
    x.order? z = some .lt := by
  rw [order?_eq_lt] at h h' ⊢
  rcases h with ⟨m, n, rfl, rfl, h⟩ | ⟨s, t, rfl, rfl, h⟩
  · obtain ⟨_, k, ⟨⟩, rfl, hk⟩ := h'.resolve_right (by simp)
    exact .inl ⟨m, k, rfl, rfl, Int64.lt_trans h hk⟩
  · obtain ⟨_, u, ⟨⟩, rfl, hu⟩ := h'.resolve_left (by simp)
    exact .inr ⟨s, u, rfl, rfl, h.trans hu⟩

end Value

namespace Datum

variable {d e f : Datum}

theorem isSameConstant_comm (d e : Datum) : d.isSameConstant e = e.isSameConstant d := by
  cases d <;> cases e <;> simp [isSameConstant, Value.isSameConstant_comm]

/-- Constants that are the same are not in any order outside of lists. -/
theorem order?_of_isSameConstant (h : d.isSameConstant e = true) : d = e ∧ d.order? e = none := by
  cases d <;> cases e <;> try cases h
  rename_i x hx y hy
  cases x <;> cases y <;> simp_all [isSameConstant, Value.isSameConstant, order?, Value.order?]

theorem orderItem?_eq_lt : d.orderItem? e = some .lt ↔ d.order? e = some .lt := by
  unfold orderItem?
  split
  · rename_i h
    rw [(order?_of_isSameConstant h).2]
    simp
  · rfl

theorem orderItem?_swap (h : e.order? d = (d.order? e).map Ordering.swap) :
    e.orderItem? d = (d.orderItem? e).map Ordering.swap := by
  unfold orderItem?
  rw [isSameConstant_comm e d]
  split
  · rfl
  · exact h

theorem eq_of_orderItem? (h : d.order? e = some .eq → d = e) (heq : d.orderItem? e = some .eq) :
    d = e := by
  unfold orderItem? at heq
  split at heq
  · rename_i hsame
    exact (order?_of_isSameConstant hsame).1
  · exact h heq

/-! Elements one by one -/

theorem orderItems?_swap {ds : List Datum} (es : List Datum)
    (h : ∀ d ∈ ds, ∀ e, e.order? d = (d.order? e).map Ordering.swap) :
    orderItems? es ds = (orderItems? ds es).map Ordering.swap := by
  induction ds generalizing es with
  | nil => cases es <;> simp [orderItems?]
  | cons d ds ih =>
    cases es with
    | nil => simp [orderItems?]
    | cons e es =>
      obtain ⟨hd, hds⟩ := List.forall_mem_cons.mp h
      rw [orderItems?_cons, orderItems?_cons, orderItem?_swap (hd e), ih es hds]
      match d.orderItem? e with
      | none | some .lt | some .eq | some .gt => rfl

/-- **Swapping.** -/
theorem order?_swap (d e : Datum) : e.order? d = (d.order? e).map Ordering.swap := by
  induction d generalizing e with
  | atom x hx =>
    cases e with
    | atom y hy => simpa [order?] using x.order?_swap y
    | _ => simp [order?]
  | list ds ih =>
    cases e with
    | list es => simpa [order?] using orderItems?_swap es ih
    | _ => simp [order?]
  | set items => cases e <;> simp [order?]

theorem eq_of_orderItems? {ds es : List Datum}
    (h : ∀ d ∈ ds, ∀ e, d.order? e = some .eq → d = e) (heq : orderItems? ds es = some .eq) :
    ds = es := by
  induction ds generalizing es with
  | nil =>
    cases es with
    | nil => rfl
    | cons e es => cases heq
  | cons d ds ih =>
    cases es with
    | nil => cases heq
    | cons e es =>
      obtain ⟨hd, hds⟩ := List.forall_mem_cons.mp h
      rw [orderItems?_cons] at heq
      split at heq
      · rename_i hde
        rw [eq_of_orderItem? (hd e) hde, ih hds heq]
      · rename_i hne
        exact absurd heq hne

theorem eq_of_order? (h : d.order? e = some .eq) : d = e := by
  induction d generalizing e with
  | atom x hx =>
    cases e with
    | atom y hy =>
      obtain rfl := Value.eq_of_order? (by simpa [order?] using h)
      rfl
    | _ => simp [order?] at h
  | list ds ih =>
    cases e with
    | list es => rw [eq_of_orderItems? (fun d hd e => ih d hd) (by simpa [order?] using h)]
    | _ => simp [order?] at h
  | set items => cases e <;> simp [order?] at h

/-- Data that can be compared are equal if neither is before the other. -/
theorem order?_eq_some {o : Ordering} (h : d.order? e = some o) : d = e ↔ o = .eq := by
  constructor
  · rintro rfl
    have hswap := order?_swap d d
    rw [h] at hswap
    cases o with
    | eq => rfl
    | lt | gt => cases hswap
  · rintro rfl
    exact eq_of_order? h

/-- The first pair of elements is in order, or it is passed over and the rest is. -/
theorem orderItems?_cons_eq_lt {ds es : List Datum} :
    orderItems? (d :: ds) (e :: es) = some .lt ↔
      d.order? e = some .lt ∨ d.orderItem? e = some .eq ∧ orderItems? ds es = some .lt := by
  rw [orderItems?_cons, ← orderItem?_eq_lt]
  match d.orderItem? e with
  | none | some .lt | some .eq | some .gt => simp

theorem orderItems?_trans {ds es fs : List Datum}
    (h : ∀ d ∈ ds, ∀ e f, d.order? e = some .lt → e.order? f = some .lt → d.order? f = some .lt)
    (hde : orderItems? ds es = some .lt) (hef : orderItems? es fs = some .lt) :
    orderItems? ds fs = some .lt := by
  induction ds generalizing es fs with
  | nil =>
    cases fs with
    | nil => cases es <;> cases hef
    | cons f fs => rw [orderItems?]
  | cons d ds ih =>
    cases es with
    | nil => cases hde
    | cons e es =>
      cases fs with
      | nil => cases hef
      | cons f fs =>
        obtain ⟨hd, hds⟩ := List.forall_mem_cons.mp h
        rw [orderItems?_cons_eq_lt] at hde hef ⊢
        rcases hde with hde | ⟨hde, hrest⟩
        · rcases hef with hef | ⟨hef, -⟩
          · exact .inl (hd e f hde hef)
          · exact .inl (eq_of_orderItem? eq_of_order? hef ▸ hde)
        · obtain rfl := eq_of_orderItem? eq_of_order? hde
          exact hef.imp_right fun ⟨hef, hrest'⟩ => ⟨hef, ih hds hrest hrest'⟩

/-- **The order is transitive.** -/
theorem order?_trans (h : d.order? e = some .lt) (h' : e.order? f = some .lt) :
    d.order? f = some .lt := by
  induction d generalizing e f with
  | atom x hx =>
    cases e with
    | atom y hy =>
      cases f with
      | atom z hz =>
        rw [order?] at h h' ⊢
        exact Value.order?_trans h h'
      | _ => simp [order?] at h'
    | _ => simp [order?] at h
  | list ds ih =>
    cases e with
    | list es =>
      cases f with
      | list fs =>
        rw [order?] at h h' ⊢
        exact orderItems?_trans (fun d hd e f => ih d hd) h h'
      | _ => simp [order?] at h'
    | _ => simp [order?] at h
  | set items => cases e <;> simp [order?] at h

end Datum

/-! ### Comparisons -/

/-- Values that are no floating point numbers are compared as they are ordered. -/
theorem Value.plainLess_eq {x y : Value} (hx : x.typeName ≠ .float) (hy : y.typeName ≠ .float) :
    x.plainLess y = match x.order? y with
      | some o => .ok (o == .lt)
      | none => .error (.incomparable x.typeName y.typeName) := by
  have hint : ∀ m n : Int64, (compare m.toInt n.toInt == .lt) = decide (m < n) := by
    intro m n
    rw [Bool.eq_iff_iff]
    simp [Int.compare_eq_lt, Int64.lt_iff_toInt_lt]
  have hstr : ∀ s t : String, (Text.compare s t == .lt) = decide (Text.Before s t) := by
    intro s t
    rw [Bool.eq_iff_iff]
    simp [Text.compare_eq_lt]
  cases x <;> cases y <;> simp_all [plainLess, order?, number?, typeName]

namespace Comp

variable {s : Store} {v w x y : Value} {c : Comp Bool} {o : Option Ordering}

/-- A computation finds out whether the order is upwards, without any effect; it fails if there is
no order. -/
def Orders (c : Comp Bool) (o : Option Ordering) (s : Store) : Prop :=
  match o with
  | some o => c.Ends s (.ok (o == .lt)) s
  | none => ∃ e, c.Ends s (.error e) s

theorem Orders.after {α : Type} {d : Comp α} {f : α → Comp Bool} {a : α}
    (hd : d.Ends s (.ok a) s) (h : (f a).Orders o s) : (d >>= f).Orders o s := by
  match o, h with
  | some _, h => exact hd.bind h
  | none, ⟨e, h⟩ => exact ⟨e, hd.bind h⟩

theorem Orders.request (h : (Comp.less x y).Orders o s) : (request (.less x y)).Orders o s := by
  have key : ∀ r, (Comp.less x y).Ends s r s → (Comp.request (.less x y)).Ends s r s :=
    fun r hr => ends_request.mpr ((Request.ends_run rfl).mpr ⟨s, hr, rfl⟩)
  match o, h with
  | some _, h => exact key _ h
  | none, ⟨e, h⟩ => exact ⟨e, key _ h⟩

theorem Orders.plain (hx : x.typeName ≠ .float) (hy : y.typeName ≠ .float)
    (h : ¬ ∃ a b, x = .list a ∧ y = .list b) : (Comp.less x y).Orders (x.order? y) s := by
  rw [less_eq_plainLess h, Value.plainLess_eq hx hy]
  cases x.order? y with
  | none => exact ⟨_, ends_refuse.mpr ⟨rfl, rfl⟩⟩
  | some o => exact ends_pure.mpr ⟨rfl, rfl⟩

end Comp

/-! ### Values and their data -/

namespace Datum

variable {x y : Value} {d e : Datum}

theorem Heads.isSameConstant (hd : d.Heads x) (he : e.Heads y) :
    x.isSameConstant y = d.isSameConstant e := by
  match d, e with
  | .atom .., .atom .. => rw [hd, he, Datum.isSameConstant]
  | .list _, _ | .set _, _ =>
    obtain ⟨a, rfl⟩ := hd
    rfl
  | .atom .., .list _ | .atom .., .set _ =>
    obtain ⟨a, rfl⟩ := he
    cases x <;> rfl

theorem Heads.eq_list {a : Addr .list} (h : d.Heads (.list a)) : ∃ ds, d = .list ds := by
  match d with
  | .atom y hy =>
    cases h
    cases hy
  | .list ds => exact ⟨ds, rfl⟩
  | .set _ =>
    obtain ⟨b, hb⟩ := h
    cases hb

/-- Data that are not both lists are ordered as their heads are. -/
theorem Heads.order? (hd : d.Heads x) (he : e.Heads y) (h : ¬ ∃ a b, x = .list a ∧ y = .list b) :
    d.order? e = x.order? y := by
  match d, e with
  | .atom .., .atom .. => rw [hd, he, Datum.order?]
  | .list _, .list _ =>
    obtain ⟨a, rfl⟩ := hd
    obtain ⟨b, rfl⟩ := he
    exact absurd ⟨a, b, rfl, rfl⟩ h
  | .list _, .atom .. | .list _, .set _ | .set _, _ =>
    obtain ⟨a, rfl⟩ := hd
    simp [Datum.order?, Value.order?]
  | .atom .., .list _ | .atom .., .set _ =>
    obtain ⟨a, rfl⟩ := he
    simp [Datum.order?, Value.order?]

end Datum

namespace Store

variable {s : Store} {d e : Datum}

/-- Values that stand for two data are compared as the data are ordered. -/
def Compares (s : Store) (d e : Datum) : Prop :=
  ∀ v w x y, s.Unfolds v d → s.Unfolds w e → s.Forced v x → s.Forced w y →
    (Comp.request (.less x y)).Orders (d.order? e) s

/-- A pair of elements and what is behind it. -/
theorem Compares.lessItems_cons {x y : Value} {xs ys : List Value} {ds es : List Datum}
    (hx : s.Unfolds x d) (hy : s.Unfolds y e) (hde : s.Compares d e) (hed : s.Compares e d)
    (hrest : (Comp.lessItems xs ys).Orders (Datum.orderItems? ds es) s) :
    (Comp.lessItems (x :: xs) (y :: ys)).Orders (Datum.orderItems? (d :: ds) (e :: es)) s := by
  obtain ⟨a, ha, hd⟩ := hx.forced
  obtain ⟨b, hb, he⟩ := hy.forced
  have hforth := hde x y a b hx hy ha hb
  have hback := hed y x b a hy hx hb ha
  refine .after (Comp.Stays.forceBoth ha hb).ends ?_
  dsimp only
  rw [hd.isSameConstant he, Datum.orderItems?_cons, Datum.orderItem?]
  split
  · exact hrest
  · -- the order the other way is known too, so the second comparison does not fail
    rw [Datum.order?_swap d e] at hback
    match d.order? e, hforth, hback with
    | none, ⟨err, h⟩, _ => exact ⟨err, h.bind_error⟩
    | some .lt, h, _ => exact h.bind (Comp.ends_pure.mpr ⟨rfl, rfl⟩)
    | some .gt, h, h' => exact h.bind (h'.attempt.bind (Comp.ends_pure.mpr ⟨rfl, rfl⟩))
    | some .eq, h, h' => exact .after h (.after h'.attempt hrest)

theorem Compares.lessItems {xs ys : List Value} {ds es : List Datum}
    (hx : List.Forall₂ s.Unfolds xs ds) (hy : List.Forall₂ s.Unfolds ys es)
    (h : ∀ d ∈ ds, ∀ e ∈ es, s.Compares d e ∧ s.Compares e d) :
    (Comp.lessItems xs ys).Orders (Datum.orderItems? ds es) s := by
  induction hx generalizing ys es with
  | nil => cases hy <;> exact Comp.ends_pure.mpr ⟨rfl, rfl⟩
  | cons hd hds ih =>
    cases hy with
    | nil => exact Comp.ends_pure.mpr ⟨rfl, rfl⟩
    | cons he hes =>
      obtain ⟨hhead, htail⟩ := List.forall_mem_cons.mp h
      obtain ⟨hde, hed⟩ := hhead _ List.mem_cons_self
      refine Compares.lessItems_cons hd he hde hed (ih hes fun d hd e he => ?_)
      exact htail d hd e (List.mem_cons_of_mem _ he)

theorem Compares.list {ds es : List Datum}
    (h : ∀ d ∈ ds, ∀ e ∈ es, s.Compares d e ∧ s.Compares e d) :
    s.Compares (.list ds) (.list es) := by
  intro v w x y hv hw hx hy
  cases hv with
  | list hv ha inner =>
    cases hw with
    | list hw hb inner' =>
      cases hx.unique hv
      cases hy.unique hw
      rw [Datum.order?]
      refine .request (.after (Comp.Stays.items ha).ends (.after (Comp.Stays.items hb).ends ?_))
      exact Compares.lessItems inner inner' h

theorem Compares.plain (h : ∀ ds es, d = .list ds → e ≠ .list es) : s.Compares d e := by
  intro v w x y hv hw hx hy
  have hd := hv.heads hx
  have he := hw.heads hy
  have hlists : ¬ ∃ a b, x = .list a ∧ y = .list b := by
    rintro ⟨a, b, rfl, rfl⟩
    obtain ⟨ds, hds⟩ := hd.eq_list
    obtain ⟨es, hes⟩ := he.eq_list
    exact h ds es hds hes
  rw [hd.order? he hlists]
  exact .request (.plain hd.whnf.2 he.whnf.2 hlists)

/-- **Values are compared as their data are ordered**, one way and the other. -/
theorem compares (s : Store) (d e : Datum) : s.Compares d e ∧ s.Compares e d := by
  induction d generalizing e with
  | list ds ih =>
    cases e with
    | list es =>
      exact ⟨.list fun d hd e _ => ih d hd e, .list fun e _ d hd => (ih d hd e).symm⟩
    | _ => exact ⟨.plain nofun, .plain nofun⟩
  | _ => exact ⟨.plain nofun, .plain nofun⟩

end Store

/-! ### The operator -/

section Operator

variable {s s' : Store} {a b c : Value} {d e f : Datum}

/-- What the operator comes to, if the data can be compared and if they cannot. -/
theorem Comp.comparison_lt_ends (ha : s.Unfolds a d) (hb : s.Unfolds b e) :
    match d.order? e with
    | some o => (comparison .lt a b).Ends s (.ok (.bool (o == .lt))) s
    | none => ∃ err, (comparison .lt a b).Ends s (.error err) s := by
  obtain ⟨x, hx, -⟩ := ha.forced
  obtain ⟨y, hy, -⟩ := hb.forced
  have hforce := (Stays.forceBoth hx hy).ends
  have hless := (s.compares d e).1 a b x y ha hb hx hy
  match d.order? e, hless with
  | some o, h => exact hforce.bind (h.bind (ends_pure.mpr ⟨rfl, rfl⟩))
  | none, ⟨err, h⟩ => exact ⟨err, hforce.bind h.bind_error⟩

theorem Comp.comparison_lt_fails (ha : s.Unfolds a d) (hb : s.Unfolds b e) :
    (∃ err s', (comparison .lt a b).Ends s (.error err) s') ↔ d.order? e = none := by
  have hends := comparison_lt_ends ha hb
  constructor
  · rintro ⟨err, s', herr⟩
    match h : d.order? e, hends with
    | some o, hends => cases (herr.unique hends).1
    | none, _ => rfl
  · intro h
    rw [h] at hends
    obtain ⟨err, herr⟩ := hends
    exact ⟨err, s, herr⟩

theorem Comp.comparison_lt_true (ha : s.Unfolds a d) (hb : s.Unfolds b e) :
    (∃ s', (comparison .lt a b).Ends s (.ok (.bool true)) s') ↔ d.order? e = some .lt := by
  have hends := comparison_lt_ends ha hb
  constructor
  · rintro ⟨s', htrue⟩
    match h : d.order? e, hends with
    | some .lt, _ => rfl
    | some .eq, hends | some .gt, hends => cases (htrue.unique hends).1
    | none, ⟨err, hends⟩ => cases (htrue.unique hends).1
  · intro h
    rw [h] at hends
    exact ⟨s, hends⟩

theorem Comp.comparison_eq_ends {p : Bool} (h : (request (.equal a b)).Ends s (.ok p) s) :
    (comparison .eq a b).Ends s (.ok (.bool p)) s :=
  h.bind (ends_pure.mpr ⟨rfl, rfl⟩)

end Operator

/-- **The order is strict and total on what can be compared.** For values that are evaluated to the
end and hold no floating point number, whether a comparison fails does not depend on its direction;
if it does not fail, exactly one of less, equal and greater holds; and less is transitive, where the
third comparison succeeds if the first two have found what they ask. -/
theorem less_strict_total (s : Store) (a b c : Value)
    (ha : s.Evaluated a) (hb : s.Evaluated b) (hc : s.Evaluated c)
    (ha' : s.Throughout (·.typeName ≠ .float) a) (hb' : s.Throughout (·.typeName ≠ .float) b)
    (hc' : s.Throughout (·.typeName ≠ .float) c) :
    ((∃ err s', (Comp.comparison .lt a b).Ends s (.error err) s') ↔
      ∃ err s', (Comp.comparison .lt b a).Ends s (.error err) s') ∧
    ((¬ ∃ err s', (Comp.comparison .lt a b).Ends s (.error err) s') →
      ∃ x y z : Bool, (Comp.comparison .lt a b).Ends s (.ok (.bool x)) s ∧
        (Comp.comparison .eq a b).Ends s (.ok (.bool y)) s ∧
        (Comp.comparison .lt b a).Ends s (.ok (.bool z)) s ∧ [x, y, z].count true = 1) ∧
    ((∃ s', (Comp.comparison .lt a b).Ends s (.ok (.bool true)) s') →
      (∃ s', (Comp.comparison .lt b c).Ends s (.ok (.bool true)) s') →
      (Comp.comparison .lt a c).Ends s (.ok (.bool true)) s) := by
  -- the three values stand for data, on which the order is a function
  obtain ⟨d, hd⟩ := Store.exists_unfolds_iff.mpr ⟨ha, ha'⟩
  obtain ⟨e, he⟩ := Store.exists_unfolds_iff.mpr ⟨hb, hb'⟩
  obtain ⟨f, hf⟩ := Store.exists_unfolds_iff.mpr ⟨hc, hc'⟩
  refine ⟨?_, ?_, ?_⟩
  · rw [Comp.comparison_lt_fails hd he, Comp.comparison_lt_fails he hd, Datum.order?_swap d e]
    simp
  · rw [Comp.comparison_lt_fails hd he]
    intro hsome
    obtain ⟨o, ho⟩ := Option.ne_none_iff_exists'.mp hsome
    obtain ⟨y, hy, hiff⟩ := s.recognizes d a b e hd he
    have hforth := Comp.comparison_lt_ends hd he
    have hback := Comp.comparison_lt_ends he hd
    rw [Datum.order?_swap d e, ho] at hback
    rw [ho] at hforth
    refine ⟨_, y, _, hforth, Comp.comparison_eq_ends hy, hback, ?_⟩
    have hyo : y = (o == .eq) := by
      rw [Bool.eq_iff_iff, hiff, Datum.order?_eq_some ho, beq_iff_eq]
    subst hyo
    cases o <;> rfl
  · rw [Comp.comparison_lt_true hd he, Comp.comparison_lt_true he hf]
    intro hde hef
    have hends := Comp.comparison_lt_ends hd hf
    rw [Datum.order?_trans hde hef] at hends
    exact hends

/-- A store with three lists in order: `[ 1 [ true "a" ] ]`, `[ 1 [ true "b" ] <LAMBDA> ]` and
`[ 2 null ]`. -/
def Store.ladder : Store :=
  { Store.initial with
    lists := ⟨#[[], [.bool true, .str "a"], [.bool true, .str "b"], [.int 1, .list ⟨1⟩],
      [.int 1, .list ⟨2⟩, .lambda .typeOf], [.int 2, .null]]⟩ }

/-- Constants are passed over, and elements that cannot be compared stand behind those that
decide. -/
theorem less_strict_total_ladder :
    (Comp.comparison .lt (.list ⟨3⟩) (.list ⟨5⟩)).Ends .ladder (.ok (.bool true)) .ladder ∧
    ∃ x y z : Bool,
      (Comp.comparison .lt (.list ⟨3⟩) (.list ⟨4⟩)).Ends .ladder (.ok (.bool x)) .ladder ∧
      (Comp.comparison .eq (.list ⟨3⟩) (.list ⟨4⟩)).Ends .ladder (.ok (.bool y)) .ladder ∧
      (Comp.comparison .lt (.list ⟨4⟩) (.list ⟨3⟩)).Ends .ladder (.ok (.bool z)) .ladder ∧
      [x, y, z].count true = 1 := by
  have hatom : ∀ x : Value, (hx : x.isAtom = true) → Store.ladder.Unfolds x (.atom x hx) :=
    fun x hx => .atom hx (.self (by cases x <;> first | rfl | cases hx))
  have hinner : Store.ladder.Unfolds (.list ⟨1⟩) _ :=
    .list (.self rfl) rfl (.cons (hatom (.bool true) rfl) (.cons (hatom (.str "a") rfl) .nil))
  have hinner' : Store.ladder.Unfolds (.list ⟨2⟩) _ :=
    .list (.self rfl) rfl (.cons (hatom (.bool true) rfl) (.cons (hatom (.str "b") rfl) .nil))
  have hlow : Store.ladder.Unfolds (.list ⟨3⟩) _ :=
    .list (.self rfl) rfl (.cons (hatom (.int 1) rfl) (.cons hinner .nil))
  have hmid : Store.ladder.Unfolds (.list ⟨4⟩) _ := .list (.self rfl) rfl
    (.cons (hatom (.int 1) rfl) (.cons hinner' (.cons (hatom (.lambda .typeOf) rfl) .nil)))
  have hhigh : Store.ladder.Unfolds (.list ⟨5⟩) _ :=
    .list (.self rfl) rfl (.cons (hatom (.int 2) rfl) (.cons (hatom .null rfl) .nil))
  obtain ⟨-, htotal, htrans⟩ := less_strict_total .ladder (.list ⟨3⟩) (.list ⟨4⟩) (.list ⟨5⟩)
    hlow.evaluated.1 hmid.evaluated.1 hhigh.evaluated.1
    hlow.evaluated.2 hmid.evaluated.2 hhigh.evaluated.2
  have hlt : (Comp.comparison .lt (.list ⟨3⟩) (.list ⟨4⟩)).Ends .ladder (.ok (.bool true))
      .ladder := ⟨10, rfl⟩
  refine ⟨htrans ⟨_, hlt⟩ ⟨.ladder, 10, rfl⟩, htotal ?_⟩
  rintro ⟨err, s', herr⟩
  cases (herr.unique hlt).1

end NixKernel
