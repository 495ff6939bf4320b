import Mathlib.Data.List.Forall2
import NixKernel.Proofs.Later
import NixKernel.Proofs.Walk

/-!
Answers that stay. Once a value has been forced, forcing it again has no effect in any later store,
and the same goes for what is computed from forced values alone. This is why the two errors that
computations pass over never arise: a pair of elements that is not in order one way can be compared
the other way, and the components of a path that has been walked have names.
-/

namespace NixKernel

variable {s s' : Store}

namespace Comp

variable {α β : Type}

/-- From a store on a computation gives the same answer without any effect. -/
def Stays (c : Comp α) (a : α) (s : Store) : Prop := ∀ s', s.Later s' → c.Ends s' (.ok a) s'

/-! ### Composition -/

section Stays

variable {c : Comp α} {a : α}

theorem Stays.ends (h : c.Stays a s) : c.Ends s (.ok a) s := h s (.refl s)

theorem Stays.mono (h : c.Stays a s) (hs : s.Later s') : c.Stays a s' :=
  fun s'' hs' => h s'' (hs.trans hs')

theorem Stays.pure (a : α) (s : Store) : (Pure.pure a : Comp α).Stays a s :=
  fun _ _ => ends_pure.mpr ⟨rfl, rfl⟩

theorem Stays.bind {f : α → Comp β} {b : β} (h : c.Stays a s) (hf : (f a).Stays b s) :
    (c >>= f).Stays b s := fun s' hs => (h s' hs).bind (hf s' hs)

theorem Ends.attempt {r : Except Error α} (h : c.Ends s r s') : c.attempt.Ends s (.ok r) s' := by
  obtain ⟨n, hn⟩ := h
  exact ⟨n, by rw [run, runWith_attempt, show c.runWith _ s = _ from hn]; rfl⟩

theorem Stays.attempt (h : c.Stays a s) : c.attempt.Stays (.ok a) s :=
  fun s' hs => (h s' hs).attempt

theorem Stays.force {v w : Value} (h : s.Forced v w) : (Comp.force v).Stays w s :=
  fun _ hs => (h.mono hs).ends

theorem Stays.forceBoth {l r x y : Value} (hl : s.Forced l x) (hr : s.Forced r y) :
    (Comp.forceBoth l r).Stays (x, y) s :=
  (Stays.force hl).bind ((Stays.force hr).bind (.pure _ s))

end Stays

theorem forceBoth_forced {l r x y : Value} (h : (forceBoth l r).Ends s (.ok (x, y)) s') :
    s'.Forced l x ∧ s'.Forced r y := by
  obtain ⟨x', s₁, hx, h⟩ := ends_bind_ok.mp h
  obtain ⟨y', s₂, hy, h⟩ := ends_bind_ok.mp h
  obtain ⟨he, rfl⟩ := ends_pure.mp h
  cases he
  exact ⟨(force_forced hx).mono (Store.later_law.ends hy), force_forced hy⟩

end Comp

/-! ### The order both ways -/

theorem Value.isSameConstant_comm (x y : Value) : x.isSameConstant y = y.isSameConstant x := by
  cases x <;> cases y <;> simp only [Value.isSameConstant, Bool.beq_comm]

/-- Values that can be compared one way can be compared the other way. -/
theorem Value.plainLess_reverse {x y : Value} {c : Bool} (h : x.plainLess y = .ok c) :
    ∃ c', y.plainLess x = .ok c' := by
  cases x <;> cases y <;> simp_all [Value.plainLess, Value.number?]

namespace Comp

/-- A comparison has been decided in a way that stays; if it has not found the left value less, the
values can be compared the other way, in a way that stays too. -/
structure Decided (forth back : Comp Bool) (c : Bool) (s : Store) : Prop where
  forth : forth.Stays c s
  back : c = false → ∃ c', back.Stays c' s

/-- A pair of elements: neither is less than the other. -/
theorem Stays.lessItems_next {x y a b : Value} {xs ys : List Value} {c : Bool}
    (hx : s.Forced x a) (hy : s.Forced y b)
    (hab : a.isSameConstant b = true ∨ ((request (.less a b)).Stays false s ∧
      (request (.less b a)).Stays false s)) (h : (lessItems xs ys).Stays c s) :
    (lessItems (x :: xs) (y :: ys)).Stays c s := by
  refine (Stays.forceBoth hx hy).bind ?_
  dsimp only
  split
  · exact h
  · rename_i hne
    obtain ⟨h₁, h₂⟩ := hab.resolve_left hne
    exact h₁.bind (h₂.attempt.bind h)

/-- A pair of elements of which the left one is less. -/
theorem Stays.lessItems_less {x y a b : Value} (xs ys : List Value) (hx : s.Forced x a)
    (hy : s.Forced y b) (hab : a.isSameConstant b = false)
    (h : (request (.less a b)).Stays true s) : (lessItems (x :: xs) (y :: ys)).Stays true s := by
  refine (Stays.forceBoth hx hy).bind ?_
  dsimp only
  rw [if_neg (by simp [hab])]
  exact h.bind (.pure true s)

/-- A pair of elements of which the right one is less. -/
theorem Stays.lessItems_greater {x y a b : Value} (xs ys : List Value) (hx : s.Forced x a)
    (hy : s.Forced y b) (hab : a.isSameConstant b = false)
    (h : (request (.less a b)).Stays false s) (h' : (request (.less b a)).Stays true s) :
    (lessItems (x :: xs) (y :: ys)).Stays false s := by
  refine (Stays.forceBoth hx hy).bind ?_
  dsimp only
  rw [if_neg (by simp [hab])]
  exact h.bind (h'.attempt.bind (.pure false s))

section Less

variable {n : Nat} {c : Bool}

/-- A comparison the other way, after one that has not found the left value less, succeeds without
any effect. -/
theorem Decided.attempt_back {forth back : Comp Bool} (h : Decided forth back false s)
    {r : Except Error Bool} (hr : back.attempt.run n s = some (.ok r, s')) :
    ∃ c, r = .ok c ∧ s' = s ∧ back.run n s = some (.ok c, s) := by
  obtain ⟨c, hc⟩ := h.back rfl
  rw [run, runWith_attempt] at hr
  obtain ⟨⟨r', s₁⟩, h₁, he⟩ := Option.map_eq_some_iff.mp hr
  cases he
  obtain ⟨rfl, rfl⟩ := Ends.unique ⟨n, h₁⟩ hc.ends
  exact ⟨c, rfl, rfl, h₁⟩

theorem lessItems_decided
    (hn : ∀ {x y c} {s s' : Store}, (Request.less x y).run n s = some (.ok c, s') →
      Decided (request (.less x y)) (request (.less y x)) c s') {xs ys : List Value}
    (h : (lessItems xs ys).run n s = some (.ok c, s')) :
    Decided (lessItems xs ys) (lessItems ys xs) c s' := by
  induction xs generalizing ys s with
  | nil =>
    obtain ⟨rfl, rfl⟩ := runWith_pure_ok.mp h
    refine ⟨.pure _ _, fun hc => ?_⟩
    cases ys with
    | nil => exact ⟨false, .pure false _⟩
    | cons y ys => cases hc
  | cons x xs ih =>
    cases ys with
    | nil =>
      obtain ⟨rfl, rfl⟩ := runWith_pure_ok.mp h
      exact ⟨.pure _ _, fun _ => ⟨true, .pure true _⟩⟩
    | cons y ys =>
      obtain ⟨⟨a, b⟩, s₁, h₁, h⟩ := runWith_bind_ok.mp h
      obtain ⟨hx, hy⟩ := forceBoth_forced ⟨n, h₁⟩
      dsimp only at h
      split at h
      · -- the same constant twice: the rest decides
        rename_i hab
        have hs := Store.later_law.ends ⟨n, h⟩
        have hd := ih h
        refine ⟨.lessItems_next (hx.mono hs) (hy.mono hs) (Or.inl hab) hd.forth, fun hc => ?_⟩
        obtain ⟨c', hc'⟩ := hd.back hc
        exact ⟨c', .lessItems_next (hy.mono hs) (hx.mono hs)
          (Or.inl (b.isSameConstant_comm a ▸ hab)) hc'⟩
      · rename_i hne
        have hab : a.isSameConstant b = false := by simpa using hne
        have hba : b.isSameConstant a = false := b.isSameConstant_comm a ▸ hab
        obtain ⟨c₁, s₂, h₂, h⟩ := runWith_bind_ok.mp h
        have hs₂ := Store.later_law.ends ⟨n, h₂⟩
        rw [runWith_request] at h₂
        have hd := hn h₂
        cases c₁ with
        | true =>
          obtain ⟨rfl, rfl⟩ := runWith_pure_ok.mp h
          exact ⟨.lessItems_less xs ys (hx.mono hs₂) (hy.mono hs₂) hab hd.forth, nofun⟩
        | false =>
          obtain ⟨r, s₃, h₃, h⟩ := runWith_bind_ok.mp h
          obtain ⟨c₂, rfl, rfl, h₄⟩ := hd.attempt_back h₃
          rw [run, runWith_request] at h₄
          have hd' := hn h₄
          cases c₂ with
          | true =>
            obtain ⟨rfl, rfl⟩ := runWith_pure_ok.mp h
            exact ⟨.lessItems_greater xs ys (hx.mono hs₂) (hy.mono hs₂) hab hd.forth hd'.forth,
              fun _ => ⟨true, .lessItems_less ys xs (hy.mono hs₂) (hx.mono hs₂) hba hd'.forth⟩⟩
          | false =>
            have hs := Store.later_law.ends ⟨n, h⟩
            have hx' := hx.mono (hs₂.trans hs)
            have hy' := hy.mono (hs₂.trans hs)
            have hf := hd.forth.mono hs
            have hb := hd'.forth.mono hs
            have hrest := ih h
            refine ⟨.lessItems_next hx' hy' (Or.inr ⟨hf, hb⟩) hrest.forth, fun hc => ?_⟩
            obtain ⟨c', hc'⟩ := hrest.back hc
            exact ⟨c', .lessItems_next hy' hx' (Or.inr ⟨hb, hf⟩) hc'⟩

/-- A request to compare is what its computation is. -/
theorem Stays.less {x y : Value} (h : (Comp.less x y).Stays c s) :
    (request (.less x y)).Stays c s :=
  fun s' hs => ends_request.mpr ((Request.ends_run rfl).mpr ⟨s', h s' hs, rfl⟩)

theorem Stays.items {a : Addr .list} {xs : List Value} (h : s.lists.get? a = some xs) :
    (Comp.items a).Stays xs s := fun _ hs => ⟨0, runWith_items_ok.mpr ⟨hs.list h, rfl⟩⟩

theorem less_eq_plainLess {x y : Value} (h : ¬ ∃ a b, x = .list a ∧ y = .list b) :
    Comp.less x y = ofExcept (x.plainLess y) := by
  unfold Comp.less
  split
  · rename_i a b
    exact absurd ⟨a, b, rfl, rfl⟩ h
  · rfl

/-- **The order both ways.** A comparison that has not found the left value less can be made the
other way: it succeeds, and it has no effect. -/
theorem less_decided (n : Nat) {x y : Value}
    (h : (Request.less x y).run n s = some (.ok c, s')) :
    Decided (request (.less x y)) (request (.less y x)) c s' := by
  induction n generalizing x y c s s' with
  | zero => cases h
  | succ n ih =>
    obtain ⟨s₁, h₁, rfl⟩ := Request.run_of_start rfl h
    -- lists are compared item by item, which is the induction; other values need no request
    by_cases hlist : ∃ a b, x = .list a ∧ y = .list b
    · obtain ⟨a, b, rfl, rfl⟩ := hlist
      obtain ⟨xs, s₂, h₂, h₃⟩ := runWith_bind_ok.mp h₁
      obtain ⟨hxs, rfl⟩ := runWith_items_ok.mp h₂
      obtain ⟨ys, s₃, h₄, h₅⟩ := runWith_bind_ok.mp h₃
      obtain ⟨hys, rfl⟩ := runWith_items_ok.mp h₄
      have hs := Store.later_law.ends ⟨n, h₅⟩
      have hx := Stays.items (hs.list hxs)
      have hy := Stays.items (hs.list hys)
      have hd := lessItems_decided ih h₅
      refine ⟨.less (hx.bind (hy.bind hd.forth)), fun hc => ?_⟩
      obtain ⟨c', hc'⟩ := hd.back hc
      exact ⟨c', .less (hy.bind (hx.bind hc'))⟩
    · have hback : ¬ ∃ a b, y = .list a ∧ x = .list b :=
        fun ⟨a, b, hy, hx⟩ => hlist ⟨b, a, hx, hy⟩
      rw [less_eq_plainLess hlist] at h₁
      cases hxy : x.plainLess y with
      | error e => rw [hxy] at h₁; cases h₁
      | ok c₁ =>
        rw [hxy] at h₁
        obtain ⟨rfl, rfl⟩ := runWith_pure_ok.mp h₁
        obtain ⟨c', hyx⟩ := Value.plainLess_reverse hxy
        refine ⟨.less ?_, fun _ => ⟨c', .less ?_⟩⟩
        · rw [less_eq_plainLess hlist, hxy]
          exact .pure _ _
        · rw [less_eq_plainLess hback, hyx]
          exact .pure _ _

end Less

/-! ### The names of a path that has been walked -/

/-- Every component has a name, or is null, in a way that stays. -/
def Named (path : List Value) (s : Store) : Prop := ∀ c ∈ path, ∃ o, (forceName c).Stays o s

theorem Named.mono {path : List Value} (h : Named path s) (hs : s.Later s') : Named path s' := by
  intro c hc
  obtain ⟨o, ho⟩ := h c hc
  exact ⟨o, ho.mono hs⟩

theorem Named.append {path : List Value} {c : Value} {o : Option String} (h : Named path s)
    (hc : (forceName c).Stays o s) : Named (path ++ [c]) s := by
  intro d hd
  rcases List.mem_append.mp hd with hd | hd
  · exact h d hd
  · rw [List.mem_singleton.mp hd]
    exact ⟨o, hc⟩

theorem forceName_stays {v : Value} {o : Option String} (h : (forceName v).Ends s (.ok o) s') :
    (forceName v).Stays o s' := by
  obtain ⟨w, s₁, hw, h⟩ := ends_bind_ok.mp h
  cases hname : componentName w with
  | error e =>
    rw [hname] at h
    cases (ends_refuse.mp h).1
  | ok o' =>
    rw [hname] at h
    obtain ⟨ho, rfl⟩ := ends_pure.mp h
    cases ho
    refine (Stays.force (force_forced hw)).bind ?_
    rw [hname]
    exact .pure _ _

/-- The components up to a missing attribute have been forced to names. -/
theorem walk_named {walked : List Value} {v : Value} {path walked' : List Value}
    (h : (walk walked v path).Ends s (.ok (.missing walked')) s') (hw : Named walked s) :
    Named walked' s' := by
  induction path generalizing walked v s with
  | nil => cases (ends_pure.mp h).1
  | cons c path ih =>
    obtain ⟨x, s₁, hx, h⟩ := ends_bind_ok.mp h
    have hs₁ := Store.later_law.ends hx
    cases x with
    | set a =>
      obtain ⟨o, s₂, ho, h⟩ := ends_bind_ok.mp h
      have hw₂ := (hw.mono (hs₁.trans (Store.later_law.ends ho))).append (forceName_stays ho)
      cases o with
      | none =>
        obtain ⟨he, rfl⟩ := ends_pure.mp h
        cases he
        exact hw₂
      | some name =>
        obtain ⟨m, s₃, hm, h⟩ := ends_bind_ok.mp h
        have hw₃ := hw₂.mono (Store.later_law.ends hm)
        split at h
        · obtain ⟨he, rfl⟩ := ends_pure.mp h
          cases he
          exact hw₃
        · exact ih h hw₃
    | _ => cases (ends_pure.mp h).1

/-- **A path that has been walked has names**, one for each component, and to name it has no effect.
-/
theorem Named.pathNames {path : List Value} (h : Named path s) :
    ∃ names, List.Forall₂ (fun c name => ∃ o, (forceName c).Stays o s ∧ name = o.getD "null")
      path names ∧ (Comp.pathNames path).Stays names s := by
  induction path with
  | nil => exact ⟨[], .nil, .pure [] s⟩
  | cons c path ih =>
    obtain ⟨o, ho⟩ := h c List.mem_cons_self
    obtain ⟨names, hall, hnames⟩ := ih fun d hd => h d (List.mem_cons_of_mem c hd)
    refine ⟨o.getD "null" :: names, .cons ⟨o, ho, rfl⟩ hall, ?_⟩
    rw [Comp.pathNames, List.mapM_cons]
    have hc : (do return (← forceName c).getD "null" : Comp String).Stays (o.getD "null") s :=
      ho.bind (.pure _ s)
    exact hc.bind (hnames.bind (.pure _ s))

end Comp

end NixKernel
