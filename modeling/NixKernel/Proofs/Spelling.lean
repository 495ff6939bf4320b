import NixKernel.Proofs.Alike.Store
import NixKernel.Proofs.Stays
import NixKernel.Proofs.Sweep

/-!
Spelling out and sweeping. Both force a value and everything inside it. A sweep goes into each
container once; spelling goes into a container wherever it stands, save inside itself. But what is
met again is known by then, or it is still being gone through: so both do the same in the same
order, and in the end what is spelled out is what can be seen.
-/

namespace NixKernel

variable {α β : Type} {s s' : Store} {above seen : List Container} {v w : Value}

/-! ### Inside a container -/

/-- The tree of a value that is no container. -/
def Value.plainTree : Value → Tree
  | .int n => .int n
  | .float x => .float x
  | .bool b => .bool b
  | .null => .null
  | .str t => .str t
  | .path p => .path p
  | .lambda _ => .lambda
  | .thunk _ => .thunk
  | .list _ | .set _ => .repeated

namespace Store

/-- The tree of a container, given the trees of what is inside. -/
def treeOf (s : Store) (f : Value → Tree) : Container → Tree
  | .list a => .list ((s.list a).map f)
  | .set a => .set ((s.attrs a).bindings.map fun p => (p.1, f p.2))

theorem viewWithin_succ (s : Store) (n : Nat) (above : List Container) (v : Value) :
    s.viewWithin (n + 1) above v = match (s.resolve v).container? with
      | none => (s.resolve v).plainTree
      | some c => if c ∈ above then .repeated else s.treeOf (s.viewWithin n (c :: above)) c := by
  unfold viewWithin
  generalize s.resolve v = w
  cases w with
  | _ => rfl

theorem Known.forcedTo (h : s.Known seen v) : s.Forced v (s.resolve v) where
  resolve := rfl
  thunk t ht := by
    obtain ⟨w, hw⟩ := h.forced t ht
    rw [ht, (forced_thunk hw).resolve, hw]

theorem exists_of_parts? {c : Container} {xs : List Value} (h : s.parts? c = some xs) :
    c.Exists s := by
  cases c with
  | list a => exact Heap.lt_of_get? h
  | set a =>
    obtain ⟨m, hm, -⟩ := Option.map_eq_some_iff.mp h
    exact Heap.lt_of_get? hm

end Store

namespace Comp

/-- Spells out a container, given how to spell out what is inside. -/
def spellInside (f : Value → Comp Tree) : Container → Comp Tree
  | .list a => do
    let xs ← items a
    return .list (← xs.mapM f)
  | .set a => do
    let m ← attrs a
    return .set (← m.bindings.mapM fun p => do return (p.1, ← f p.2))

/-- What spelling does once the value is forced. -/
def spellForced (above : List Container) (w : Value) : Comp Tree :=
  match w.container? with
  | none => pure w.plainTree
  | some c =>
    if c ∈ above then pure .repeated
    else spellInside (fun x => request (.spell (c :: above) x)) c

theorem spell_eq (above : List Container) (v : Value) :
    spell above v = force v >>= spellForced above := by
  refine congrArg (force v >>= ·) (funext fun w => ?_)
  cases w with
  | _ => rfl

/-- Computations without effect one after the other. -/
theorem mapM_ends {f : α → Comp β} {g : α → β} (l : List α)
    (h : ∀ a ∈ l, (f a).Ends s (.ok (g a)) s) : (l.mapM f).Ends s (.ok (l.map g)) s := by
  induction l with
  | nil => exact ends_pure.mpr ⟨rfl, rfl⟩
  | cons a l ih =>
    rw [List.mapM_cons]
    exact (h a List.mem_cons_self).bind
      ((ih fun a ha => h a (List.mem_cons_of_mem _ ha)).bind (ends_pure.mpr ⟨rfl, rfl⟩))

/-- What is inside a container is spelled out without effect if each part is. -/
theorem spellInside_ends {f : Value → Comp Tree} {g : Value → Tree} {c : Container}
    {xs : List Value} (hc : s.parts? c = some xs) (h : ∀ x ∈ xs, (f x).Ends s (.ok (g x)) s) :
    (spellInside f c).Ends s (.ok (s.treeOf g c)) s := by
  cases c with
  | list a =>
    have hitems : (items a).Ends s (.ok xs) s := ⟨0, runWith_items_ok.mpr ⟨hc, rfl⟩⟩
    rw [Store.treeOf, Store.list, show s.lists.get? a = some xs from hc]
    exact hitems.bind ((mapM_ends xs h).bind (ends_pure.mpr ⟨rfl, rfl⟩))
  | set a =>
    obtain ⟨m, hm, rfl⟩ := Option.map_eq_some_iff.mp hc
    have hattrs : (attrs a).Ends s (.ok m) s := ⟨0, runWith_attrs_ok.mpr ⟨hm, rfl⟩⟩
    rw [Store.treeOf, Store.attrs, hm]
    refine hattrs.bind ((mapM_ends m.bindings fun p hp => ?_).bind (ends_pure.mpr ⟨rfl, rfl⟩))
    exact (h p.2 (List.mem_map_of_mem hp)).bind (ends_pure.mpr ⟨rfl, rfl⟩)

theorem ends_spell {r : Except Error Tree} :
    (request (.spell above v)).Ends s r s' ↔ (spell above v).Ends s r s' := by
  rw [ends_request, Request.ends_run rfl]
  exact ⟨fun ⟨s₂, h, hs⟩ => hs ▸ h, fun h => ⟨s', h, rfl⟩⟩

/-- **What is known is spelled out as it is seen**, without any effect. -/
theorem spell_known {levels : Nat} (hw : s.Within levels above)
    (hc : ∀ c ∈ seen, c ∈ above ∨ s.Closed seen c) (hv : s.Known seen v) :
    (request (.spell above v)).Ends s (.ok (s.viewWithin levels above v)) s := by
  induction levels generalizing above v with
  | zero => exact absurd rfl hw.ne_zero
  | succ n ih =>
    rw [ends_spell, spell_eq, s.viewWithin_succ]
    refine hv.forcedTo.ends.bind ?_
    unfold spellForced
    cases hcon : (s.resolve v).container? with
    | none => exact ends_pure.mpr ⟨rfl, rfl⟩
    | some c =>
      dsimp only
      split
      · exact ends_pure.mpr ⟨rfl, rfl⟩
      · rename_i hnot
        obtain ⟨xs, hxs, hall⟩ := (hc c (hv.seen c hcon)).resolve_left hnot
        refine spellInside_ends hxs fun x hx => ?_
        exact ih (hw.cons hnot (Store.exists_of_parts? hxs))
          (fun d hd => (hc d hd).imp_left (List.mem_cons_of_mem c)) (hall x hx)

end Comp

/-! ### What has been spelled out stays -/

namespace Comp

theorem Stays.attrs {a : Addr .set} {m : Attrs Value} (h : s.sets.get? a = some m) :
    (Comp.attrs a).Stays m s := fun _ hs => ⟨0, runWith_attrs_ok.mpr ⟨hs.set h, rfl⟩⟩

theorem mapM_stays {n : Nat} {f : α → Comp β} {l : List α} {bs : List β}
    (hf : ∀ {a b} {s s' : Store}, (f a).run n s = some (.ok b, s') → (f a).Stays b s')
    (h : (l.mapM f).run n s = some (.ok bs, s')) : (l.mapM f).Stays bs s' := by
  induction l generalizing s bs with
  | nil =>
    obtain ⟨rfl, rfl⟩ := runWith_pure_ok.mp h
    exact .pure _ _
  | cons a l ih =>
    rw [List.mapM_cons] at h ⊢
    obtain ⟨b, s₁, h₁, h⟩ := runWith_bind_ok.mp h
    obtain ⟨bs', s₂, h₂, h⟩ := runWith_bind_ok.mp h
    obtain ⟨rfl, rfl⟩ := runWith_pure_ok.mp h
    exact ((hf h₁).mono (Store.later_law.ends ⟨n, h₂⟩)).bind ((ih h₂).bind (.pure _ _))

theorem spellInside_stays {n : Nat} {f : Value → Comp Tree} {c : Container} {t : Tree}
    (hf : ∀ {x t} {s s' : Store}, (f x).run n s = some (.ok t, s') → (f x).Stays t s')
    (h : (spellInside f c).run n s = some (.ok t, s')) : (spellInside f c).Stays t s' := by
  cases c with
  | list a =>
    obtain ⟨xs, s₁, h₁, h₂⟩ := runWith_bind_ok.mp h
    obtain ⟨hxs, rfl⟩ := runWith_items_ok.mp h₁
    obtain ⟨ts, s₂, h₃, h₄⟩ := runWith_bind_ok.mp h₂
    obtain ⟨rfl, rfl⟩ := runWith_pure_ok.mp h₄
    have hs := Store.later_law.ends ⟨n, h₃⟩
    exact (Stays.items (hs.list hxs)).bind ((mapM_stays hf h₃).bind (.pure _ _))
  | set a =>
    obtain ⟨m, s₁, h₁, h₂⟩ := runWith_bind_ok.mp h
    obtain ⟨hm, rfl⟩ := runWith_attrs_ok.mp h₁
    obtain ⟨ts, s₂, h₃, h₄⟩ := runWith_bind_ok.mp h₂
    obtain ⟨rfl, rfl⟩ := runWith_pure_ok.mp h₄
    have hs := Store.later_law.ends ⟨n, h₃⟩
    refine (Stays.attrs (hs.set hm)).bind
      ((mapM_stays (fun {p q s s'} hp => ?_) h₃).bind (.pure _ _))
    obtain ⟨t, s₂, h₅, h₆⟩ := runWith_bind_ok.mp hp
    obtain ⟨rfl, rfl⟩ := runWith_pure_ok.mp h₆
    exact (hf h₅).bind (.pure _ _)

/-- To spell out a value again gives the same, without any effect. -/
theorem spell_stays (n : Nat) {t : Tree} (h : (Request.spell above v).run n s = some (.ok t, s')) :
    (request (.spell above v)).Stays t s' := by
  induction n generalizing above v t s s' with
  | zero => cases h
  | succ n ih =>
    obtain ⟨s₂, h₂, rfl⟩ := Request.run_of_start rfl h
    rw [spell_eq] at h₂
    obtain ⟨w, s₁, h₁, h₂⟩ := runWith_bind_ok.mp h₂
    have hw := force_forced ⟨n, h₁⟩
    have hs := Store.later_law.ends ⟨n, h₂⟩
    -- the value has been forced by now, so that forcing it again has no effect
    suffices hrest : (spellForced above w).Stays t s' by
      intro s'' hs''
      rw [ends_spell, spell_eq]
      exact ((Stays.force (hw.mono hs)).bind hrest) s'' hs''
    unfold spellForced at h₂ ⊢
    split
    · rename_i hc
      rw [hc] at h₂
      obtain ⟨rfl, rfl⟩ := runWith_pure_ok.mp h₂
      exact .pure _ _
    · rename_i c hc
      rw [hc] at h₂
      dsimp only at h₂
      split at h₂
      · rename_i hmem
        rw [if_pos hmem]
        obtain ⟨rfl, rfl⟩ := runWith_pure_ok.mp h₂
        exact .pure _ _
      · rename_i hmem
        rw [if_neg hmem]
        refine spellInside_stays (fun {x t s s'} hx => ?_) h₂
        rw [run, runWith_request] at hx
        exact ih hx

end Comp

/-! ### Going through containers -/

/-- Inside the containers `above`, and with `seen` behind it: what has been seen is one of those
that are still being gone through, or what is inside it is known. -/
structure Store.Descent (s : Store) (above seen : List Container) : Prop where
  subset : above ⊆ seen
  nodup : above.Nodup
  parts : ∀ c ∈ above, ∃ xs, s.parts? c = some xs
  closed : ∀ c ∈ seen, c ∈ above ∨ s.Closed seen c

namespace Store

theorem Descent.nil (s : Store) : s.Descent [] [] where
  subset := List.Subset.refl _
  nodup := List.nodup_nil
  parts _ hc := nomatch hc
  closed _ hc := nomatch hc

theorem Descent.within (h : s.Descent above seen) : s.Within (s.containerCount + 1) above where
  nodup := h.nodup
  exist c hc := by
    obtain ⟨xs, hxs⟩ := h.parts c hc
    exact exists_of_parts? hxs
  levels := by omega

/-- More has been seen in the meantime. -/
theorem Descent.visited {seen' : List Container} (h : s.Descent above seen)
    (hv : Visited s s' seen seen') : s'.Descent above seen' where
  subset := List.Subset.trans h.subset hv.subset
  nodup := h.nodup
  parts c hc := by
    obtain ⟨xs, hxs⟩ := h.parts c hc
    exact ⟨xs, hv.later.parts? hxs⟩
  closed c hc := by
    rcases hv.closed c hc with hc | hc
    · exact (h.closed c hc).imp_right fun hc => hc.mono hv.later hv.subset
    · exact .inr hc

/-- A container that has not been seen is gone into. -/
theorem Descent.cons {c : Container} {xs : List Value} (h : s.Descent above seen) (hc : c ∉ seen)
    (hxs : s.parts? c = some xs) :
    s.Descent (c :: above) (c :: seen) where
  subset := List.cons_subset_cons c h.subset
  nodup := List.nodup_cons.mpr ⟨fun hm => hc (h.subset hm), h.nodup⟩
  parts d hd := by
    rcases List.mem_cons.mp hd with rfl | hd
    · exact ⟨xs, hxs⟩
    · exact h.parts d hd
  closed d hd := by
    rcases List.mem_cons.mp hd with rfl | hd
    · exact .inl List.mem_cons_self
    · exact (h.closed d hd).imp (List.mem_cons_of_mem c)
        fun hd => hd.mono (.refl s) (List.subset_cons_self c seen)

end Store

namespace Comp

open Store

theorem ends_sweep {r : Except Error (Value × List Container)} :
    (request (.sweep seen v)).Ends s r s' ↔ (sweep seen v).Ends s r s' := by
  rw [ends_request, Request.ends_run rfl]
  exact ⟨fun ⟨s₂, h, hs⟩ => hs ▸ h, fun h => ⟨s', h, rfl⟩⟩

/-- Attributes are spelled out as their values are, and then named. -/
theorem mapM_snd (f : Value → Comp Tree) (l : List (String × Value)) :
    (l.mapM fun p => do return (p.1, ← f p.2)) =
      (l.map Prod.snd).mapM f >>= fun ts => pure ((l.map Prod.fst).zip ts) := by
  induction l with
  | nil => rfl
  | cons p l ih =>
    rw [List.mapM_cons, ih, List.map_cons, List.mapM_cons]
    simp only [bind_assoc, pure_bind, List.map_cons, List.zip_cons_cons]

/-- Whatever one computation comes to within a number of levels, another one does to the same store:
both succeed, or both fail with the same error. -/
def Follows (n : Nat) (c : Comp α) (d : Comp β) (s : Store) : Prop :=
  ∀ r s', c.run n s = some (r, s') → ∃ r', d.Ends s r' s' ∧ failure? r' = failure? r

section Follows

variable {γ δ : Type} {n : Nat} {c : Comp α} {d : Comp β}

theorem Follows.of_ends {a : α} {b : β} (hc : c.Ends s (.ok a) s') (hd : d.Ends s (.ok b) s') :
    Follows n c d s := by
  intro r s₁ hr
  obtain ⟨rfl, rfl⟩ := hc.unique ⟨n, hr⟩
  exact ⟨.ok b, hd, rfl⟩

theorem Follows.bind {f : α → Comp γ} {g : β → Comp δ} (h : Follows n c d s)
    (hfg : ∀ a b s', c.Ends s (.ok a) s' → d.Ends s (.ok b) s' → Follows n (f a) (g b) s') :
    Follows n (c >>= f) (d >>= g) s := by
  intro r s' hr
  rcases runWith_bind_iff.mp hr with ⟨a, s₁, h₁, h₂⟩ | ⟨e, h₁, rfl⟩
  · obtain ⟨r', hd, hsame⟩ := h _ _ h₁
    obtain ⟨b, rfl⟩ := failure?_eq_none hsame
    obtain ⟨r'', hg, hsame'⟩ := hfg a b s₁ ⟨n, h₁⟩ hd r s' h₂
    exact ⟨r'', hd.bind hg, hsame'⟩
  · obtain ⟨r', hd, hsame⟩ := h _ _ h₁
    obtain rfl := failure?_eq_some hsame
    exact ⟨.error e, hd.bind_error, rfl⟩

/-- Two computations come to the same, each within a number of levels of the other. -/
def Meets (n : Nat) (c : Comp α) (d : Comp β) (s : Store) : Prop :=
  Follows n c d s ∧ Follows n d c s

theorem Meets.of_ends {a : α} {b : β} (hc : c.Ends s (.ok a) s') (hd : d.Ends s (.ok b) s') :
    Meets n c d s := ⟨.of_ends hc hd, .of_ends hd hc⟩

theorem Meets.pure (a : α) (b : β) : Meets n (Pure.pure a) (Pure.pure b) s :=
  .of_ends (ends_pure.mpr ⟨rfl, rfl⟩) (ends_pure.mpr ⟨rfl, rfl⟩)

theorem Meets.bind {f : α → Comp γ} {g : β → Comp δ} (h : Meets n c d s)
    (hfg : ∀ a b s', c.Ends s (.ok a) s' → d.Ends s (.ok b) s' → Meets n (f a) (g b) s') :
    Meets n (c >>= f) (d >>= g) s :=
  ⟨h.1.bind fun a b s' ha hb => (hfg a b s' ha hb).1,
    h.2.bind fun b a s' hb ha => (hfg a b s' ha hb).2⟩

/-- Two computations that begin in the same way. -/
theorem Meets.after {f : α → Comp γ} {g : α → Comp δ}
    (hfg : ∀ a s', c.Ends s (.ok a) s' → Meets n (f a) (g a) s') :
    Meets n (c >>= f) (c >>= g) s := by
  have hself : Follows n c c s := fun r s' hr => ⟨r, ⟨n, hr⟩, rfl⟩
  refine Meets.bind ⟨hself, hself⟩ fun a b s' ha hb => ?_
  cases (ha.unique hb).1
  exact hfg a s' ha

end Follows

/-- How a container is read: what is inside it, and what tree it makes. -/
theorem exists_reading (c : Container) : ∃ (γ : Type) (read : Comp γ) (parts : γ → List Value)
    (tree : γ → List Tree → Tree), partsOf c = (read >>= fun m => pure (parts m)) ∧
      (∀ f, spellInside f c = read >>= fun m => (parts m).mapM f >>= fun ts => pure (tree m ts)) ∧
      ∀ {m s s'}, read.Ends s (.ok m) s' → s' = s ∧ s.parts? c = some (parts m) := by
  have hparts : ∀ {s s' xs}, (partsOf c).Ends s (.ok xs) s' → s' = s ∧ s.parts? c = some xs := by
    rintro s s' xs ⟨n, hn⟩
    exact (runWith_partsOf_ok.mp hn).symm
  cases c with
  | list a =>
    exact ⟨_, items a, id, fun _ => .list, (bind_pure _).symm, fun f => rfl, hparts⟩
  | set a =>
    refine ⟨_, attrs a, fun m => m.bindings.map Prod.snd,
      fun m ts => .set ((m.bindings.map Prod.fst).zip ts), rfl, fun f => ?_, fun hm => ?_⟩
    · refine congrArg (attrs a >>= ·) (funext fun m => ?_)
      rw [mapM_snd, bind_assoc]
      simp only [pure_bind]
    · exact hparts (hm.bind (ends_pure.mpr ⟨rfl, rfl⟩))

/-- Values are spelled out and swept one after the other. -/
theorem mapM_meets {n : Nat} (hn : ∀ {seen : List Container} {v : Value} {s : Store},
      s.Descent above seen → Meets n (request (.spell above v)) (request (.sweep seen v)) s)
    (xs : List Value) (hd : s.Descent above seen) :
    Meets n (xs.mapM fun x => request (.spell above x)) (sweepAll seen xs) s := by
  induction xs generalizing seen s with
  | nil => exact .pure _ _
  | cons x xs ih =>
    rw [List.mapM_cons, sweepAll]
    refine (hn hd).bind fun t p s₁ _ hp => ?_
    obtain ⟨w, seen₁⟩ := p
    obtain ⟨m, hm⟩ := ends_request.mp hp
    dsimp only
    rw [← bind_pure (sweepAll seen₁ xs)]
    exact (ih (hd.visited (sweep_visited m hm).1)).bind fun _ _ _ _ _ => .pure _ _

/-- A container that has been closed is spelled out without any effect. -/
theorem spellForced_closed {c : Container} (hd : s.Descent above seen) (hw : w.container? = some c)
    (hc : c ∈ seen) : ∃ t, (spellForced above w).Ends s (.ok t) s := by
  have hself : force w = pure w ∧ s.resolve w = w ∧ ∀ t, w ≠ .thunk t := by
    cases w with
    | list a => exact ⟨rfl, rfl, fun _ h => nomatch h⟩
    | set a => exact ⟨rfl, rfl, fun _ h => nomatch h⟩
    | _ => cases hw
  obtain ⟨hforce, hresolve, hthunk⟩ := hself
  have hknown : s.Known seen w := by
    refine ⟨fun t ht => absurd ht (hthunk t), fun d hd => ?_⟩
    rw [hresolve, hw] at hd
    cases hd
    exact hc
  have hspell := spell_known hd.within hd.closed hknown
  rw [ends_spell, spell_eq, hforce, pure_bind] at hspell
  exact ⟨_, hspell⟩

/-- A forced value is spelled out and visited. -/
theorem spellForced_meets {n : Nat} (hn : ∀ {above seen : List Container} {v : Value} {s : Store},
      s.Descent above seen → Meets n (request (.spell above v)) (request (.sweep seen v)) s)
    (hd : s.Descent above seen) (w : Value) : Meets n (spellForced above w) (visit seen w) s := by
  cases hw : w.container? with
  | none =>
    simp only [spellForced, visit, hw]
    exact .pure _ _
  | some c =>
    by_cases hc : c ∈ seen
    · obtain ⟨t, ht⟩ := spellForced_closed hd hw hc
      have hvisit : (visit seen w).Ends s (.ok (w, seen)) s := by
        simp only [visit, hw, if_pos hc]
        exact ends_pure.mpr ⟨rfl, rfl⟩
      exact .of_ends ht hvisit
    · obtain ⟨γ, read, parts, tree, hparts, hinside, hread⟩ := exists_reading c
      simp only [spellForced, visit, hw, if_neg hc, if_neg fun h => hc (hd.subset h), hparts,
        hinside, bind_assoc, pure_bind]
      refine Meets.after fun m s₁ hm => ?_
      obtain ⟨rfl, hxs⟩ := hread hm
      exact (mapM_meets hn _ (hd.cons hc hxs)).bind fun _ _ _ _ _ => .pure _ _

/-- A request that needs no setting up takes one level more than its computation. -/
theorem run_request {q : Request} {c : Comp q.Answer} (hq : q.start s = .run c s)
    (hf : ∀ r s', q.finish r s' = s') (n : Nat) : (request q).run (n + 1) s = c.run n s := by
  rw [run, runWith_request, Request.run_succ, hq, run]
  dsimp only
  cases c.runWith (Request.run n) s with
  | none => rfl
  | some p => rw [Option.map_some, hf]

/-- **Spelling and sweeping come to the same**, inside whatever containers. -/
theorem spell_meets (n : Nat) (hd : s.Descent above seen) (v : Value) :
    Meets n (request (.spell above v)) (request (.sweep seen v)) s := by
  induction n generalizing above seen v s with
  | zero => exact ⟨fun r s' hr => (by cases hr), fun r s' hr => (by cases hr)⟩
  | succ n ih =>
    have hspell := run_request (s := s) (q := .spell above v) rfl (fun _ _ => rfl) n
    have hsweep := run_request (s := s) (q := .sweep seen v) rfl (fun _ _ => rfl) n
    have hmeets : Meets n (spell above v) (sweep seen v) s := by
      rw [spell_eq, sweep_eq]
      exact Meets.after fun w s₁ hw => spellForced_meets (fun hd => ih hd _)
        (hd.visited (.none (later_law.ends hw))) w
    refine ⟨fun r s' hr => ?_, fun r s' hr => ?_⟩
    · obtain ⟨r', hr', hsame⟩ := hmeets.1 r s' (hspell ▸ hr)
      exact ⟨r', ends_sweep.mpr hr', hsame⟩
    · obtain ⟨r', hr', hsame⟩ := hmeets.2 r s' (hsweep ▸ hr)
      exact ⟨r', ends_spell.mpr hr', hsame⟩

end Comp

/-! ### Printing without forcing -/

namespace Comp

/-- Whether a value is a thunk that has not been forced. -/
def isWaiting : Value → Comp Bool
  | .thunk t => return (← perform (.forced? t)).isNone
  | _ => pure false

/-- Spells out a value inside the containers `above`, down to a number of containers inside each
other. A thunk that has not been forced is passed over, and everything else is forced. -/
def spellLazily : Nat → List Container → Value → Comp Tree
  | levels, above, v => do
    if ← isWaiting v then pure .thunk
    else
      match ← force v with
      | .int n => pure (.int n)
      | .float x => pure (.float x)
      | .bool b => pure (.bool b)
      | .null => pure .null
      | .str t => pure (.str t)
      | .path p => pure (.path p)
      | .lambda _ => pure .lambda
      | .thunk _ => pure .thunk
      | .list a =>
        if Container.list a ∈ above then pure .repeated
        else match levels with
          | 0 => pure .repeated
          | n + 1 => do
            let xs ← perform (.list a)
            return .list (← (xs.getD []).mapM (spellLazily n (.list a :: above)))
      | .set a =>
        if Container.set a ∈ above then pure .repeated
        else match levels with
          | 0 => pure .repeated
          | n + 1 => do
            let m ← perform (.attrs a)
            return .set (← (m.getD .empty).bindings.mapM fun p => do
              return (p.1, ← spellLazily n (.set a :: above) p.2))

/-- Either the thunk has not been forced, or forcing the value has no effect. -/
theorem isWaiting_ends (v : Value) (s : Store) :
    ((isWaiting v).Ends s (.ok true) s ∧ ∃ t, s.resolve v = .thunk t) ∨
    ((isWaiting v).Ends s (.ok false) s ∧ s.Forced v (s.resolve v)) := by
  cases v with
  | thunk t =>
    have hperform := perform_ends (.forced? t) s
    cases ht : s.forced? t with
    | none =>
      refine .inl ⟨hperform.bind (ends_pure.mpr ⟨?_, rfl⟩), t, ?_⟩
      · simp only [Action.perform, ht, Option.isNone_none]
      · simp only [Store.resolve, ht, Option.getD_none]
    | some w =>
      have hf := Store.forced_thunk (Store.forced?_eq_some.mp ht)
      refine .inr ⟨hperform.bind (ends_pure.mpr ⟨?_, rfl⟩), hf.resolve.symm ▸ hf⟩
      simp only [Action.perform, ht, Option.isNone_some]
  | _ =>
    refine .inr ⟨ends_pure.mpr ⟨rfl, rfl⟩, rfl, fun t ht => ?_⟩
    cases ht

/-- **Printing without forcing never fails**: it has no effect and answers what can be seen. -/
theorem spellLazily_ends (levels : Nat) (above : List Container) (v : Value) (s : Store) :
    (spellLazily levels above v).Ends s (.ok (s.viewWithin levels above v)) s := by
  have hpure : ∀ t : Tree, (pure t : Comp Tree).Ends s (.ok t) s :=
    fun t => ends_pure.mpr ⟨rfl, rfl⟩
  induction levels using Nat.strongRecOn generalizing above v with
  | ind levels ih =>
    unfold spellLazily Store.viewWithin
    -- an unforced thunk ends it; else a container is left out or opened, with one level less
    rcases isWaiting_ends v s with ⟨hw, t, hr⟩ | ⟨hw, hf⟩
    · rw [hr]
      exact hw.bind (hpure .thunk)
    · refine hw.bind (hf.ends.bind ?_)
      generalize s.resolve v = w
      cases w with
      | list a =>
        dsimp only
        split
        · exact hpure .repeated
        · cases levels with
          | zero => exact hpure .repeated
          | succ n =>
            have hitems := mapM_ends (s.list a) fun x _ => ih n n.lt_succ_self (.list a :: above) x
            exact (perform_ends (.list a) s).bind (hitems.bind (hpure _))
      | set a =>
        dsimp only
        split
        · exact hpure .repeated
        · cases levels with
          | zero => exact hpure .repeated
          | succ n =>
            have hattrs := mapM_ends (s.attrs a).bindings fun p _ =>
              (ih n n.lt_succ_self (.set a :: above) p.2).bind (f := fun t => pure (p.1, t))
                (ends_pure.mpr ⟨rfl, rfl⟩)
            exact (perform_ends (.attrs a) s).bind (hattrs.bind (hpure _))
      | _ => exact hpure _

end Comp

/-! ### Printing and full evaluation -/

/-- What has been spelled out is what can be seen. -/
theorem Comp.spell_view {t : Tree} (h : (request (.spell [] v)).Ends s (.ok t) s') :
    s'.view v = t := by
  obtain ⟨n, hn⟩ := h
  obtain ⟨r, hr, hsame⟩ := (spell_meets n (.nil s) v).1 _ _ hn
  obtain ⟨⟨w, seen⟩, rfl⟩ := failure?_eq_none hsame
  obtain ⟨m, hm⟩ := ends_request.mp hr
  obtain ⟨hvisited, hknown, -⟩ := sweep_visited m hm
  have hclosed : ∀ c ∈ seen, c ∈ [] ∨ s'.Closed seen c :=
    fun c hc => .inr ((hvisited.closed c hc).resolve_left (List.not_mem_nil))
  have hview := spell_known s'.within_view hclosed hknown
  rw [run, runWith_request] at hn
  exact Except.ok.inj (hview.unique (spell_stays n hn).ends).1

/-- **Printing and full evaluation do the same.** From any store they have the same outcomes: they
leave the same store, so that they run the same in the same order, and both succeed or both fail
with the same error. If they succeed, then from there on the value is printed without forcing as it
is printed after forcing, and that runs nothing. -/
theorem print_deepForce (v : Value) (s : Store) :
    (∀ o s', (∃ r, (Comp.print v).Ends s r s' ∧ failure? r = o) ↔
      ∃ r, (Comp.deepForce v).Ends s r s' ∧ failure? r = o) ∧
    ∀ s', (∃ text, (Comp.print v).Ends s (.ok text) s') ∨
      (∃ w, (Comp.deepForce v).Ends s (.ok w) s') →
      ∃ t : Tree, (Comp.print v).Ends s (.ok t.text) s' ∧ s'.lazyText v = t.text ∧
        (Comp.spellLazily (s'.containerCount + 1) [] v).Ends s' (.ok t) s' := by
  have hmeets : ∀ n, Comp.Meets n (Comp.print v) (Comp.deepForce v) s := fun n =>
    (Comp.spell_meets n (.nil s) v).bind fun _ _ _ _ _ => .pure _ _
  have hboth : ∀ o s', (∃ r, (Comp.print v).Ends s r s' ∧ failure? r = o) ↔
      ∃ r, (Comp.deepForce v).Ends s r s' ∧ failure? r = o := by
    intro o s'
    constructor
    · rintro ⟨r, ⟨n, hr⟩, rfl⟩
      exact (hmeets n).1 r s' hr
    · rintro ⟨r, ⟨n, hr⟩, rfl⟩
      exact (hmeets n).2 r s' hr
  refine ⟨hboth, fun s' h => ?_⟩
  -- it is enough that it prints: both operations succeed or neither does
  have hprint : ∃ text, (Comp.print v).Ends s (.ok text) s' := by
    rcases h with h | ⟨w, hw⟩
    · exact h
    · obtain ⟨r, hr, hok⟩ := (hboth none s').mpr ⟨_, hw, rfl⟩
      obtain ⟨text, rfl⟩ := failure?_eq_none hok
      exact ⟨text, hr⟩
  obtain ⟨text, htext⟩ := hprint
  obtain ⟨t, s₁, ht, hpure⟩ := Comp.ends_bind_ok.mp htext
  obtain ⟨he, rfl⟩ := Comp.ends_pure.mp hpure
  cases he
  have hview := Comp.spell_view ht
  refine ⟨t, htext, ?_, ?_⟩
  · rw [Store.lazyText, hview]
  · rw [← hview]
    exact Comp.spellLazily_ends _ _ _ _

/-- The list `[ x x builtins ]`, where the thunk `x` stands twice for the list `[ builtins ]` and
the set `builtins` holds itself. -/
theorem print_deepForce_shared : ∃ (s s' : Store) (v : Value) (t : Tree),
    s.view v = .list [.thunk, .thunk, .set [("builtins", .repeated), ("typeOf", .lambda)]] ∧
    (Comp.deepForce v).Ends s (.ok v) s' ∧ (Comp.print v).Ends s (.ok t.text) s' ∧
    (Comp.spellLazily (s'.containerCount + 1) [] v).Ends s' (.ok t) s' := by
  obtain ⟨s, hs⟩ : ∃ s : Store, s = ((Store.initial.newThunk .empty
    (.eagerList [.lit (.set .builtins)])).2.newList
      [.thunk ⟨0⟩, .thunk ⟨0⟩, .set .builtins]).2 := ⟨_, rfl⟩
  obtain ⟨s', hend⟩ : ∃ s', (Comp.deepForce (.list ⟨1⟩)).run 5 s = some (.ok (.list ⟨1⟩), s') := by
    rw [hs]
    exact ⟨_, rfl⟩
  have hdeep : (Comp.deepForce (.list ⟨1⟩)).Ends s (.ok (.list ⟨1⟩)) s' := ⟨5, hend⟩
  obtain ⟨t, hprint, -, hlazy⟩ := (print_deepForce (.list ⟨1⟩) s).2 s' (.inr ⟨_, hdeep⟩)
  refine ⟨s, s', .list ⟨1⟩, t, ?_, hdeep, hprint, hlazy⟩
  rw [hs]
  rfl

end NixKernel
