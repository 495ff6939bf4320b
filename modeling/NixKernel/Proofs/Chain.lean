import NixKernel.Proofs.Construct.Force
import NixKernel.Proofs.Datum

/-!
Chains of thunks. The body of each thunk of a chain yields the next one, and that of the last one a
value. Forcing the first thunk forces all of them, one inside the other, so that it takes as many
levels below the limit of their thread as there are thunks. A chain that is too long is refused at
its last level, and every thunk and the depth are as before; forced from the inside out, one level
is enough for it.
-/

namespace NixKernel

/-! ### Stores that agree apart from some thunks -/

/-- A thread, whatever its depth. -/
def Thread.atRest (th : Thread) : Thread := { th with depth := 0 }

/-- The old cells of a store are in another one as they were, apart from the thunks `ts` and the
depths of the threads; the counters and the registers are the same, and the journal is any. -/
structure Store.SameApart (s : Store) (ts : List (Addr .thunk)) (s' : Store) : Prop where
  thunk : ∀ {t c}, t ∉ ts → s.thunks.get? t = some c → s'.thunks.get? t = some c
  list : ∀ {a xs}, s.lists.get? a = some xs → s'.lists.get? a = some xs
  set : ∀ {a m}, s.sets.get? a = some m → s'.sets.get? a = some m
  lambda : ∀ {a f}, s.lambdas.get? a = some f → s'.lambdas.get? a = some f
  builder : ∀ {b c}, s.builders.get? b = some c → s'.builders.get? b = some c
  thread : ∀ a, (s'.threads.get? a).map Thread.atRest = (s.threads.get? a).map Thread.atRest
  counters : s'.counters = s.counters
  registers : s'.registers = s.registers

/-- The store in which the body of a thunk is run: the thunk is marked, and its thread is one level
deeper. -/
def Store.entered (s : Store) (t : Addr .thunk) (env : Env) (body : Expr) : Store :=
  ((s.enter env).setThunk t (.forcing env body)).record (.force t)

namespace Store.SameApart

variable {s s' s'' : Store} {ts ts' : List (Addr .thunk)}

theorem refl (s : Store) (ts : List (Addr .thunk)) : s.SameApart ts s :=
  ⟨fun _ => id, id, id, id, id, fun _ => rfl, rfl, rfl⟩

theorem trans (h : s.SameApart ts s') (h' : s'.SameApart ts s'') : s.SameApart ts s'' where
  thunk ht hc := h'.thunk ht (h.thunk ht hc)
  list ha := h'.list (h.list ha)
  set ha := h'.set (h.set ha)
  lambda ha := h'.lambda (h.lambda ha)
  builder hb := h'.builder (h.builder hb)
  thread a := (h'.thread a).trans (h.thread a)
  counters := h'.counters.trans h.counters
  registers := h'.registers.trans h.registers

theorem mono (h : s.SameApart ts s') (hsub : ts ⊆ ts') : s.SameApart ts' s' :=
  { h with thunk := fun ht hc => h.thunk (fun hm => ht (hsub hm)) hc }

theorem setThunk (s : Store) {t : Addr .thunk} (c : Thunk) (ht : t ∈ ts) :
    s.SameApart ts (s.setThunk t c) := by
  refine { refl s ts with thunk := fun {t' d} ht' hd => ?_ }
  have hne : t ≠ t' := by rintro rfl; exact ht' ht
  rw [Store.setThunk, Heap.get?_modify, if_neg hne, hd]

theorem changeDepth (s : Store) (env : Env) (f : Nat → Nat) :
    s.SameApart ts (s.changeDepth env f) := by
  rw [changeDepth_eq]
  refine { refl s ts with thread := fun a => ?_ }
  unfold Store.changeDepth
  split
  · simp only [Heap.get?_modify]
    split
    · rw [Option.map_map]
      rfl
    · rfl
  · rfl

theorem entered (s : Store) (env : Env) (body : Expr) {t : Addr .thunk} (ht : t ∈ ts) :
    s.SameApart ts (s.entered t env body) :=
  (changeDepth s env (· + 1)).trans { setThunk _ _ ht with }

theorem finishForce (s : Store) {t : Addr .thunk} (r : Except Error Value) (ht : t ∈ ts) :
    s.SameApart ts (s.finishForce t r) := by
  unfold Store.finishForce
  split
  · cases r <;> exact (changeDepth s _ _).trans (setThunk _ _ ht)
  · exact refl s ts

end Store.SameApart

/-! ### The links of a chain -/

/-- The first of the thunks in front of a value; the value itself if there is none. -/
def Value.front (v : Value) : List (Addr .thunk) → Value
  | [] => v
  | t :: _ => .thunk t

/-- Evaluating an expression comes to a value, or it does all that forcing this value does. It may
add cells and write into the journal before, and changes nothing else. -/
def Store.Yields (s : Store) (env : Env) (e : Expr) (w : Value) : Prop :=
  ∃ s₁, s.SameApart [] s₁ ∧ s₁.threads = s.threads ∧
    ((Comp.eval env e).Ends s (.ok w) s₁ ∨
      ∀ r s₂, (Comp.force w).Ends s₁ r s₂ → (Comp.eval env e).Ends s r s₂)

/-- An unforced thunk of a thread whose body yields a value, whatever has become of the thunks `all`
and however deep the threads are. -/
def Store.ChainLink (s : Store) (a : Addr .thread) (all : List (Addr .thunk)) (t : Addr .thunk)
    (w : Value) : Prop :=
  ∃ env body, s.thunks.get? t = some (.unforced env body) ∧ env.thread = some a ∧
    ∀ s', s.SameApart all s' → s'.Yields env body w

/-- The body of each thunk yields the next one, and that of the last one `v`. -/
def Store.Chain (s : Store) (a : Addr .thread) (all : List (Addr .thunk)) (v : Value) :
    List (Addr .thunk) → Prop
  | [] => True
  | t :: ts => s.ChainLink a all t (v.front ts) ∧ s.Chain a all v ts

namespace Store

variable {s s' : Store} {a : Addr .thread} {all ts : List (Addr .thunk)} {t : Addr .thunk}
  {v w : Value} {th : Thread}

theorem ChainLink.mono (h : s.ChainLink a all t w) (hs : s.SameApart all s')
    (ht : ∀ c, s.thunks.get? t = some c → s'.thunks.get? t = some c) : s'.ChainLink a all t w := by
  obtain ⟨env, body, hcell, ha, hy⟩ := h
  exact ⟨env, body, ht _ hcell, ha, fun s'' hs' => hy s'' (hs.trans hs')⟩

/-- A chain is one as long as its thunks are as they were. -/
theorem Chain.mono (h : s.Chain a all v ts) (hs : s.SameApart all s')
    (hts : ∀ t ∈ ts, ∀ c, s.thunks.get? t = some c → s'.thunks.get? t = some c) :
    s'.Chain a all v ts := by
  induction ts with
  | nil => trivial
  | cons t ts ih =>
    refine ⟨h.1.mono hs (hts t List.mem_cons_self), ih h.2 fun t' ht' => ?_⟩
    exact hts t' (List.mem_cons_of_mem t ht')

theorem Chain.unforced (h : s.Chain a all v ts) (ht : t ∈ ts) :
    ∃ env body, s.thunks.get? t = some (.unforced env body) := by
  induction ts with
  | nil => cases ht
  | cons t' ts ih =>
    rcases List.mem_cons.mp ht with rfl | ht
    · obtain ⟨env, body, hcell, -⟩ := h.1
      exact ⟨env, body, hcell⟩
    · exact ih h.2 ht

end Store

/-! ### Entering and leaving a thunk -/

namespace Store

variable {s : Store} {a : Addr .thread} {th : Thread} {t : Addr .thunk} {env : Env} {body : Expr}

theorem atLimit_of_thread (ha : env.thread = some a) (hth : s.threads.get? a = some th) :
    s.atLimit env = decide (th.limit ≤ th.depth) := by
  rw [atLimit, thread?, ha, Option.bind_some, hth]

theorem threads_entered (ha : env.thread = some a) (hth : s.threads.get? a = some th) :
    (s.entered t env body).threads.get? a = some { th with depth := th.depth + 1 } := by
  show (s.enter env).threads.get? a = _
  rw [enter, changeDepth, ha]
  exact Heap.get?_modify_self hth _

theorem thunks_entered (ht : s.thunks.get? t = some (.unforced env body)) :
    (s.entered t env body).thunks.get? t = some (.forcing env body) := by
  rw [entered, enter, changeDepth_eq, record, setThunk]
  exact Heap.get?_modify_self ht _

/-- Below the limit the body of an unforced thunk is run. -/
theorem start_force (ht : s.thunks.get? t = some (.unforced env body)) (ha : env.thread = some a)
    (hth : s.threads.get? a = some th) (hlt : th.depth < th.limit) :
    (Request.force t).start s =
      .run (do Comp.force (← Comp.eval env body)) (s.entered t env body) := by
  have hl : s.atLimit env = false := by
    rw [atLimit_of_thread ha hth]
    exact decide_eq_false (Nat.not_le.mpr hlt)
  simp only [Request.start, startForce, ht, hl]
  rfl

end Store

/-- What becomes of a thunk when the forcing of it has ended: it has its value, or it is as it was
before. -/
def Thunk.after (env : Env) (body : Expr) : Except Error Value → Thunk
  | .ok v => .forced v
  | .error _ => .unforced env body

theorem Store.get?_finishForce {s : Store} {t : Addr .thunk} {env : Env} {body : Expr}
    (ht : s.thunks.get? t = some (.forcing env body)) (r : Except Error Value) (t' : Addr .thunk) :
    (s.finishForce t r).thunks.get? t' =
      if t = t' then some (.after env body r) else s.thunks.get? t' := by
  rw [finishForce_eq ht, leave, changeDepth_eq, setThunk, Heap.get?_modify]
  split
  · subst t'
    rw [ht, Option.map_some]
    cases r <;> rfl
  · rfl

/-! ### One link -/

namespace Comp

variable {s s₁ s₂ : Store} {w : Value} {env : Env} {e : Expr} {r : Except Error Value}

/-- A body may force what it yields or leave that to the thunk: a second forcing of a value that is
no thunk does nothing. -/
theorem ends_force_eval
    (hy : (eval env e).Ends s (.ok w) s₁ ∨
      ∀ r s₂, (force w).Ends s₁ r s₂ → (eval env e).Ends s r s₂)
    (hw : (force w).Ends s₁ r s₂) (hr : ∀ u, r = .ok u → u.isWhnf) :
    (do force (← eval env e)).Ends s r s₂ := by
  rcases hy with hy | hy
  · exact hy.bind hw
  · have he := hy r s₂ hw
    cases r with
    | error e => exact he.bind_error
    | ok u => exact he.bind (Store.Forced.self (hr u rfl)).ends

end Comp

/-- A literal yields its value as it is. -/
theorem Store.yields_literal (s : Store) (env : Env) (w : Value) : s.Yields env (.lit w) w :=
  ⟨s, .refl s [], rfl, .inl (Comp.eval_literal env w)⟩

/-- A forced literal does what forcing its value does. -/
theorem Store.yields_force_literal (s : Store) (env : Env) (w : Value) :
    s.Yields env (.force (.lit w)) w := by
  refine ⟨s, .refl s [], rfl, .inr fun r s₂ hw => ?_⟩
  rw [Comp.eval, Comp.ends_request, Request.ends_run rfl]
  exact ⟨s₂, (Comp.eval_literal env w).bind hw, rfl⟩

namespace Store

variable {s : Store} {a : Addr .thread} {all ts : List (Addr .thunk)} {t : Addr .thunk}
  {v w : Value} {th : Thread}

/-- **One link.** Below the limit, forcing a link comes to what forcing the next value comes to, one
level deeper. The link has then come to the same value, or it is as it was. -/
theorem ChainLink.force (h : s.ChainLink a all t w) (hall : t ∈ all)
    (hth : s.threads.get? a = some th) (hlt : th.depth < th.limit) :
    ∃ s₁, s.SameApart [t] s₁ ∧ s₁.threads.get? a = some { th with depth := th.depth + 1 } ∧
      ∀ ts r s₂, t ∉ ts → s₁.SameApart ts s₂ → (Comp.force w).Ends s₁ r s₂ →
        (∀ u, r = .ok u → u.isWhnf) →
        ∃ s', (Comp.force (.thunk t)).Ends s r s' ∧ s.SameApart (t :: ts) s' ∧
          (∀ u, r = .ok u → s'.thunks.get? t = some (.forced u)) ∧
          (∀ e, r = .error e → s'.thunks.get? t = s.thunks.get? t) ∧
          ∀ t', t ≠ t' → s'.thunks.get? t' = s₂.thunks.get? t' := by
  obtain ⟨env, body, ht, ha, hy⟩ := h
  have hentered : s.SameApart [t] (s.entered t env body) := .entered s env body List.mem_cons_self
  obtain ⟨s₁, hs₁, hthreads, hbody⟩ := hy _ (hentered.mono (by simpa using hall))
  have hfirst : s.SameApart [t] s₁ := hentered.trans (hs₁.mono (List.nil_subset _))
  -- the store `s₁` is that in which the body has come to the next value
  refine ⟨s₁, hfirst, ?_, ?_⟩
  · rw [hthreads]
    exact threads_entered ha hth
  · intro ts r s₂ hts hs₂ hw hr
    have hcell := hs₂.thunk hts (hs₁.thunk List.not_mem_nil (thunks_entered ht))
    have hget := get?_finishForce hcell r
    refine ⟨s₂.finishForce t r, ?_, ?_, ?_, ?_, ?_⟩
    · rw [Comp.force, Comp.ends_request, Request.ends_run (start_force ht ha hth hlt)]
      exact ⟨s₂, Comp.ends_force_eval hbody hw hr, rfl⟩
    · have hlast : s₂.SameApart (t :: ts) (s₂.finishForce t r) :=
        .finishForce s₂ r List.mem_cons_self
      exact ((hfirst.mono (by simp)).trans (hs₂.mono (List.subset_cons_self t ts))).trans hlast
    · rintro u rfl
      rw [hget, if_pos rfl]
      rfl
    · rintro e rfl
      rw [hget, if_pos rfl, ht]
      rfl
    · intro t' hne
      rw [hget, if_neg hne]

/-- At the limit a link is refused. -/
theorem ChainLink.refused (h : s.ChainLink a all t w) (hth : s.threads.get? a = some th)
    (hge : th.limit ≤ th.depth) :
    (Comp.force (.thunk t)).Ends s (.error (.eval .depthLimit)) s := by
  obtain ⟨env, body, ht, ha, -⟩ := h
  refine Comp.force_at_limit ht ?_
  rw [atLimit_of_thread ha hth]
  exact decide_eq_true hge

/-! ### The whole chain -/

/-- How it ends when so many thunks of a thread are forced, one inside the other. -/
def Chain.outcome (th : Thread) (n : Nat) (v : Value) : Except Error Value :=
  if th.depth + n ≤ th.limit then .ok v else .error (.eval .depthLimit)

/-- One thunk takes one level. -/
theorem Chain.outcome_succ (th : Thread) (n : Nat) (v : Value) :
    Chain.outcome { th with depth := th.depth + 1 } n v = Chain.outcome th (n + 1) v := by
  unfold outcome
  rw [show th.depth + (n + 1) = th.depth + 1 + n by omega]
  rfl

theorem Chain.outcome_whnf {n : Nat} (hv : v.isWhnf) {u : Value}
    (h : outcome th n v = .ok u) : u.isWhnf := by
  unfold outcome at h
  split at h <;> cases h
  exact hv

/-- Forcing the first thunk of a chain: the chain needs as many levels as it has thunks. -/
theorem Chain.force (h : s.Chain a all v ts) (hnodup : ts.Nodup) (hsub : ts ⊆ all)
    (hv : v.isWhnf) (hth : s.threads.get? a = some th) (hle : th.depth ≤ th.limit) :
    ∃ s', (Comp.force (v.front ts)).Ends s (outcome th ts.length v) s' ∧ s.SameApart ts s' ∧
      ∀ t ∈ ts, s'.thunks.get? t =
        if th.depth + ts.length ≤ th.limit then some (.forced v) else s.thunks.get? t := by
  -- the depth varies along the chain: the links in front of a thunk are still being forced
  induction ts generalizing s th with
  | nil =>
    refine ⟨s, ?_, .refl s [], fun t ht => absurd ht List.not_mem_nil⟩
    rw [outcome, if_pos (by simpa using hle)]
    exact (Forced.self hv).ends
  | cons t ts ih =>
    obtain ⟨hlink, hrest⟩ := h
    obtain ⟨ht, hnodup⟩ := List.nodup_cons.mp hnodup
    obtain ⟨hall, hsub⟩ := List.cons_subset.mp hsub
    have hne : ∀ t' ∈ ts, t ≠ t' := fun t' ht' => by rintro rfl; exact ht ht'
    by_cases hlt : th.depth < th.limit
    · obtain ⟨s₁, hs₁, hth₁, hgo⟩ := hlink.force hall hth hlt
      have hsame : ∀ t' ∈ ts, ∀ c, s.thunks.get? t' = some c → s₁.thunks.get? t' = some c :=
        fun t' ht' c => hs₁.thunk (by simpa using (hne t' ht').symm)
      have hrest₁ := hrest.mono (hs₁.mono (by simpa using hall)) hsame
      obtain ⟨s₂, hw, hs₂, hcells⟩ := ih hrest₁ hnodup hsub hth₁ hlt
      rw [outcome_succ] at hw
      obtain ⟨s', hends, hs', hok, herr, hothers⟩ :=
        hgo ts _ s₂ ht hs₂ hw fun u => outcome_whnf hv
      refine ⟨s', hends, hs', fun t' ht' => ?_⟩
      rcases List.mem_cons.mp ht' with rfl | ht'
      · split
        · rename_i hfits
          exact hok v (if_pos hfits)
        · rename_i hfits
          exact herr _ (if_neg hfits)
      · obtain ⟨env, body, hcell⟩ := hrest.unforced ht'
        rw [hothers t' (hne t' ht'), hcells t' ht', hcell, hsame t' ht' _ hcell, List.length_cons,
          show th.depth + (ts.length + 1) = th.depth + 1 + ts.length by omega]
        rfl
    · have hlimit : ¬ th.depth + (t :: ts).length ≤ th.limit := by
        rw [List.length_cons]
        omega
      refine ⟨s, ?_, .refl s _, fun t' _ => (if_neg hlimit).symm⟩
      rw [outcome, if_neg hlimit]
      exact hlink.refused hth (Nat.not_lt.mp hlt)

/-- Forcing a chain from the inside out: each body finds the next value forced, and one level is
enough. -/
theorem Chain.force_inside_out (h : s.Chain a all v ts) (hnodup : ts.Nodup) (hsub : ts ⊆ all)
    (hv : v.isWhnf) (hth : s.threads.get? a = some th) (hlt : th.depth < th.limit) :
    ∃ s', (ts.reverse.mapM fun t => Comp.force (.thunk t)).Ends s
        (.ok (List.replicate ts.length v)) s' ∧
      s.SameApart ts s' ∧ ∀ t ∈ ts, s'.thunks.get? t = some (.forced v) := by
  -- on the chain: the rest of it, which is further in, is forced first
  induction ts generalizing s with
  | nil =>
    exact ⟨s, Comp.ends_pure.mpr ⟨rfl, rfl⟩, .refl s [], fun t ht => absurd ht List.not_mem_nil⟩
  | cons t ts ih =>
    obtain ⟨hlink, hrest⟩ := h
    obtain ⟨ht, hnodup⟩ := List.nodup_cons.mp hnodup
    obtain ⟨hall, hsub⟩ := List.cons_subset.mp hsub
    obtain ⟨s₁, hends, hs₁, hforced⟩ := ih hrest hnodup hsub hth
    have hlink₁ := hlink.mono (hs₁.mono hsub) fun c => hs₁.thunk ht
    have hth₁ : s₁.threads.get? a = some th := by rw [(later_law.ends hends).threads, hth]
    obtain ⟨s₂, hs₂, -, hgo⟩ := hlink₁.force hall hth₁ hlt
    -- the next value is the end of the chain or a thunk that has been forced
    have hnext : (Comp.force (v.front ts)).Ends s₂ (.ok v) s₂ := by
      cases ts with
      | nil => exact (Forced.self hv).ends
      | cons t' ts =>
        have hne : t' ∉ [t] := by
          simpa using fun hteq : t' = t => ht (hteq ▸ List.mem_cons_self)
        exact (forced_thunk (hs₂.thunk hne (hforced t' List.mem_cons_self))).ends
    obtain ⟨s', hlast, hs', hok, -, hothers⟩ := hgo [] _ s₂ List.not_mem_nil (.refl s₂ []) hnext
      (fun u hu => by cases hu; exact hv)
    refine ⟨s', ?_, ?_, ?_⟩
    · rw [List.reverse_cons, List.mapM_append, List.length_cons, List.replicate_succ']
      refine hends.bind (Comp.Ends.bind ?_ (Comp.ends_pure.mpr ⟨rfl, rfl⟩))
      rw [List.mapM_cons, List.mapM_nil]
      exact hlast.bind (Comp.ends_pure.mpr ⟨rfl, rfl⟩)
    · exact (hs₁.mono (List.subset_cons_self t ts)).trans (hs'.mono (by simp))
    · intro t' ht'
      rcases List.mem_cons.mp ht' with rfl | ht'
      · exact hok v rfl
      · have hne : t ≠ t' := by rintro rfl; exact ht ht'
        rw [hothers t' hne]
        exact hs₂.thunk (by simpa using hne.symm) (hforced t' ht')

end Store

/-! ### The boundary -/

/-- **The limit at the boundary.** A thread has the depth `d` and the limit `m`, which no thread of
a run exceeds, and `ts` is a chain of `n` of its thunks that ends at a value. Forcing the chain
comes to that value exactly if `d + n` is at most `m`, and then every thunk of it has been forced to
that value. Otherwise it fails with an infinite recursion, every thunk is as it was before and so is
every thread; and if `d` is below `m`, the thunks can then be forced from the inside out, one after
the other. -/
theorem limit_at_boundary {s : Store} {a : Addr .thread} {th : Thread} {v : Value}
    {ts : List (Addr .thunk)} (hth : s.threads.get? a = some th) (hle : th.depth ≤ th.limit)
    (hv : v.isWhnf) (hnodup : ts.Nodup) (h : s.Chain a ts v ts) :
    ((∃ s', (Comp.force (v.front ts)).Ends s (.ok v) s') ↔ th.depth + ts.length ≤ th.limit) ∧
    (th.depth + ts.length ≤ th.limit → ∃ s', (Comp.force (v.front ts)).Ends s (.ok v) s' ∧
      s'.threads = s.threads ∧ ∀ t ∈ ts, s'.thunks.get? t = some (.forced v)) ∧
    (th.limit < th.depth + ts.length → ∃ e s', (Comp.force (v.front ts)).Ends s (.error e) s' ∧
      e.kind? = some .infiniteRecursion ∧ s'.threads = s.threads ∧
      (∀ t ∈ ts, ∃ env body, s.thunks.get? t = some (.unforced env body) ∧
        s'.thunks.get? t = some (.unforced env body)) ∧
      (th.depth < th.limit →
        ∃ s'', (ts.reverse.mapM fun t => Comp.force (.thunk t)).Ends s'
            (.ok (List.replicate ts.length v)) s'' ∧
          s''.threads = s.threads ∧ ∀ t ∈ ts, s''.thunks.get? t = some (.forced v))) := by
  obtain ⟨s', hends, hs', hcells⟩ := h.force hnodup (List.Subset.refl ts) hv hth hle
  have hthreads : s'.threads = s.threads := (Store.later_law.ends hends).threads
  by_cases hfits : th.depth + ts.length ≤ th.limit
  · rw [Store.Chain.outcome, if_pos hfits] at hends
    simp only [if_pos hfits] at hcells
    refine ⟨⟨fun _ => hfits, fun _ => ⟨s', hends⟩⟩, fun _ => ⟨s', hends, hthreads, hcells⟩, ?_⟩
    intro hlong
    omega
  · rw [Store.Chain.outcome, if_neg hfits] at hends
    simp only [if_neg hfits] at hcells
    refine ⟨⟨?_, fun h' => absurd h' hfits⟩, fun h' => absurd h' hfits, fun _ => ?_⟩
    · rintro ⟨s₁, h₁⟩
      cases (hends.unique h₁).1
    · refine ⟨_, s', hends, rfl, hthreads, fun t ht => ?_, fun hlt => ?_⟩
      · obtain ⟨env, body, hcell⟩ := h.unforced ht
        exact ⟨env, body, hcell, (hcells t ht).trans hcell⟩
      · -- after the failure every thunk is as before, so the chain still stands
        have h' := h.mono hs' fun t ht c hc => (hcells t ht).trans hc
        obtain ⟨s'', hends', -, hforced⟩ :=
          h'.force_inside_out hnodup (List.Subset.refl ts) hv (hthreads ▸ hth) hlt
        exact ⟨s'', hends', (Store.later_law.ends hends').threads.trans hthreads, hforced⟩

/-- Three thunks in front of a number under a limit of two, the first of which forces the next one
itself: all three are too many at once, the last two are not, and one by one all of them come to the
number. -/
theorem limit_at_boundary_of_three :
    let env : Env := ⟨some ⟨0⟩, [], []⟩
    let s := ((((Store.initial.newThread ⟨"main", "/", false, 2⟩).2.newThunk env
      (.force (.lit (.thunk ⟨1⟩)))).2.newThunk env (.lit (.thunk ⟨2⟩))).2.newThunk env
        (.lit (.int 7))).2
    (∃ e s' s'', (Comp.force (.thunk ⟨0⟩)).Ends s (.error e) s' ∧
      e.kind? = some .infiniteRecursion ∧
      ([⟨2⟩, ⟨1⟩, ⟨0⟩].mapM fun t => Comp.force (.thunk t)).Ends s'
        (.ok [.int 7, .int 7, .int 7]) s'') ∧
    ∃ s', (Comp.force (.thunk ⟨1⟩)).Ends s (.ok (.int 7)) s' ∧
      s'.thunks.get? ⟨2⟩ = some (.forced (.int 7)) := by
  intro env s
  have hth : s.threads.get? ⟨0⟩ = some ⟨⟨"main", "/", false, 2⟩, none, 0⟩ := rfl
  have hlast : ∀ all, s.ChainLink ⟨0⟩ all ⟨2⟩ (.int 7) :=
    fun all => ⟨env, _, rfl, rfl, fun s' _ => s'.yields_literal env _⟩
  have hnext : ∀ all, s.ChainLink ⟨0⟩ all ⟨1⟩ (.thunk ⟨2⟩) :=
    fun all => ⟨env, _, rfl, rfl, fun s' _ => s'.yields_literal env _⟩
  have hfirst : ∀ all, s.ChainLink ⟨0⟩ all ⟨0⟩ (.thunk ⟨1⟩) :=
    fun all => ⟨env, _, rfl, rfl, fun s' _ => s'.yields_force_literal env _⟩
  have hall : s.Chain ⟨0⟩ [⟨0⟩, ⟨1⟩, ⟨2⟩] (.int 7) [⟨0⟩, ⟨1⟩, ⟨2⟩] :=
    ⟨hfirst _, hnext _, hlast _, trivial⟩
  have htwo : s.Chain ⟨0⟩ [⟨1⟩, ⟨2⟩] (.int 7) [⟨1⟩, ⟨2⟩] := ⟨hnext _, hlast _, trivial⟩
  obtain ⟨-, -, hlong⟩ := limit_at_boundary hth (by decide) rfl (by decide) hall
  obtain ⟨-, hshort, -⟩ := limit_at_boundary hth (by decide) rfl (by decide) htwo
  obtain ⟨e, s', hends, hkind, -, -, hagain⟩ := hlong (by decide)
  obtain ⟨s'', hends', -⟩ := hagain (by decide)
  obtain ⟨s₁, hends₁, -, hforced⟩ := hshort (by decide)
  exact ⟨⟨e, s', s'', hends, hkind, hends'⟩, s₁, hends₁, hforced ⟨2⟩ (by decide)⟩

end NixKernel
