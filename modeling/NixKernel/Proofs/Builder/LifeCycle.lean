import NixKernel.Proofs.Builder.Known
import NixKernel.Proofs.Builder.Marks

/-!
The life of a set under construction, whatever calls are made and however deep they are nested: its
entries are taken up in their order and each once, the names in their paths are evaluated once, it
is assembled once, and what has come of it stays. This needs that no expression goes on after an
error: if an entry does, the set can be finished after another entry has failed.
-/

namespace NixKernel

variable {s s' : Store} {b : Addr .builder} {τ : String}

/-! ### One mark -/

/-- The tag occurs once in a store: a component of the path of an entry is marked with it. -/
structure Store.MarkedAt (τ : String) (s : Store) (b : Addr .builder) (i j : Nat) : Prop where
  thunk : ∀ {t c}, s.thunks.get? t = some c → c.All (Expr.Free τ)
  lambda : ∀ {a f}, s.lambdas.get? a = some f → f.All (Expr.Free τ)
  slots : ∀ {b' d}, s.builders.get? b' = some d → ∀ p ∈ d.slots, p.2.All (Expr.Free τ)
  value : ∀ {b' d}, s.builders.get? b' = some d → ∀ e ∈ d.entries.toList, e.value.Free τ
  component : ∀ {b' d i' e j' x}, s.builders.get? b' = some d → d.entries[i']? = some e →
    e.path[j']? = some x → (b' = b ∧ i' = i ∧ j' = j ∧ ∃ y, x = .trace τ y ∧ y.Free τ) ∨
      (¬ (b' = b ∧ i' = i ∧ j' = j) ∧ x.Free τ)
  here : ∃ d e x, s.builders.get? b = some d ∧ d.entries[i]? = some e ∧ e.path[j]? = some x

section Sums

variable {α : Type} {f : α → Nat} {l : List α}

theorem sum_map_eq_zero (h : ∀ (k : Nat) x, l[k]? = some x → f x = 0) : (l.map f).sum = 0 := by
  refine List.sum_eq_zero (List.forall_mem_map.mpr fun x hx => ?_)
  obtain ⟨k, hk⟩ := List.mem_iff_getElem?.mp hx
  exact h k x hk

/-- At most one member of a list counts, and that once. -/
theorem sum_map_le_one {i : Nat} (h : ∀ k x, l[k]? = some x → f x ≤ if k = i then 1 else 0) :
    (l.map f).sum ≤ 1 := by
  induction l generalizing i with
  | nil => exact Nat.zero_le 1
  | cons x l ih =>
    rw [List.map_cons, List.sum_cons]
    cases i with
    | zero =>
      have hx := h 0 x rfl
      have hl : (l.map f).sum = 0 :=
        sum_map_eq_zero fun k y hk => Nat.le_zero.mp (h (k + 1) y hk)
      rw [if_pos rfl] at hx
      omega
    | succ i =>
      have hx := h 0 x rfl
      have hl := ih (i := i) fun k y hk => by simpa using h (k + 1) y hk
      rw [if_neg (Nat.succ_ne_zero i).symm] at hx
      omega

end Sums

namespace Store.MarkedAt

variable {i j : Nat}

theorem fits (h : s.MarkedAt τ b i j) : s.Fits τ where
  thunk := h.thunk
  lambda := h.lambda
  entries {b' d} hb e he := by
    refine ⟨h.value hb e he, fun x hx => ?_⟩
    obtain ⟨i', hi'⟩ := List.mem_iff_getElem?.mp he
    obtain ⟨j', hj'⟩ := List.mem_iff_getElem?.mp hx
    rcases h.component hb (by rwa [← Array.getElem?_toList]) hj' with ⟨-, -, -, hm⟩ | ⟨-, hf⟩
    · exact .inr hm
    · exact .inl hf
  slots {b' d} hb p hp := by
    have hall := h.slots hb p hp
    cases hp2 : p.2 with
    | leaf v => trivial
    | tree es =>
      rw [hp2] at hall
      exact fun e he => (hall e he).fits

theorem marks_le (h : s.MarkedAt τ b i j) {b' : Addr .builder} {d : Builder} {i' : Nat} {e : Entry}
    (hb : s.builders.get? b' = some d) (he : d.entries[i']? = some e) :
    e.marks τ ≤ if b' = b ∧ i' = i then 1 else 0 := by
  split
  · refine sum_map_le_one (i := j) fun k x hk => ?_
    rcases h.component hb he hk with ⟨-, -, rfl, -⟩ | ⟨-, hf⟩
    · rw [if_pos rfl]
      exact Bool.toNat_le _
    · rw [hf.not_marked]
      exact Nat.zero_le _
  · rename_i hne
    refine Nat.le_of_eq (sum_map_eq_zero fun k x hk => ?_)
    rcases h.component hb he hk with ⟨h₁, h₂, -⟩ | ⟨-, hf⟩
    · exact absurd ⟨h₁, h₂⟩ hne
    · rw [hf.not_marked]
      rfl

/-- No mark has been gathered yet. -/
theorem gathered_eq_zero (h : s.MarkedAt τ b i j) {b' : Addr .builder} {d : Builder}
    (hb : s.builders.get? b' = some d) : d.gathered τ = 0 := by
  refine List.sum_eq_zero (List.forall_mem_map.mpr fun p hp => ?_)
  have hall := h.slots hb p hp
  cases hp2 : p.2 with
  | leaf v => rfl
  | tree es =>
    rw [hp2] at hall
    exact marksOf_free hall

theorem live_le (h : s.MarkedAt τ b i j) (b' : Addr .builder) :
    s.live τ s b' ≤ if b' = b then 1 else 0 := by
  cases hb : s.builders.get? b' with
  | none =>
    rw [live_of_none hb]
    exact Nat.zero_le _
  | some d =>
    have hentry : ∀ k e, (d.entries.toList.drop d.next)[k]? = some e →
        e.marks τ ≤ if b' = b ∧ d.next + k = i then 1 else 0 := fun k e hk => by
      rw [List.getElem?_drop, Array.getElem?_toList] at hk
      exact h.marks_le hb hk
    rw [live_eq hb, h.gathered_eq_zero hb, if_pos rfl, Nat.add_zero]
    split
    · -- the marked entry comes as many places after the first that is left
      refine sum_map_le_one (i := i - d.next) fun k e hk => Nat.le_trans (hentry k e hk) ?_
      split
      · rw [if_pos (by omega)]
      · exact Nat.zero_le _
    · rename_i hne
      refine Nat.le_of_eq (sum_map_eq_zero fun k e hk => ?_)
      have := hentry k e hk
      rw [if_neg fun h => hne h.1] at this
      exact Nat.le_zero.mp this

/-- There is one mark in the store. -/
theorem marked_le (h : s.MarkedAt τ b i j) : s.marked τ s ≤ s.journal.count (.tag τ) + 1 := by
  obtain ⟨d, e, x, hb, -⟩ := h.here
  obtain ⟨n⟩ := b
  have hsum := sum_range_le (f := fun _ => 0) (g := fun k => s.live τ s ⟨k⟩) (i := n)
    (Nat.le_refl s.builders.next.index) (Heap.lt_of_get? hb) (fun _ _ => rfl)
    (fun k hk => Nat.le_trans (h.live_le ⟨k⟩) (Nat.le_of_eq (if_neg fun h => hk (by injection h))))
    (show s.live τ s ⟨n⟩ + 0 ≤ 0 + 1 from Nat.le_trans (h.live_le ⟨n⟩) (Nat.le_of_eq (if_pos rfl)))
  rw [Finset.sum_const_zero] at hsum
  rw [marked]
  omega

end Store.MarkedAt

/-- A marked expression writes its tag when it is evaluated. -/
theorem Store.Evaluates.tagged {env : Env} {x : Expr} {o : Option String}
    (h : s.Evaluates s' env (.trace τ x) o) :
    s.journal.count (.tag τ) < s'.journal.count (.tag τ) := by
  obtain ⟨s₁, s₂, h₁, h₂, hends⟩ := h
  obtain ⟨v, s₃, h₃, h₄⟩ := Comp.ends_bind_ok.mp hends
  obtain ⟨s₄, h₅, rfl⟩ := (Request.ends_run (q := .eval env (.trace τ x)) rfl).mp
    (Comp.ends_request.mp h₃)
  replace h₅ := (Comp.perform_ends (.record (.tag τ)) s₁).bind_iff.mp h₅
  have hsuffix : Event.tag τ :: s₁.journal <:+ s'.journal :=
    ((Store.journal_law.ends h₅).trans (Store.journal_law.ends h₄)).trans h₂
  have hle := hsuffix.sublist.count_le (.tag τ)
  have hle₁ := h₁.sublist.count_le (.tag τ)
  rw [List.count_cons_self] at hle
  omega

namespace Store.MarkedAt

variable {i j : Nat} {calls : List Call} {m : Machine Unit} (h : s.MarkedAt τ b i j)
  (hs : s.Rested) (hcalls : ∀ c ∈ calls, c.All Expr.Propagates)
  (hfree : ∀ c ∈ calls, c.All (Expr.Free τ)) (hm : (Machine.load (.callAll calls) s).Passes m)

include h hs hcalls hfree hm

/-- The mark is used once at most. -/
theorem used_le : m.store.journal.count (.tag τ) ≤ s.journal.count (.tag τ) + 1 := by
  have hcount : m.store.journal.count (.tag τ) ≤ s.marked τ m.store := Nat.le_add_right _ _
  have hle := (hm.marks hs hcalls h.fits hfree).2
  have hle₀ := h.marked_le
  omega

/-- When the set is built, the mark is used, unless a component before it in the path is null. -/
theorem used {d : Builder} {e : Entry} (hb : m.store.builders.get? b = some d)
    (he : d.entries[i]? = some e) (hi : d.next ≤ i) (hd : d.outcome = .underway)
    (ha : d.active = 0) (hr : (Request.build b).Ends m.store (.ok ()) s') :
    s'.journal.count (.tag τ) = s.journal.count (.tag τ) + 1 ∨
      ∃ j' x, j' < j ∧ e.path[j']? = some x ∧ m.store.Evaluates s' d.env x none := by
  have hsound := hm.sound hs hcalls
  obtain ⟨d₀, e₀, x, hb₀, he₀, hx⟩ := h.here
  obtain ⟨d', hb', -, hentries⟩ := hm.builder hb₀
  cases hb.symm.trans hb'
  cases he.symm.trans (hentries ▸ he₀)
  have hevaluates :=
    Request.build_evaluates j hsound.propagates (hsound.proper b) hb hd ha hi he hx hr
  refine hevaluates.imp_left fun ⟨o, hev⟩ => ?_
  rcases h.component hb₀ he₀ hx with ⟨-, -, -, y, rfl, -⟩ | ⟨hne, -⟩
  · -- it is used in the build, and there is no second mark for another use
    obtain ⟨hfits, hle⟩ := hm.marks hs hcalls h.fits hfree
    obtain ⟨-, hle'⟩ := Request.Costs.ends (q := .build b) (k := 0) trivial
      ⟨hsound.propagates, trivial, trivial⟩ hsound.past hsound.proper hfits hr
    have hcount : s'.journal.count (.tag τ) ≤ s.marked τ s' := Nat.le_add_right _ _
    have hle₀ := h.marked_le
    have htagged := hev.tagged
    have hkept := hsound.past.journal.sublist.count_le (.tag τ)
    omega
  · exact absurd ⟨rfl, rfl, rfl⟩ hne

end Store.MarkedAt

/-! ### An entry with a mark -/

/-- The entry `x.y = 1`, whose second name is marked. -/
def markedEntry : Entry := ⟨[.string "x", .trace "y" (.string "y")], .lit (.int 1)⟩

/-- A store with a set under construction, which has the one entry. -/
def Store.oneMark : Store := .underway [markedEntry]

theorem Store.arises_oneMark : Store.oneMark.Arises := Store.arises_underway 3 rfl

theorem Store.get?_oneMark {b : Addr .builder} {d : Builder}
    (hb : Store.oneMark.builders.get? b = some d) :
    b = ⟨0⟩ ∧ d.entries = #[markedEntry] ∧ d.slots = [] := by
  simp only [oneMark, underway, newBuilder, Heap.get?_push] at hb
  split at hb
  · cases hb
    exact ⟨‹_›, rfl, rfl⟩
  · simp [initial, Heap.get?, Heap.empty] at hb

theorem Store.markedAt_oneMark : Store.oneMark.MarkedAt "y" ⟨0⟩ 0 1 := by
  have hlit : ∀ v, (Expr.lit v).Free "y" := (Expr.free_hereditary "y").lit
  have hvar : (Expr.var "x").Free "y" := ⟨fun _ h => (by cases h), fun _ h => (by cases h)⟩
  refine ⟨fun {t c} ht => ?_, fun {a f} hf => ?_, fun hb p hp => ?_, fun hb e he => ?_,
    fun {b' d i' e j' x} hb he hx => ?_, ?_⟩
  · simp [oneMark, underway, newBuilder, initial, Heap.get?, Heap.empty] at ht
  · have hmem : f ∈ [typeOfLambda] := List.mem_of_getElem? (i := a.index) (by
      simpa [oneMark, underway, newBuilder, initial, Heap.get?] using hf)
    cases List.mem_singleton.mp hmem
    refine ⟨⟨fun _ h => (by cases h), fun x hx => ?_⟩, fun x hx => by cases hx⟩
    cases List.mem_singleton.mp hx
    exact hvar
  · rw [(get?_oneMark hb).2.2] at hp
    cases hp
  · rw [(get?_oneMark hb).2.1] at he
    cases List.mem_singleton.mp he
    exact hlit _
  · obtain ⟨rfl, hentries, -⟩ := get?_oneMark hb
    rw [hentries] at he
    obtain rfl : i' = 0 := by
      have := (Array.getElem?_eq_some_iff.mp he).1
      simpa using this
    cases he
    rcases j' with _ | _ | j'
    · cases hx
      exact .inr ⟨fun h => (by cases h.2.2), hlit _⟩
    · cases hx
      exact .inl ⟨rfl, rfl, rfl, _, rfl, hlit _⟩
    · cases hx
  · exact ⟨_, markedEntry, _, rfl, rfl, rfl⟩

/-! ### The life of a set under construction -/

/-- **The life of a set under construction.** In every state that a sequence of calls passes, if no
expression goes on after an error: the entries that have been taken up are noted in their order and
each once; a name in the path of an entry, marked so that it can be told from all others, has been
evaluated at most once, and once the set is built just once unless a name before it in the path is
null; the set has been assembled at most once, and not at all if it was settled before. Whatever is
run leaves as many entries in progress as there were. The names in order are all different and they
are the names of the slots, and there is never both a finished set and an error. The outermost
construction leaves just one of the two, as it succeeds or fails itself, so that the set of some
entries fails only as its construction does. Once there is a set or an error, both stay as they are
in all states that follow, and from then on the construction answers so, without any effect. -/
theorem builder_life_cycle (hs : s.Arises) {calls : List Call}
    (hcalls : ∀ c ∈ calls, c.All Expr.Propagates) {m : Machine Unit}
    (hm : (Machine.load (.callAll calls) s).Passes m) (b : Addr .builder) :
    m.store.taken b = s.taken b ++ List.range' (s.nextOf b) (m.store.nextOf b - s.nextOf b) ∧
    (∀ τ i j, s.MarkedAt τ b i j → (∀ c ∈ calls, c.All (Expr.Free τ)) →
      m.store.journal.count (.tag τ) ≤ s.journal.count (.tag τ) + 1 ∧
      ∀ d e s', m.store.builders.get? b = some d → d.entries[i]? = some e → d.next ≤ i →
        d.outcome = .underway → d.active = 0 → (Request.build b).Ends m.store (.ok ()) s' →
        s'.journal.count (.tag τ) = s.journal.count (.tag τ) + 1 ∨
          ∃ j' x, j' < j ∧ e.path[j']? = some x ∧ m.store.Evaluates s' d.env x none) ∧
    (m.store.assemblies b ≤ s.assemblies b + 1 ∧
      ∀ d, s.builders.get? b = some d → d.outcome ≠ .underway →
        m.store.assemblies b = s.assemblies b) ∧
    (∀ {α : Type} (c : Comp α) (r : Except Error α) (s' : Store) (d : Builder),
      c.Ends m.store r s' → m.store.builders.get? b = some d →
        ∃ d', s'.builders.get? b = some d' ∧ d'.active = d.active) ∧
    (∀ d, m.store.builders.get? b = some d →
      d.order.Nodup ∧ d.order = d.slots.map Prod.fst ∧ (d.set = none ∨ d.err = none)) ∧
    (∀ d r s', m.store.builders.get? b = some d → d.active = 0 →
      (Request.build b).Ends m.store r s' → ∃ d', s'.builders.get? b = some d' ∧
        ((∃ a, r = .ok () ∧ d'.set = some a ∧ d'.err = none) ∨
          ∃ e, r = .error e ∧ d'.set = none ∧ d'.err = some e)) ∧
    (∀ env entries recursive r s', (Comp.construct env entries recursive).Ends m.store r s' →
      (Request.build (m.store.newBuilder env entries recursive).1).Ends
        (m.store.newBuilder env entries recursive).2 (r.map fun _ => ()) s') ∧
    ∀ d, m.store.builders.get? b = some d → d.set ≠ none ∨ d.err ≠ none →
      ∀ m' : Machine Unit, m.Passes m' →
        (∃ d', m'.store.builders.get? b = some d' ∧ d'.set = d.set ∧ d'.err = d.err) ∧
        ∀ r s', (Request.build b).Ends m'.store r s' ↔ r = d.answer ∧ s' = m'.store := by
  have hrest := hs.rested
  have hsound := hm.sound hrest hcalls
  refine ⟨hsound.past.taken b, fun τ i j hmark hfree => ⟨hmark.used_le hrest hcalls hfree hm,
      fun d e s' => hmark.used hrest hcalls hfree hm⟩,
    ⟨?_, fun d hb hd => (hsound.past.settled hb hd).2⟩, fun c r s' d hr hb => ?_, fun d hb => ?_,
    fun d r s' hb ha hr => ?_,
    fun env entries recursive r s' hr => (Comp.construct_settles hr).1, fun d hb hd m' hp => ?_⟩
  · rcases hsound.past.assembled b with h | ⟨h, -⟩ <;> omega
  · obtain ⟨d', hb', hages⟩ := (Store.ages_law.ends hr).builder hb
    exact ⟨d', hb', hages.active⟩
  · have hproper := hsound.proper b d hb
    exact ⟨hproper.names ▸ hproper.nodup, hproper.names, hproper.apart⟩
  · have hlegal : (Request.build b).Legal m.store := ⟨hsound.propagates, trivial, trivial⟩
    obtain ⟨d', hb', hd'⟩ := Request.build_settles hsound.propagates hb ha hr
    have hproper := hlegal.proper hr (hsound.proper b) d' hb'
    refine ⟨d', hb', ?_⟩
    rcases hd' with ⟨a, hr, hd'⟩ | ⟨e, hr, hd'⟩
    · exact .inl ⟨a, hr, Builder.set_of_built hd', (Builder.outcome_eq_built.mp hd').1⟩
    · exact .inr ⟨e, hr, hproper.set_eq_none (.inr ⟨e, hd'⟩), Builder.outcome_eq_failed.mp hd'⟩
  · have hout : d.outcome ≠ .underway := fun h => by
      obtain ⟨herr, hset⟩ := Builder.outcome_eq_underway.mp h
      exact hd.elim (fun h => h hset) fun h => h herr
    obtain ⟨d', hb', hset, herr⟩ := hm.settled hrest hcalls hp hb hout
    have hout' : d'.outcome ≠ .underway := by rwa [Builder.outcome_congr hset herr]
    refine ⟨⟨d', hb', hset, herr⟩, fun r s' => ?_⟩
    rw [show d.answer = d'.answer by rw [Builder.answer, Builder.answer, herr]]
    exact Request.build_settled hb' hout'

/-- A set with one entry, `x.y = 1`, whose second name is marked: after its construction the entry
has been taken up, the mark has been used, and there is a set for good. -/
theorem builder_life_cycle_path : ∃ (s : Store) (m : Machine Unit), s.Arises ∧
    s.MarkedAt "y" ⟨0⟩ 0 1 ∧ (Machine.load (.callAll [.build ⟨0⟩]) s).Passes m ∧
    m.store.taken ⟨0⟩ = [0] ∧ m.store.journal.count (.tag "y") = 1 ∧
    m.store.journal.count (.tag "y") ≤ s.journal.count (.tag "y") + 1 ∧
    ∀ r s', (Request.build ⟨0⟩).Ends m.store r s' ↔ r = .ok () ∧ s' = m.store := by
  have hrun : ((Machine.load (.callAll [.build ⟨0⟩]) Store.oneMark).after 34).map (fun m =>
      (m.store.taken ⟨0⟩, m.store.journal.count (.tag "y"),
        (m.store.builders.get? ⟨0⟩).map fun d => (d.set, d.err.isSome))) =
      some ([0], 1, some (some ⟨4⟩, false)) := by decide +kernel
  obtain ⟨m, hm, hfacts⟩ := Option.map_eq_some_iff.mp hrun
  obtain ⟨htaken, hfacts⟩ := Prod.mk.inj hfacts
  obtain ⟨hcount, hbuilt⟩ := Prod.mk.inj hfacts
  obtain ⟨d, hb, hd⟩ := Option.map_eq_some_iff.mp hbuilt
  obtain ⟨hset, herr⟩ := Prod.mk.inj hd
  replace herr : d.err = none := Option.isNone_iff_eq_none.mp (by simpa using herr)
  have hpass := Machine.passes_of_after 34 hm
  obtain ⟨-, hmarks, -, -, -, -, -, hsettled⟩ :=
    builder_life_cycle Store.arises_oneMark (Call.propagates_build ⟨0⟩) hpass ⟨0⟩
  obtain ⟨hle, -⟩ := hmarks "y" 0 1 Store.markedAt_oneMark fun c hc => by
    cases List.mem_singleton.mp hc
    trivial
  obtain ⟨-, hbuild⟩ := hsettled d hb (.inl (by rw [hset]; exact nofun)) m (.refl m)
  rw [Builder.answer, herr] at hbuild
  exact ⟨_, m, Store.arises_oneMark, Store.markedAt_oneMark, hpass, htaken, hcount, hle, hbuild⟩

/-- An entry that goes on after an error of another one: the construction succeeds and leaves the
set and the error, and when it is asked again it fails. -/
theorem builder_life_cycle_heedless :
    (Store.underway Entry.heedless).Reachable ∧
    ∃ (s' : Store) (d : Builder) (a : Addr .set),
      (Request.build ⟨0⟩).Ends (.underway Entry.heedless) (.ok ()) s' ∧
      s'.builders.get? ⟨0⟩ = some d ∧ d.active = 0 ∧ d.set = some a ∧
      d.err = some (.raised "boom") ∧
      (Request.build ⟨0⟩).Ends s' (.error (.raised "boom")) s' := by
  refine ⟨.step (.refl _) (.run (Comp.perform_ends (.newBuilder .empty Entry.heedless true) _)), ?_⟩
  obtain ⟨s', d, hrun, hd, hactive, hset, herr⟩ : ∃ (s' : Store) (d : Builder),
      (Request.build ⟨0⟩).run 8 (.underway Entry.heedless) = some (.ok (), s') ∧
      s'.builders.get? ⟨0⟩ = some d ∧ d.active = 0 ∧ d.set = some ⟨3⟩ ∧
      d.err = some (.raised "boom") := ⟨_, _, rfl, rfl, rfl, rfl, rfl⟩
  have hover : d.outcome ≠ .underway := fun h => by
    cases herr.symm.trans (Builder.outcome_eq_underway.mp h).1
  refine ⟨s', d, ⟨3⟩, ⟨8, hrun⟩, hd, hactive, hset, herr, (Request.build_settled hd hover).mpr ?_⟩
  rw [Builder.answer, herr]
  exact ⟨rfl, rfl⟩

end NixKernel
