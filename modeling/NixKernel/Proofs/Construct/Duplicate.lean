import NixKernel.Proofs.Builder.Frames
import NixKernel.Proofs.Construct.Compatible

/-!
Two plain definitions of one attribute. If they are the first two definitions of the attribute, the
set is never built, whatever the values do as long as they pass on every error: the entry of the
second one fails, and no computation that has succeeded can have left it behind. If a definition
inside the attribute comes before the second plain one, the plain values are merged instead.
-/

namespace NixKernel

open Definition NixKernel.Comp

/-! ### The entries of two plain definitions -/

/-- The first two definitions of the attribute `k` are plain, and they are the entries `i` and
`j`. -/
structure Definition.Repeats (ds : List Definition) (k : String) (i j : Nat) : Prop where
  lt : i < j
  first : ∃ e, ds[i]? = some ⟨[some k], e⟩
  second : ∃ e, ds[j]? = some ⟨[some k], e⟩
  other : ∀ {m d}, m < j → m ≠ i → ds[m]? = some d → d.tail? k = none

theorem Definition.Repeats.lt_size {ds : List Definition} {k : String} {i j : Nat}
    (h : Repeats ds k i j) : j < (ds.map entry).toArray.size := by
  obtain ⟨e, he⟩ := h.second
  rw [List.size_toArray, List.length_map]
  exact (List.getElem?_eq_some_iff.mp he).1

theorem Definition.Twice.exists_repeats {ds : List Definition} {k : String}
    (h : Twice (under k ds)) : ∃ i j, Repeats ds k i j := by
  have hplain : ∀ {d : Definition} {e : Expr}, d.tail? k = some ⟨[], e⟩ → d = ⟨[some k], e⟩ := by
    intro d e hd
    obtain ⟨hp, hv⟩ := tail?_eq_some.mp hd
    obtain ⟨path, value⟩ := d
    cases hp
    cases hv
    rfl
  unfold Twice at h
  split at h
  · rename_i e e' g hg
    obtain ⟨l₁, d₁, r₁, rfl, h₁, hd₁, hr₁⟩ := List.filterMap_eq_cons_iff.mp hg
    obtain ⟨l₂, d₂, r₂, rfl, h₂, hd₂, -⟩ := List.filterMap_eq_cons_iff.mp hr₁
    cases hplain hd₁
    cases hplain hd₂
    refine ⟨l₁.length, l₁.length + 1 + l₂.length, by omega, ⟨e, by simp⟩, ⟨e', ?_⟩, ?_⟩
    · rw [List.getElem?_append_right (by omega),
        show l₁.length + 1 + l₂.length - l₁.length = l₂.length + 1 by omega,
        List.getElem?_cons_succ, List.getElem?_append_right (Nat.le_refl _), Nat.sub_self]
      rfl
    · intro m d hm hne hd
      rcases Nat.lt_or_ge m l₁.length with hlt | hge
      · rw [List.getElem?_append_left hlt] at hd
        exact h₁ d (List.mem_of_getElem? hd)
      · obtain ⟨m', rfl⟩ : ∃ m', m = l₁.length + (m' + 1) := ⟨m - l₁.length - 1, by omega⟩
        rw [List.getElem?_append_right (by omega), Nat.add_sub_cancel_left,
          List.getElem?_cons_succ, List.getElem?_append_left (by omega)] at hd
        exact h₂ d (List.mem_of_getElem? hd)
  · exact h.elim

/-! ### A set that waits for the second one -/

/-- The set under construction is under way and the second plain definition has not been taken up;
its attribute `k` is a plain value once the first one has been. -/
structure Waiting (ds : List Definition) (k : String) (i j : Nat) (c : Builder) : Prop where
  entries : c.entries = (ds.map entry).toArray
  outcome : c.outcome = .underway
  next : c.next ≤ j
  before : c.next ≤ i → c.slots.lookup k = none
  after : i < c.next → ∃ v, c.slots.lookup k = some (.leaf v)

def Waits (ds : List Definition) (k : String) (i j : Nat) (b : Addr .builder) (s : Store) : Prop :=
  ∃ c, s.builders.get? b = some c ∧ Waiting ds k i j c

section Waits

variable {α : Type} {ds : List Definition} {k : String} {i j n : Nat} {b b' : Addr .builder}
  {s s' : Store}

theorem Waits.of_eq (h : Waits ds k i j b s) (hs : s'.builders = s.builders) :
    Waits ds k i j b s' := by
  obtain ⟨c, hc, hw⟩ := h
  exact ⟨c, hs ▸ hc, hw⟩

theorem Waits.modify (h : Waits ds k i j b s) {f : Builder → Builder}
    (hs : s'.builders = s.builders.modify b' f)
    (hf : b' = b → ∀ c, Waiting ds k i j c → Waiting ds k i j (f c)) : Waits ds k i j b s' := by
  obtain ⟨c, hc, hw⟩ := h
  by_cases hb : b' = b
  · subst hb
    exact ⟨f c, by rw [hs, Heap.get?_modify_self hc], hf rfl c hw⟩
  · exact ⟨c, by rw [hs, Heap.get?_modify, if_neg hb, hc], hw⟩

theorem Waits.plain {P : Expr → Prop} {a : Action} (h : Waits ds k i j b s) (ha : a.Plain P) :
    Waits ds k i j b (a.perform s).2 := by
  cases a with
  | newBuilder env entries recursive =>
    obtain ⟨c, hc, hw⟩ := h
    exact ⟨c, Heap.get?_push_of_some hc, hw⟩
  | setSlot => exact ha.elim
  | _ => exact h.of_eq rfl

theorem Waits.setSlot (h : Waits ds k i j b s) {name : String} (hne : b' ≠ b ∨ name ≠ k)
    (x : Slot) (isNew : Bool) : Waits ds k i j b (s.setSlot b' name x isNew) := by
  refine h.modify rfl fun hb c hw => ?_
  have hk : (setKey name x c.slots).lookup k = c.slots.lookup k := by
    rw [lookup_setKey, if_neg (hne.resolve_left fun h => h hb).symm]
  exact ⟨hw.entries, hw.outcome, hw.next, fun hle => hk.trans (hw.before hle),
    fun hlt => hk.symm ▸ hw.after hlt⟩

theorem Waits.start (h : Waits ds k i j b s) {q : Request} {c : Comp q.Answer}
    (hq : q ≠ .entry b) (hs : q.start s = .run c s') : Waits ds k i j b s' := by
  rcases Request.start_builders hs with ⟨b', d, e, rfl, -, -, hb, -⟩ | ⟨b', rfl, hb, -⟩ |
    ⟨-, hb, -⟩
  · exact h.modify hb fun hbb => absurd (congrArg Request.entry hbb) hq
  · exact h.modify hb fun _ c hw => { hw with }
  · exact h.of_eq hb

/-- Only its assembly builds the set; the number of entries in progress does not matter. -/
theorem Waits.finish (h : Waits ds k i j b s) {q : Request} (hq : q ≠ .assemble b)
    (x : q.Answer) : Waits ds k i j b (q.finish (.ok x) s) := by
  cases q with
  | entry b' => exact h.modify rfl fun _ c hw => { hw with }
  | assemble b' => exact h.modify rfl fun hb => absurd (congrArg Request.assemble hb) hq
  | _ =>
    refine h.of_eq (Request.builders_finish (P := fun _ => True) ?_ _ s)
    trivial

/-- A set that waits is not due for its assembly. -/
theorem Waits.not_due (h : Waits ds k i j b s) (hr : Repeats ds k i j) :
    ¬ (Request.assemble b).Legal s := by
  intro hl
  obtain ⟨d, hd, -, -, hsize⟩ := hl.due
  obtain ⟨c, hc, hw⟩ := h
  cases hd.symm.trans hc
  exact Nat.not_lt.mpr hsize (Nat.lt_of_le_of_lt hw.next (hw.entries ▸ hr.lt_size))

/-! ### Rules -/

/-- Anything but to touch the attribute `k` of the set `b` under construction. -/
def Rules.aside (b : Addr .builder) (k : String) : Rules where
  holds s := s.Propagates
  act _ a := a.Plain Expr.Propagates ∨ ∃ b' name x isNew, a = .setSlot b' name x isNew ∧
    (b' ≠ b ∨ name ≠ k) ∧ x.All Expr.Propagates
  ask s q := q.Brings Expr.Propagates ∧ q.Due s
  catches := False

theorem Rules.aside_permits (b : Addr .builder) (k : String) :
    (Rules.aside b k).Permits Expr.Propagates where
  toHereditary := Expr.propagates_hereditary
  act _ ha := .inl ha
  ask {s _} _ hq := ⟨hq.brings, hq.due s⟩
  lambda hs hf := hs.lambda hf
  orElse h := Expr.not_propagates_orElse _ _ h

theorem Rules.build_aside (b' : Addr .builder) {c : Comp α} (h : c.Fair (.build b') s) :
    c.Fair (.aside b k) s :=
  h.mono id (fun ha => .inl (by cases ha; trivial)) (fun hq => ⟨hq.2.brings, hq.2.due⟩) id

/-- Only an entry of the set touches its attributes. -/
theorem Rules.start_aside {q : Request} {c : Comp q.Answer} (hl : q.Legal s) (hq : q ≠ .entry b)
    (hs : q.start s = .run c s') : c.Fair (.aside b k) s' := by
  have hP := Rules.aside_permits b k
  have hs' : s'.Propagates := hl.propagates.start hs
  have hplain : q.Plain Expr.Propagates → (∀ b, q ≠ .build b) → c.Fair (.aside b k) s' :=
    fun hq hb => hP.start hq hb (fun _ _ _ _ ht => hl.propagates.thunk ht) hs s' hs'
  cases q with
  | entry b' =>
    obtain ⟨d, e, hb, he, rfl, -⟩ := Store.startEntry_run hs
    have hne : b' ≠ b := fun hb => hq (by rw [hb])
    have hmem : e ∈ d.entries.toList := Array.mem_toList_iff.mpr (Array.mem_of_getElem? he)
    exact ((hP.define (fun _ _ hx => .inr ⟨b', _, _, _, rfl, .inl hne, hx⟩)
      (fun hs hx => Store.All.known hs hx) d.env (hl.propagates.entries hb e hmem)).bind
        fun _ => .pure true) s' hs'
  | build b' =>
    cases hs
    exact Rules.build_aside b' (build_fair b' hs')
  | assemble b' =>
    cases hs
    exact (Rules.assemble_fair b' hs').mono id .inl
      (fun hq => ⟨Request.Plain.brings hq, Request.Plain.due hq _⟩) id
  | eval env e => exact hplain hl.brings fun b h => by cases h
  | _ => exact hplain trivial fun b h => by cases h

theorem Definition.component_propagates (x : Option String) : (component x).Propagates := by
  cases x <;> exact Expr.propagates_hereditary.lit _

theorem Definition.entry_propagates {d : Definition} (h : d.value.Propagates) :
    d.entry.All Expr.Propagates := by
  refine List.forall_mem_cons.mpr ⟨h, fun x hx => ?_⟩
  obtain ⟨o, -, rfl⟩ := List.mem_map.mp hx
  exact component_propagates o

/-- The entry of a definition that is not of the attribute `k` does not touch it either. -/
theorem define_aside {d : Definition} (hd : d.tail? k = none) (hv' : d.value.Propagates)
    (env : Env) (hs : s.Propagates) : (define b env d.entry).Fair (.aside b k) s := by
  have hP := Rules.aside_permits b k
  rcases hp : d.path with _ | ⟨x, rest⟩
  · simp only [define, entry, hp, List.map_nil]
    trivial
  · obtain ⟨v, hv, hname⟩ := forceName_component (s := s) env x
    simp only [define, entry, hp, List.map_cons]
    refine (hP.eval env (component_propagates x) s hs).bind hs fun v' s₁ h₁ hs₁ => ?_
    obtain ⟨he, rfl⟩ := h₁.unique hv
    cases he
    refine (hP.forceName v _ hs₁).bind hs₁ fun o s₂ h₂ hs₂ => ?_
    obtain ⟨he, rfl⟩ := h₂.unique hname
    cases he
    cases x with
    | none => trivial
    | some name =>
      have hne : name ≠ k := by
        rintro rfl
        have htail : d.tail? name = some ⟨rest, d.value⟩ := tail?_eq_some.mpr ⟨hp, rfl⟩
        rw [hd] at htail
        cases htail
      exact hP.recordDefinition (fun _ _ hx => .inr ⟨b, name, _, _, rfl, .inr hne, hx⟩)
        (fun hs hx => Store.All.known hs hx) env
        (Definition.entry_propagates (d := ⟨rest, d.value⟩) hv') _ hs₂

/-! ### The entries of the two definitions -/

/-- A plain definition goes into the slot of its name at once. -/
theorem define_plain_iff {d : Definition} {env : Env} {c : Builder} {r : Except Error Unit}
    (hd : d.path = [some k]) (hb : s.builders.get? b = some c) :
    (define b env d.entry).Ends s r s' ↔
      (match c.slots.lookup k with
      | none => perform (.setSlot b k (.leaf (.thunk s.thunks.next)) true)
      | some old => merge b k old (.leaf (.thunk s.thunks.next))).Ends
        (s.newThunk env d.value).2 r s' := by
  have hb₁ : (s.newThunk env d.value).2.builders.get? b = some c := hb
  rw [define_name hd]
  exact (definition_plain s env d.value).bind_iff.trans (slot_ends hb₁ k).bind_iff

/-- The first plain definition makes the attribute a plain value. -/
theorem define_first {d : Definition} {env : Env} {c : Builder} (hd : d.path = [some k])
    (hb : s.builders.get? b = some c) (hk : c.slots.lookup k = none)
    (h : (define b env d.entry).Ends s (.ok ()) s') :
    ∃ v, s'.builders.get? b = some (c.put k (.leaf v) true) := by
  rw [define_plain_iff hd hb, hk] at h
  obtain ⟨-, rfl⟩ := ends_perform.mp h
  exact ⟨_, Store.get?_setSlot hb k _ _⟩

/-- The second plain definition is refused. -/
theorem define_second {d : Definition} {env : Env} {c : Builder} {v : Value}
    (hd : d.path = [some k]) (hb : s.builders.get? b = some c)
    (hk : c.slots.lookup k = some (.leaf v)) : ¬ (define b env d.entry).Ends s (.ok ()) s' := by
  intro h
  rw [define_plain_iff hd hb, hk] at h
  cases (ends_refuse.mp h).1

/-! ### All requests -/

/-- With `n` levels a set that waits goes on waiting after every request that succeeds. -/
structure Patient (ds : List Definition) (k : String) (i j : Nat) (b : Addr .builder) (n : Nat) :
    Prop where
  waits : ∀ {q : Request} {s s' : Store} {x : q.Answer}, q.Legal s →
    q.run n s = some (.ok x, s') → Waits ds k i j b s → Waits ds k i j b s'

namespace Patient

variable (h : Patient ds k i j b n)

include h

theorem fair {c : Comp α} {x : α} (hc : c.Fair (.aside b k) s) (hp : s.Propagates)
    (hs : Waits ds k i j b s) (hr : c.run n s = some (.ok x, s')) : Waits ds k i j b s' := by
  refine Comp.Fair.law (R := .aside b k)
    (T := fun s o s' => o = none → Waits ds k i j b s → Waits ds k i j b s') (fun _ _ _ => id)
    (fun h₁ h₂ ho hs => h₂ ho (h₁ rfl hs)) False.elim (fun hp ha => ?_)
    (fun {s q r s'} hp hq hr => ?_) hc hp hr rfl hs
  · rcases ha with ha | ⟨b', name, x, isNew, rfl, hne, hx⟩
    · exact ⟨fun _ hs => hs.plain ha, hp.perform ha.brings⟩
    · exact ⟨fun _ hs => hs.setSlot hne x isNew, Store.All.perform hp hx⟩
  · have hl : q.Legal s := ⟨hp, hq.1, hq.2⟩
    refine ⟨fun ho => ?_, fun _ => hl.kept ⟨n, hr⟩⟩
    cases r with
    | ok x => exact h.waits hl hr
    | error e => cases ho

/-- An entry of the set that succeeds is not the second plain definition. -/
theorem entry {d : Definition} {c : Builder} (hr : Repeats ds k i j)
    (hds : ∀ d ∈ ds, d.value.Propagates) (hp : s.Propagates)
    (hw : Waiting ds k i j c) (hd : ds[c.next]? = some d)
    (hb : s.builders.get? b = some { c with next := c.next + 1, active := c.active + 1 })
    (hrun : (define b c.env d.entry).run n s = some (.ok (), s')) : Waits ds k i j b s' := by
  have hends : (define b c.env d.entry).Ends s (.ok ()) s' := ⟨n, hrun⟩
  have hj : c.next ≠ j := by
    intro hj
    obtain ⟨e, he⟩ := hr.second
    rw [hj] at hd
    cases hd.symm.trans he
    obtain ⟨v, hv⟩ := hw.after (hj ▸ hr.lt)
    exact define_second rfl hb hv hends
  have hlt : c.next < j := Nat.lt_of_le_of_ne hw.next hj
  by_cases hi : c.next = i
  · obtain ⟨e, he⟩ := hr.first
    rw [hi] at hd
    cases hd.symm.trans he
    obtain ⟨v, hv⟩ := define_first rfl hb (hw.before (Nat.le_of_eq hi)) hends
    refine ⟨_, hv, hw.entries, hw.outcome, hlt, fun hle => ?_, fun _ => ⟨v, ?_⟩⟩
    · exact absurd hle (Nat.not_le.mpr (hi ▸ Nat.lt_succ_self c.next))
    · rw [Builder.put, lookup_setKey, if_pos rfl]
  · refine h.fair (define_aside (hr.other hlt hi hd) (hds d (List.mem_of_getElem? hd)) c.env hp) hp
      ⟨_, hb, hw.entries, hw.outcome, hlt, fun hle => hw.before (Nat.le_of_succ_le hle),
        fun hgt => hw.after ?_⟩ hrun
    exact Nat.lt_of_le_of_ne (Nat.lt_succ_iff.mp hgt) (Ne.symm hi)

/-- Taking up the entries never comes to an end: it would have to pass the second plain one. -/
theorem build (hr : Repeats ds k i j) (hp : s.Propagates) (hs : Waits ds k i j b s) :
    (Comp.build b).run n s ≠ some (.ok (), s') := by
  intro hb
  obtain ⟨c, hc, hw⟩ := id hs
  rcases build_cases hb with ⟨hsettled, -⟩ | ⟨d, hd, -, ⟨e, -, he⟩ | ⟨s₁, d₁, h₁, hb₁, -⟩⟩
  · rcases hsettled c hc with ⟨a, ha, -⟩ | ⟨e, -, he⟩
    · cases hw.outcome.symm.trans ha
    · cases he
  · cases he
  · cases hc.symm.trans hd
    have hfair := takeEntries_fair c.entries.size hp ⟨c, hc, hw.outcome⟩
    obtain ⟨c₁, hc₁, hw₁⟩ := h.fair (Rules.build_aside b hfair) hp hs h₁
    cases hb₁.symm.trans hc₁
    obtain ⟨d', hd', -, hle⟩ := ((turns n).takeEntries _ hp hc hw.outcome h₁).2.2 rfl
    cases hb₁.symm.trans hd'
    have hsize := hr.lt_size
    rw [hw₁.entries, hw.entries] at hle
    have hnext := hw₁.next
    omega

theorem succ (hr : Repeats ds k i j) (hv : ∀ d ∈ ds, d.value.Propagates) :
    Patient ds k i j b (n + 1) := by
  refine ⟨fun {q s s' x} hl hrun hs => ?_⟩
  rcases Request.run_succ_cases hrun with hq | ⟨c, s₁, s₂, hq, h₂, rfl⟩
  · obtain rfl := Request.start_answer hq
    exact hs
  by_cases hentry : q = .entry b
  · subst hentry
    obtain ⟨c, e, hc, he, rfl, hs₁⟩ := Store.startEntry_run hq
    obtain ⟨c', hc', hw⟩ := hs
    cases hc.symm.trans hc'
    rw [hw.entries, List.getElem?_toArray, List.getElem?_map] at he
    obtain ⟨d, hd, rfl⟩ := Option.map_eq_some_iff.mp he
    obtain ⟨u, s₃, h₃, h₄⟩ := runWith_bind_ok.mp h₂
    obtain ⟨-, rfl⟩ := runWith_pure_ok.mp h₄
    have hp := hl.propagates.start hq
    refine (h.entry hr hv hp hw hd ?_ h₃).finish (q := .entry b) nofun x
    rw [hs₁]
    exact Heap.get?_modify_self hc _
  · have hs₂ := h.fair (Rules.start_aside hl hentry hq) (hl.propagates.start hq)
      (hs.start hentry hq) h₂
    exact hs₂.finish (fun ha => hs.not_due hr (ha ▸ hl)) x

end Patient

/-- With any number of levels, all requests leave the set waiting. -/
theorem patient (hr : Repeats ds k i j) (hv : ∀ d ∈ ds, d.value.Propagates) (b : Addr .builder)
    (n : Nat) : Patient ds k i j b n := by
  induction n with
  | zero => exact ⟨fun _ hrun => (by cases hrun)⟩
  | succ n ih => exact ih.succ hr hv

/-- **Two plain definitions first are never built**, whatever the values do, as long as no
expression goes on after an error. -/
theorem construct_repeats (hr : Repeats ds k i j) (hs : s.Propagates)
    (hv : ∀ d ∈ ds, d.value.Propagates) (env : Env) (recursive : Bool) (a : Addr .set) :
    ¬ (construct env (ds.map entry) recursive).Ends s (.ok a) s' := by
  rintro ⟨n, h⟩
  obtain ⟨b, s₁, h₁, h₂⟩ := runWith_bind_ok.mp h
  cases runWith_perform_ok.mp h₁
  obtain ⟨u, s₂, h₃, -⟩ := runWith_bind_ok.mp h₂
  rw [runWith_request] at h₃
  have hs₁ : (s.newBuilder env (ds.map entry) recursive).2.Propagates :=
    Store.All.perform (a := .newBuilder env (ds.map entry) recursive) hs
      (List.forall_mem_map.mpr fun d hd => entry_propagates (hv d hd))
  cases n with
  | zero => cases h₃
  | succ n =>
    obtain ⟨s₃, h₄, rfl⟩ := Request.run_of_start rfl h₃
    refine (patient hr hv _ n).build hr hs₁ ⟨_, Heap.get?_push_next _ _, ?_⟩ h₄
    exact ⟨rfl, rfl, Nat.zero_le j, fun _ => rfl, fun hlt => nomatch hlt⟩

end Waits

/-! ### Two plain definitions -/

/-- **Two plain definitions of an attribute.** If they are its first two definitions, the set is not
built, whatever the values do as long as no expression goes on after an error, and literals are
refused as duplicates. Known literals are refused as duplicates exactly if they are not compatible:
so two plain literal sets are merged if a definition inside the attribute comes before the second of
them. -/
theorem construct_plain_twice (s : Store) (env : Env) (ds : List Definition) (recursive : Bool)
    (hp : ∀ d ∈ ds, d.path ≠ []) :
    (∀ k, Twice (under k ds) →
      (s.Propagates → (∀ d ∈ ds, d.value.Propagates) →
        ∀ a s', ¬ (construct env (ds.map entry) recursive).Ends s (.ok a) s') ∧
      ((∀ d ∈ ds, s.IsLiteral d.value) → s.atLimit env = false →
        ∃ c s', (construct env (ds.map entry) recursive).Ends s (.error (.eval c)) s' ∧
          c.kind = .duplicateAttr)) ∧
    (SettledAll s ds → s.atLimit env = false →
      (Compatible s True ds →
        ∃ a s', (construct env (ds.map entry) recursive).Ends s (.ok a) s') ∧
      (¬ Compatible s True ds →
        ∃ c s', (construct env (ds.map entry) recursive).Ends s (.error (.eval c)) s' ∧
          c.kind = .duplicateAttr)) := by
  refine ⟨fun k ht => ⟨fun hs hv a s' => ?_, fun hlit hlim => ?_⟩, fun hset hlim => ⟨fun hc => ?_,
    fun hc => ?_⟩⟩
  · obtain ⟨i, j, hr⟩ := ht.exists_repeats
    exact construct_repeats hr hs hv env recursive a
  · obtain ⟨c, s', h, hk⟩ := construct_refused hp (literals_under hlit)
      fun hj => (hj k).not_twice ht
    exact ⟨c, s', h, hk hlim⟩
  · obtain ⟨a, s', h, -⟩ := construct_compatible hc hp (.refl s) (fun _ => hlim) recursive
    exact ⟨a, s', h⟩
  · obtain ⟨n, hn⟩ := exists_length_le ds
    obtain ⟨c, s', h, hk⟩ := construct_incompatible (hset.mergeable hn) hp (.refl s)
      (fun h => hc (eq_true hlim ▸ h)) recursive
    exact ⟨c, s', h, hk hlim⟩

/-- Two plain values are refused, also if a definition inside the attribute follows. -/
theorem construct_plain_refused :
    (∀ a s', ¬ (construct .empty [⟨[.string "k"], .lit .null⟩,
      ⟨[.string "k"], .lit (.bool true)⟩, ⟨[.string "k", .string "x"], .lit .null⟩] true).Ends
      .initial (.ok a) s') ∧
    ∃ c s', (construct .empty [⟨[.string "k"], .lit .null⟩, ⟨[.string "k"], .lit (.bool true)⟩,
      ⟨[.string "k", .string "x"], .lit .null⟩] true).Ends .initial (.error (.eval c)) s' ∧
      c.kind = .duplicateAttr := by
  have hlit : ∀ v : Value, v.isWhnf → (∀ a, v ≠ .set a) → Store.initial.IsLiteral (.lit v) := by
    intro v hw hs
    refine ⟨v, Store.literal?_eq_some.mpr ⟨v, rfl, ?_, hw⟩, fun a ha => absurd ha (hs a)⟩
    cases v with
    | thunk t => cases hw
    | _ => rfl
  obtain ⟨hnever, hrefused⟩ := (construct_plain_twice .initial .empty [⟨[some "k"], .lit .null⟩,
    ⟨[some "k"], .lit (.bool true)⟩, ⟨[some "k", some "x"], .lit .null⟩] true
    (by simp)).1 "k" trivial
  refine ⟨hnever (Store.initial_all (Expr.propagates_of_passesOn 2 rfl)) ?_, hrefused ?_ rfl⟩ <;>
    intro d hd <;>
    simp only [List.mem_cons, List.not_mem_nil, or_false] at hd <;>
    rcases hd with rfl | rfl | rfl
  · exact Expr.propagates_hereditary.lit _
  · exact Expr.propagates_hereditary.lit _
  · exact Expr.propagates_hereditary.lit _
  · exact hlit _ rfl nofun
  · exact hlit _ rfl nofun
  · exact hlit _ rfl nofun

/-- Two plain sets are merged if a definition inside the attribute comes between them. -/
theorem construct_plain_merged :
    ∃ a s', (construct .empty [⟨[.string "k"], .lit (.set ⟨3⟩)⟩,
        ⟨[.string "k", .string "y"], .lit .null⟩, ⟨[.string "k"], .lit (.set ⟨4⟩)⟩] false).Ends
      ((Store.initial.newSet (.ofList [("x", .null)])).2.newSet (.ofList [("z", .null)])).2
      (.ok a) s' := ⟨_, _, 8, rfl⟩

end NixKernel
