import NixKernel.Proofs.Builder.Proper

/-!
What the journal says about sets under construction. The entries of a set are noted in their order
and each once, just as far as they have been taken up, and the assembly is noted when the set is
about to be settled.
-/

namespace NixKernel

variable {s s' s'' : Store} {b : Addr .builder}

namespace Store

/-- The number of entries of a set that have been taken up. -/
def nextOf (s : Store) (b : Addr .builder) : Nat := ((s.builders.get? b).map Builder.next).getD 0

/-- The entries of a set that have been taken up according to the journal, the earliest first. -/
def taken (s : Store) (b : Addr .builder) : List Nat :=
  (s.journal.filterMap fun | .entry b' i => if b' = b then some i else none | _ => none).reverse

/-- How often the assembly of a set has been started according to the journal. -/
def assemblies (s : Store) (b : Addr .builder) : Nat := s.journal.count (.assemble b)

/-- The set is settled, and all its entries have been taken up. -/
def Done (s : Store) (b : Addr .builder) : Prop :=
  ∃ d, s.builders.get? b = some d ∧ d.outcome ≠ .underway ∧ d.entries.size ≤ d.next

/-- The journal has gone on with the entries that have been taken up since. -/
structure Notes (s s' : Store) : Prop where
  journal : s.journal <:+ s'.journal
  next : ∀ b, s.nextOf b ≤ s'.nextOf b
  taken : ∀ b, s'.taken b = s.taken b ++ List.range' (s.nextOf b) (s'.nextOf b - s.nextOf b)

theorem Notes.trans (h : s.Notes s') (h' : s'.Notes s'') : s.Notes s'' where
  journal := h.journal.trans h'.journal
  next b := Nat.le_trans (h.next b) (h'.next b)
  taken b := by
    obtain ⟨m, hm⟩ := Nat.exists_eq_add_of_le (h.next b)
    obtain ⟨n, hn⟩ := Nat.exists_eq_add_of_le (h'.next b)
    rw [h'.taken, h.taken, List.append_assoc, hn, hm, Nat.add_sub_cancel_left,
      Nat.add_sub_cancel_left, List.range'_append_1, Nat.add_assoc, Nat.add_sub_cancel_left]

/-- Besides, the journal has gone on with the assembly of a set only if that has been settled
since. -/
structure Works (s s' : Store) : Prop extends s.Notes s' where
  assembled : ∀ b, s'.assemblies b = s.assemblies b ∨ (s'.assemblies b = s.assemblies b + 1 ∧
    (∀ d, s.builders.get? b = some d → d.outcome = .underway ∧ d.active = 0) ∧ s'.Done b)

theorem nextOf_eq {d : Builder} (h : s.builders.get? b = some d) : s.nextOf b = d.next := by
  rw [nextOf, h]
  rfl

theorem taken_cons {x : Event} (hj : s'.journal = x :: s.journal) (hx : ∀ i, x ≠ .entry b i) :
    s'.taken b = s.taken b := by
  rw [taken, hj, List.filterMap_cons]
  split
  · rfl
  · rename_i i hi
    split at hi
    · split at hi
      · subst b
        exact absurd rfl (hx _)
      · cases hi
    · cases hi

theorem assemblies_cons {x : Event} (hj : s'.journal = x :: s.journal) (hx : x ≠ .assemble b) :
    s'.assemblies b = s.assemblies b := by
  rw [assemblies, hj, List.count_cons_of_ne hx, assemblies]

theorem assemblies_cons_self (hj : s'.journal = .assemble b :: s.journal) :
    s'.assemblies b = s.assemblies b + 1 := by
  rw [assemblies, hj, List.count_cons_self, assemblies]

/-- No entry has been noted. -/
theorem Notes.of_eq (hj : s'.journal = s.journal ∨ ∃ x, s'.journal = x :: s.journal ∧
      ∀ b i, x ≠ .entry b i) (hn : ∀ b, s'.nextOf b = s.nextOf b) : s.Notes s' where
  journal := by
    rcases hj with hj | ⟨x, hj, -⟩
    · exact hj ▸ List.suffix_refl _
    · exact ⟨[x], hj.symm⟩
  next b := Nat.le_of_eq (hn b).symm
  taken b := by
    rw [hn, Nat.sub_self, List.range'_zero, List.append_nil]
    rcases hj with hj | ⟨x, hj, hx⟩
    · rw [Store.taken, hj, Store.taken]
    · exact taken_cons hj (hx b)

/-- Nothing has been noted that concerns sets under construction. -/
theorem Works.of_eq (hj : s'.journal = s.journal ∨ ∃ x, s'.journal = x :: s.journal ∧
      ∀ b, x ≠ .assemble b ∧ ∀ i, x ≠ .entry b i)
    (hn : ∀ b, s'.nextOf b = s.nextOf b) : s.Works s' where
  toNotes := .of_eq (hj.imp_right fun ⟨x, hj, hx⟩ => ⟨x, hj, fun b => (hx b).2⟩) hn
  assembled b := by
    refine .inl ?_
    rcases hj with hj | ⟨x, hj, hx⟩
    · rw [assemblies, hj, assemblies]
    · exact assemblies_cons hj (hx b).1

theorem Works.refl (s : Store) : s.Works s :=
  .of_eq (.inl rfl) fun _ => rfl

theorem Turn.done {o : Option Error} (h : s.Turn o s') (hb : s.Done b) : s'.Done b := by
  obtain ⟨d, hb, hd, hn⟩ := hb
  exact ⟨d, h.settled hb hd, hd, hn⟩

theorem Works.trans_of (h : s.Works s') (h' : s'.Works s'')
    (hold : ∀ {b d}, s.builders.get? b = some d →
      (∀ d', s'.builders.get? b = some d' → d'.outcome = .underway ∧ d'.active = 0) →
        d.outcome = .underway ∧ d.active = 0)
    (hdone : ∀ {b}, s'.Done b → s''.Done b) : s.Works s'' where
  toNotes := h.toNotes.trans h'.toNotes
  assembled b := by
    rcases h.assembled b with h₁ | ⟨h₁, hb, hd⟩
    · exact (h'.assembled b).imp (·.trans h₁)
        fun ⟨h₂, hb', hd'⟩ => ⟨by rw [h₂, h₁], fun d hb => hold hb hb', hd'⟩
    · rcases h'.assembled b with h₂ | ⟨h₂, hb', -⟩
      · exact .inr ⟨h₂.trans h₁, hb, hdone hd⟩
      · obtain ⟨d, hb₁, hd, -⟩ := hd
        exact absurd (hb' d hb₁).1 hd

theorem Works.trans {o o' : Option Error} (h : s.Works s') (h' : s'.Works s'')
    (ht : s.Turn o s') (ht' : s'.Turn o' s'') : s.Works s'' := by
  refine h.trans_of h' (fun {b d} hb hold => ?_) ht'.done
  obtain ⟨d', hb', hd⟩ := ht.builder hb
  obtain ⟨hd', ha'⟩ := hold d' hb'
  refine ⟨?_, hd.active ▸ ha'⟩
  by_contra hne
  cases (ht.settled hb hne).symm.trans hb'
  exact hne hd'

theorem nextOf_modify {f : Builder → Builder} (hs : s'.builders = s.builders.modify b f)
    (hf : ∀ d, (f d).next = d.next) (b' : Addr .builder) : s'.nextOf b' = s.nextOf b' := by
  rw [nextOf, hs, Heap.get?_modify]
  split
  · rw [Option.map_map, nextOf]
    congr 2
    exact funext hf
  · rfl

end Store

/-! ### Actions -/

/-- No action takes up an entry. -/
theorem Action.nextOf_perform (a : Action) (s : Store) (b : Addr .builder) :
    (a.perform s).2.nextOf b = s.nextOf b := by
  cases a with
  | newBuilder env entries recursive =>
    simp only [Store.nextOf, Action.perform, Store.newBuilder, Heap.get?_push]
    split
    · subst b
      rw [Heap.get?_next]
      rfl
    · rfl
  | setSlot b' name x isNew =>
    exact Store.nextOf_modify (f := fun c => c.put name x isNew) rfl (fun _ => rfl) b
  | _ => rfl

/-- Tags and calls are all that a plain action notes. -/
theorem Action.Plain.works {P : Expr → Prop} {a : Action} (h : a.Plain P) (s : Store) :
    s.Works (a.perform s).2 := by
  refine .of_eq ?_ (a.nextOf_perform s)
  cases a with
  | record e =>
    refine .inr ⟨e, rfl, fun b => ⟨?_, ?_⟩⟩
    · rintro rfl
      exact h
    · rintro i rfl
      exact h
  | _ => exact .inl rfl

theorem Store.Works.setSlot (s : Store) (b : Addr .builder) (name : String) (x : Slot)
    (isNew : Bool) : s.Works (s.setSlot b name x isNew) :=
  .of_eq (.inl rfl) (Action.nextOf_perform (.setSlot b name x isNew) s)

/-! ### Requests -/

namespace Store

theorem nextOf_finishBuilder (s : Store) (b : Addr .builder)
    (out : Option (Except Error (Addr .set))) (b' : Addr .builder) :
    (s.finishBuilder b out).nextOf b' = s.nextOf b' :=
  nextOf_modify (f := fun c => c.leave out) rfl (fun d => d.leave_next out) b'

theorem nextOf_finish (q : Request) (r : Except Error q.Answer) (s : Store) (b : Addr .builder) :
    (q.finish r s).nextOf b = s.nextOf b := by
  cases q with
  | force t => rw [nextOf, Request.finish, s.builders_finishForce t r, nextOf]
  | entry b' => cases r <;> exact nextOf_finishBuilder s b' _ b
  | assemble b' => exact nextOf_finishBuilder s b' _ b
  | _ => rfl

theorem Notes.finishBuilder (h : s.Notes s') (b : Addr .builder)
    (out : Option (Except Error (Addr .set))) : s.Notes (s'.finishBuilder b out) :=
  h.trans (.of_eq (.inl rfl) (nextOf_finishBuilder s' b out))

/-- A set that has not been assembled is left. -/
theorem Works.finishBuilder (h : s.Works s') (out : Option (Except Error (Addr .set)))
    (hb : s'.assemblies b = s.assemblies b) : s.Works (s'.finishBuilder b out) where
  toNotes := h.toNotes.finishBuilder b out
  assembled b' := by
    by_cases hbb : b = b'
    · subst b'
      exact .inl hb
    · refine (h.assembled b').imp_right fun ⟨h₁, h₂, d, hd, h₃⟩ => ⟨h₁, h₂, d, ?_, h₃⟩
      rw [Store.finishBuilder, Heap.get?_modify, if_neg hbb, hd]

/-- An entry is noted when it is taken up. -/
theorem works_startEntry {d : Builder} (hb : s.builders.get? b = some d)
    (hs : s'.builders = s.builders.modify b
      fun c => { c with next := c.next + 1, active := c.active + 1 })
    (hj : s'.journal = .entry b d.next :: s.journal) : s.Works s' := by
  have hn : ∀ b', s'.nextOf b' = if b = b' then d.next + 1 else s.nextOf b' := by
    intro b'
    rw [nextOf, hs, Heap.get?_modify]
    split
    · subst b'
      rw [hb]
      rfl
    · rfl
  refine ⟨⟨⟨[_], hj.symm⟩, fun b' => ?_, fun b' => ?_⟩, fun b' => .inl ?_⟩
  · rw [hn]
    split
    · subst b'
      rw [nextOf_eq hb]
      exact Nat.le_succ _
    · exact Nat.le_refl _
  · rw [hn, Store.taken, hj, List.filterMap_cons]
    by_cases hbb : b = b'
    · subst b'
      simp only [if_true, List.reverse_cons, nextOf_eq hb, Nat.add_sub_cancel_left, Store.taken]
      rfl
    · simp only [if_neg hbb, Nat.sub_self, List.range'_zero, List.append_nil, Store.taken]
  · exact assemblies_cons hj fun h => by cases h

end Store

/-- While an entry is in progress no assembly is noted. -/
theorem Store.Works.assemblies_eq (h : s.Works s') (hb : s.InProgress b) :
    s'.assemblies b = s.assemblies b := by
  obtain ⟨d, hb, -, ha⟩ := hb
  refine (h.assembled b).resolve_right fun ⟨_, hold, _⟩ => ?_
  have := (hold d hb).2
  omega

/-- An entry of a set is taken up: this is noted before, and the set is not assembled meanwhile. -/
theorem Store.Works.entered_of {s₁ s₂ : Store} {d : Builder} {o : Option Error}
    (hw : s₁.Works s₂) (out : Option (Except Error (Addr .set)))
    (hb : s.builders.get? b = some d) (hd : d.outcome = .underway)
    (hs : s₁.builders = s.builders.modify b fun c =>
      { c with next := c.next + 1, active := c.active + 1 })
    (hj : s₁.journal = .entry b d.next :: s.journal) (ht : s₁.Turn o s₂) :
    s.Works (s₂.finishBuilder b out) := by
  have hb₁ : s₁.builders.get? b = some { d with next := d.next + 1, active := d.active + 1 } := by
    rw [hs, Heap.get?_modify_self hb]
  have hstart := works_startEntry hb hs hj
  have hall : s.Works s₂ := by
    refine hstart.trans_of hw (fun {b' d'} hb' hold => ?_) ht.done
    by_cases hbb : b = b'
    · subst b'
      have := (hold _ hb₁).2
      simp at this
    · have hsame : s₁.builders.get? b' = s.builders.get? b' := by
        rw [hs, Heap.get?_modify, if_neg hbb]
      exact hold d' (hsame ▸ hb')
  refine hall.finishBuilder out ((hw.assemblies_eq ⟨_, hb₁, hd, Nat.succ_pos _⟩).trans ?_)
  refine (hstart.assembled b).resolve_right fun ⟨_, _, _, hb₁', hd', _⟩ => ?_
  cases hb₁.symm.trans hb₁'
  exact hd' hd

/-- A set is assembled: this is noted before, and after it the set is settled. -/
theorem Store.Works.assembled_of {s₁ s₂ : Store} {d : Builder} {o : Option Error}
    (hw : s₁.Works s₂) (hb : s.builders.get? b = some d)
    (hd : d.outcome = .underway ∧ d.active = 0) (hle : d.entries.size ≤ d.next)
    (hs : s₁.builders = s.builders.modify b fun c => { c with active := c.active + 1 })
    (hj : s₁.journal = .assemble b :: s.journal) (ht : s₁.Turn o s₂)
    (r : Except Error (Addr .set)) : s.Works (s₂.finishBuilder b (some r)) := by
  have hn : ∀ b', s₁.nextOf b' = s.nextOf b' := nextOf_modify hs fun _ => rfl
  have hb₁ : s₁.builders.get? b = some { d with active := d.active + 1 } := by
    rw [hs, Heap.get?_modify_self hb]
  have hsame := hw.assemblies_eq ⟨_, hb₁, hd.1, Nat.succ_pos _⟩
  have hstart : s.Notes s₁ := .of_eq (.inr ⟨_, hj, fun _ _ h => by cases h⟩) hn
  refine ⟨(hstart.trans hw.toNotes).finishBuilder b _, fun b' => ?_⟩
  · by_cases hbb : b = b'
    · subst b'
      obtain ⟨d₂, hb₂, hages⟩ := ht.builder hb₁
      refine .inr ⟨hsame.trans (assemblies_cons_self hj), fun d' hb' => ?_,
        d₂.leave (some r), Heap.get?_modify_self hb₂ _, d₂.leave_outcome_ne r, ?_⟩
      · cases hb.symm.trans hb'
        exact hd
      · rw [Builder.leave_entries, Builder.leave_next, hages.entries]
        exact Nat.le_trans hle hages.next
    · have hold : s₁.builders.get? b' = s.builders.get? b' := by
        rw [hs, Heap.get?_modify, if_neg hbb]
      have hcount : s₁.assemblies b' = s.assemblies b' :=
        assemblies_cons hj fun h => hbb (by injection h)
      rcases hw.assembled b' with h₁ | ⟨h₁, h₂, d', hd', h₃⟩
      · exact .inl (h₁.trans hcount)
      · refine .inr ⟨h₁.trans (by rw [hcount]), hold ▸ h₂, d', ?_, h₃⟩
        rw [Store.finishBuilder, Heap.get?_modify, if_neg hbb, hd']

/-- **Every request notes its work.** -/
theorem Request.Legal.works {q : Request} {r : Except Error q.Answer} (h : q.Legal s)
    (hr : q.Ends s r s') : s.Works s' := by
  refine Request.Legal.law (T := fun _ s o s' => s.Turn o s' ∧ s.Works s')
    (U := fun s _ s' => s.Works s') (fun s _ => .refl s) (fun _ s o => ⟨.refl s o, .refl s⟩)
    (fun h h' => ⟨h.1.trans h'.1, h.2.trans h'.2 h.1 h'.1⟩) (fun hs ha => ?_)
    (fun _ _ ht hw => ⟨ht, hw⟩) ?_ h hr
  · refine ⟨(Rules.frame_turn hs ha).1, ?_⟩
    rcases Rules.frame_act ha with ha | ⟨b, name, x, isNew, -, rfl, -⟩
    · exact ha.works _
    · exact .setSlot _ b name x isNew
  · rintro q s s₁ s₂ c r hlegal hq - - ⟨ht, hw⟩
    rcases Request.start_builders hq with ⟨b, d, e, rfl, hb, -, hs₁, hj⟩ | ⟨b, rfl, hs₁, hj⟩ |
      ⟨hp, hs₁, hj⟩
    · obtain ⟨d', hb', hd⟩ := hlegal.due
      cases hb.symm.trans hb'
      cases r with
      | ok x => exact hw.entered_of none hb hd hs₁ hj ht
      | error e => exact hw.entered_of (some (.error e)) hb hd hs₁ hj ht
    · obtain ⟨d, hb, hd, ha, hle⟩ := hlegal.due
      exact hw.assembled_of hb ⟨hd, ha⟩ hle hs₁ hj ht r
    · have hstart : s.Works s₁ := by
        have hn : ∀ b, s₁.nextOf b = s.nextOf b := fun b => by rw [Store.nextOf, hs₁, Store.nextOf]
        exact .of_eq (hj.imp_right fun ⟨t, hj⟩ =>
          ⟨_, hj, fun b => ⟨fun h => (by cases h), fun i h => (by cases h)⟩⟩) hn
      have hbs := Request.builders_finish hp r s₂
      have hend : s₂.Works (q.finish r s₂) :=
        .of_eq (.inl (Request.journal_finish q r s₂))
          fun b => by rw [Store.nextOf, hbs, Store.nextOf]
      have hbegin := Store.Turn.of_eq hs₁ none
      exact (hstart.trans hw hbegin ht).trans hend (hbegin.trans ht) (.of_eq hbs none)

end NixKernel
