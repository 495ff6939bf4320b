import NixKernel.Proofs.Forcing
import NixKernel.Proofs.Journal
import NixKernel.Proofs.Spelling
import NixKernel.Render

/-!
Printing without forcing. A printer keeps the containers that it is inside of and stops where it
meets one of them again, so the number of containers that it is not inside of goes down with every
container that it goes into: it comes to an end on every store, whatever cycles there are. It runs
nothing, and it is left as it was but for the text that it has written. What it writes is told place
by place: a container stands in full wherever it is not inside itself.
-/

namespace NixKernel

variable {s : Store} {above : List Container} {v w : Value}

/-! ### Containers that are left -/

namespace Store

/-- The lists and the sets of a store. -/
def containers (s : Store) : List Container :=
  (List.range s.lists.cells.size).map (fun i => .list ⟨i⟩) ++
    (List.range s.sets.cells.size).map fun i => .set ⟨i⟩

theorem length_containers (s : Store) : s.containers.length = s.containerCount := by
  simp [containers, containerCount]

theorem mem_containers {c : Container} (h : c.Exists s) : c ∈ s.containers := by
  cases c with
  | list a => exact List.mem_append_left _ (List.mem_map.mpr ⟨a.index, List.mem_range.mpr h, rfl⟩)
  | set a => exact List.mem_append_right _ (List.mem_map.mpr ⟨a.index, List.mem_range.mpr h, rfl⟩)

/-- The number of containers that are not among `above`. -/
def fresh (s : Store) (above : List Container) : Nat :=
  (s.containers.filter fun c => c ∉ above).length

theorem fresh_le (s : Store) (above : List Container) : s.fresh above ≤ s.containerCount := by
  rw [← s.length_containers]
  exact List.length_filter_le _ _

/-- One container less is left inside a container. -/
theorem fresh_cons_lt {c : Container} (hc : c ∉ above) (he : c.Exists s) :
    s.fresh (c :: above) < s.fresh above := by
  have hsplit : (s.containers.filter fun d => d ∉ c :: above) =
      (s.containers.filter fun d => d ∉ above).filter fun d => d ≠ c := by
    rw [List.filter_filter]
    refine List.filter_congr fun d _ => ?_
    simp
  rw [fresh, hsplit]
  refine List.length_filter_lt_length_iff_exists.mpr ⟨c, ?_, by simp⟩
  exact List.mem_filter.mpr ⟨mem_containers he, by simpa using hc⟩

/-- The values inside a container; none where there is no container. -/
def parts (s : Store) (c : Container) : List Value := (s.parts? c).getD []

theorem parts_set (s : Store) (a : Addr .set) :
    s.parts (.set a) = (s.attrs a).bindings.map Prod.snd := by
  simp only [parts, parts?, attrs]
  cases s.sets.get? a <;> rfl

theorem exists_of_mem_parts {c : Container} {x : Value} (h : x ∈ s.parts c) : c.Exists s := by
  unfold parts at h
  cases hc : s.parts? c with
  | none => rw [hc] at h; cases h
  | some xs => exact exists_of_parts? hc

theorem treeOf_congr {f g : Value → Tree} {c : Container} (h : ∀ x ∈ s.parts c, f x = g x) :
    s.treeOf f c = s.treeOf g c := by
  cases c with
  | list a => exact congrArg Tree.list (List.map_congr_left h)
  | set a =>
    rw [parts_set] at h
    refine congrArg Tree.set (List.map_congr_left fun p hp => ?_)
    rw [h p.2 (List.mem_map_of_mem hp)]

/-! ### The view without levels -/

theorem viewWithin_congr {m n : Nat} (hm : s.fresh above < m) (hn : s.fresh above < n) :
    s.viewWithin m above v = s.viewWithin n above v := by
  induction m generalizing n above v with
  | zero => cases hm
  | succ m ih =>
    cases n with
    | zero => cases hn
    | succ n =>
      rw [viewWithin_succ, viewWithin_succ]
      split
      · rfl
      · split
        · rfl
        · rename_i c _ hc
          refine treeOf_congr fun x hx => ?_
          have := fresh_cons_lt hc (exists_of_mem_parts hx)
          exact ih (by omega) (by omega)

/-- The view of a value inside the containers `above`, with levels enough for it. -/
def viewInside (s : Store) (above : List Container) (v : Value) : Tree :=
  s.viewWithin (s.fresh above + 1) above v

theorem viewWithin_eq {n : Nat} (h : s.fresh above < n) :
    s.viewWithin n above v = s.viewInside above v := viewWithin_congr h (Nat.lt_succ_self _)

/-- The view of a container that a value is not inside of is that of its parts. -/
theorem viewInside_eq (s : Store) (above : List Container) (v : Value) :
    s.viewInside above v = match (s.resolve v).container? with
      | none => (s.resolve v).plainTree
      | some c => if c ∈ above then .repeated else s.treeOf (s.viewInside (c :: above)) c := by
  rw [viewInside, viewWithin_succ]
  cases (s.resolve v).container? with
  | none => rfl
  | some c =>
    by_cases hc : c ∈ above
    · simp only [if_pos hc]
    · simp only [if_neg hc]
      exact treeOf_congr fun x hx => viewWithin_eq (fresh_cons_lt hc (exists_of_mem_parts hx))

end Store

/-! ### The printer -/

/-- A printer: what it has written, and the containers that it is inside of. -/
structure Printer where
  out : String
  inside : List Container

namespace Printer

variable (p : Printer)

def write (text : String) : Printer := { p with out := p.out ++ text }

def enter (c : Container) : Printer := { p with inside := c :: p.inside }

def leave (c : Container) : Printer := { p with inside := p.inside.filter (· ≠ c) }

theorem write_write (t u : String) : (p.write t).write u = p.write (t ++ u) := by
  simp [write, String.append_assoc]

/-- A container that is entered and left again is not among those inside which the printer is. -/
theorem leave_enter {c : Container} (hc : c ∉ p.inside) (t : String) :
    ((p.enter c).write t).leave c = p.write t := by
  have hrest : ∀ d ∈ p.inside, d ≠ c := fun d hd h => hc (h ▸ hd)
  simpa [enter, write, leave] using hrest

end Printer

namespace Comp

/-- Prints what is inside a container, given how to print each part. -/
def printInside (f : Value → Printer → Comp Printer) : Container → Printer → Comp Printer
  | .list a, p => do
    let xs ← perform (.list a)
    let p ← (xs.getD []).foldlM (fun p x => do return (← f x p).write " ") (p.write "[ ")
    return p.write "]"
  | .set a, p => do
    let m ← perform (.attrs a)
    let p ← (m.getD .empty).bindings.foldlM
      (fun p b => do return (← f b.2 (p.write (Text.attrName b.1 ++ " = "))).write "; ")
      (p.write "\x7b ")
    return p.write "\x7d"

/-- Prints a value without forcing, down to a number of containers inside each other. A thunk that
has not been forced is passed over, and so is a container that the printer is inside of. -/
def printLazily : Nat → Value → Printer → Comp Printer
  | 0, _, _ => fail .outOfSteps
  | n + 1, v, p => do
    if ← isWaiting v then return p.write "<thunk>"
    else
      let w ← force v
      match w.container? with
      | none => return p.write w.plainTree.text
      | some c =>
        if c ∈ p.inside then return p.write "<repeated>"
        else return (← printInside (printLazily n) c (p.enter c)).leave c

/-- Parts that are printed one after the other, without any effect on the store. -/
theorem foldlM_writes {α : Type} {f : Printer → α → Comp Printer} {text : α → String}
    {inside : List Container} (l : List α)
    (h : ∀ a ∈ l, ∀ p : Printer, p.inside = inside → (f p a).Ends s (.ok (p.write (text a))) s)
    (p : Printer) (hp : p.inside = inside) :
    (l.foldlM f p).Ends s (.ok (p.write ((l.map text).foldr (· ++ ·) ""))) s := by
  induction l generalizing p with
  | nil =>
    refine ends_pure.mpr ⟨?_, rfl⟩
    simp [Printer.write]
  | cons a l ih =>
    rw [List.foldlM_cons, List.map_cons, List.foldr_cons, ← Printer.write_write]
    exact (h a List.mem_cons_self p hp).bind
      (ih (fun b hb => h b (List.mem_cons_of_mem a hb)) (p.write (text a)) hp)

end Comp

theorem Tree.itemsText_eq (ts : List Tree) :
    itemsText ts = (ts.map fun t => t.text ++ " ").foldr (· ++ ·) "" := by
  induction ts with
  | nil => rw [itemsText, List.map_nil, List.foldr_nil]
  | cons t ts ih => rw [itemsText, ih, List.map_cons, List.foldr_cons]

theorem Tree.attrsText_eq (items : List (String × Tree)) :
    attrsText items =
      (items.map fun q => Text.attrName q.1 ++ " = " ++ q.2.text ++ "; ").foldr (· ++ ·) "" := by
  induction items with
  | nil => rw [attrsText, List.map_nil, List.foldr_nil]
  | cons q items ih => rw [attrsText, ih, List.map_cons, List.foldr_cons]

namespace Comp

/-- A container is printed as its tree if its parts are. -/
theorem printInside_ends {f : Value → Printer → Comp Printer} {g : Value → Tree} {c : Container}
    {inside : List Container} (h : ∀ x ∈ s.parts c, ∀ p : Printer, p.inside = inside →
      (f x p).Ends s (.ok (p.write (g x).text)) s) (p : Printer) (hp : p.inside = inside) :
    (printInside f c p).Ends s (.ok (p.write (s.treeOf g c).text)) s := by
  cases c with
  | list a =>
    have hpart : ∀ x ∈ s.list a, ∀ p : Printer, p.inside = inside →
        (do return (← f x p).write " ").Ends s (.ok (p.write ((g x).text ++ " "))) s := by
      intro x hx p hp
      refine (h x hx p hp).bind (ends_pure.mpr ⟨?_, rfl⟩)
      rw [Printer.write_write]
    have hitems := foldlM_writes (s.list a) hpart (p.write "[ ") hp
    refine (perform_ends (.list a) s).bind (hitems.bind (ends_pure.mpr ⟨?_, rfl⟩))
    rw [Printer.write_write, Printer.write_write, Store.treeOf, Tree.text, Tree.itemsText_eq,
      List.map_map]
    rfl
  | set a =>
    rw [Store.parts_set] at h
    have hpart : ∀ b ∈ (s.attrs a).bindings, ∀ p : Printer, p.inside = inside →
        (do return (← f b.2 (p.write (Text.attrName b.1 ++ " = "))).write "; ").Ends s
          (.ok (p.write (Text.attrName b.1 ++ " = " ++ (g b.2).text ++ "; "))) s := by
      intro b hb p hp
      refine (h b.2 (List.mem_map_of_mem hb) (p.write _) hp).bind (ends_pure.mpr ⟨?_, rfl⟩)
      rw [Printer.write_write, Printer.write_write, ← String.append_assoc]
    have hattrs := foldlM_writes (s.attrs a).bindings hpart (p.write "\x7b ") hp
    refine (perform_ends (.attrs a) s).bind (hattrs.bind (ends_pure.mpr ⟨?_, rfl⟩))
    rw [Printer.write_write, Printer.write_write, Store.treeOf, Tree.text, Tree.attrsText_eq,
      List.map_map]
    rfl

/-- **The printer comes to an end**: it has written what can be seen, it is inside the same
containers as before, and nothing else has changed. -/
theorem printLazily_ends {levels : Nat} (v : Value) (p : Printer)
    (h : s.fresh p.inside < levels) :
    (printLazily levels v p).Ends s (.ok (p.write (s.viewInside p.inside v).text)) s := by
  induction levels generalizing v p with
  | zero => cases h
  | succ n ih =>
    unfold printLazily
    rw [s.viewInside_eq]
    rcases isWaiting_ends v s with ⟨hw, t, hr⟩ | ⟨hw, hf⟩
    · rw [hr]
      exact hw.bind (ends_pure.mpr ⟨rfl, rfl⟩)
    · refine hw.bind (hf.ends.bind ?_)
      cases (s.resolve v).container? with
      | none => exact ends_pure.mpr ⟨rfl, rfl⟩
      | some c =>
        by_cases hc : c ∈ p.inside
        · simp only [if_pos hc]
          exact ends_pure.mpr ⟨rfl, rfl⟩
        · simp only [if_neg hc]
          have hparts : ∀ x ∈ s.parts c, ∀ q : Printer, q.inside = c :: p.inside →
              (printLazily n x q).Ends s
                (.ok (q.write (s.viewInside (c :: p.inside) x).text)) s := by
            intro x hx q hq
            have hlt := Store.fresh_cons_lt hc (Store.exists_of_mem_parts hx)
            rw [← hq]
            exact ih x q (by rw [hq]; omega)
          refine (printInside_ends hparts (p.enter c) rfl).bind (ends_pure.mpr ⟨?_, rfl⟩)
          rw [p.leave_enter hc]

end Comp

/-! ### Place by place -/

/-- A step into a container: to an element of a list, or to an attribute of a set. -/
inductive Place where
  | item (i : Nat)
  | attr (name : String)

/-- The part of a tree at a place. -/
def Tree.child? : Tree → Place → Option Tree
  | .list ts, .item i => ts[i]?
  | .set items, .attr name => items.lookup name
  | _, _ => none

/-- What stands in a tree at the end of a way into it. -/
def Tree.at? : Tree → List Place → Option Tree
  | t, [] => some t
  | t, p :: ps => (t.child? p).bind fun u => u.at? ps

theorem lookup_map_snd {α β : Type} (f : α → β) (l : List (String × α)) (name : String) :
    (l.map fun p => (p.1, f p.2)).lookup name = (l.lookup name).map f := by
  induction l with
  | nil => rfl
  | cons p l ih =>
    rw [List.map_cons, Attrs.lookup_cons_ite, Attrs.lookup_cons_ite, ih]
    split <;> rfl

namespace Store

/-- The part of a container at a place. -/
def part? (s : Store) : Container → Place → Option Value
  | .list a, .item i => (s.list a)[i]?
  | .set a, .attr name => (s.attrs a).get? name
  | _, _ => none

/-- What occurs at the end of a way into a value that is inside the containers `above`, and the
containers that it is inside of there. No way leads into a container from inside of it. -/
def occurrence? (s : Store) :
    List Container → Value → List Place → Option (List Container × Value)
  | above, v, [] => some (above, v)
  | above, v, p :: ps =>
    match (s.resolve v).container? with
    | none => none
    | some c =>
      if c ∈ above then none else (s.part? c p).bind fun x => s.occurrence? (c :: above) x ps

theorem child?_treeOf (f : Value → Tree) (c : Container) (p : Place) :
    (s.treeOf f c).child? p = (s.part? c p).map f := by
  cases c with
  | list a =>
    cases p with
    | item i => exact List.getElem?_map ..
    | attr name => rfl
  | set a =>
    cases p with
    | item i => rfl
    | attr name => exact lookup_map_snd f (s.attrs a).bindings name

theorem child?_plainTree (h : w.container? = none) (p : Place) : w.plainTree.child? p = none := by
  cases w with
  | list a => cases h
  | set a => cases h
  | _ => rfl

/-- What stands at a place of the view is the view of what occurs there. -/
theorem at?_viewInside (s : Store) (above : List Container) (v : Value) (ps : List Place) :
    (s.viewInside above v).at? ps =
      (s.occurrence? above v ps).map fun o => s.viewInside o.1 o.2 := by
  induction ps generalizing above v with
  | nil => rfl
  | cons p ps ih =>
    rw [viewInside_eq, Tree.at?, occurrence?]
    cases hc : (s.resolve v).container? with
    | none =>
      simp only [child?_plainTree hc]
      rfl
    | some c =>
      by_cases hmem : c ∈ above
      · simp only [if_pos hmem]
        rfl
      · simp only [if_neg hmem, child?_treeOf, Option.bind_map, Option.map_bind]
        exact congrArg _ (funext fun x => ih (c :: above) x)

/-- Only a container inside itself is cut off. -/
theorem viewInside_eq_repeated :
    s.viewInside above v = .repeated ↔ ∃ c, (s.resolve v).container? = some c ∧ c ∈ above := by
  rw [viewInside_eq]
  generalize s.resolve v = w
  constructor
  · intro h
    cases hc : w.container? with
    | none =>
      rw [hc] at h
      cases w <;> cases h <;> cases hc
    | some c =>
      refine ⟨c, rfl, ?_⟩
      by_contra hmem
      simp only [hc, if_neg hmem] at h
      cases c <;> cases h
  · rintro ⟨c, hc, hmem⟩
    simp only [hc, if_pos hmem]

/-- A value that is no forced thunk is a thunk only if it has not been forced. -/
theorem resolve_eq_thunk (hs : s.Flat) {t : Addr .thunk} :
    s.resolve v = .thunk t ↔ v = .thunk t ∧ s.forced? t = none := by
  cases v with
  | thunk t' =>
    rw [resolve_thunk]
    cases ht : s.forced? t' with
    | none =>
      refine ⟨fun h => ⟨h, ?_⟩, fun h => h.1⟩
      cases h
      exact ht
    | some w =>
      have hw := hs t' w (forced?_eq_some.mp ht)
      constructor
      · intro h
        rw [Option.getD_some] at h
        subst h
        cases hw
      · rintro ⟨h, hn⟩
        cases h
        rw [ht] at hn
        cases hn
  | _ =>
    constructor
    · intro h
      cases h
    · rintro ⟨h, -⟩
      cases h

/-- Only a thunk that has not been forced is passed over. -/
theorem viewInside_eq_thunk (hs : s.Flat) :
    s.viewInside above v = .thunk ↔ ∃ t, v = .thunk t ∧ s.forced? t = none := by
  simp only [← resolve_eq_thunk hs]
  rw [viewInside_eq]
  generalize s.resolve v = w
  constructor
  · intro h
    cases w with
    | thunk t => exact ⟨t, rfl⟩
    | list a =>
      dsimp only [Value.container?] at h
      split at h <;> cases h
    | set a =>
      dsimp only [Value.container?] at h
      split at h <;> cases h
    | _ => cases h
  · rintro ⟨t, rfl⟩
    rfl

end Store

/-! ### Printing without forcing -/

/-- **Printing without forcing is total and pure.** In a store where no thunk has a thunk for its
value, which all stores are that can come about, a printer in any state comes to an end on any
value, with no more containers inside each other than there are. It has then written what can be
seen, it is inside the same containers as before, the store is the same, and nothing has been run on
the way; so it is for the operations that show a value as it is. At every place a container that is
inside itself is written as `repeated`, and no other; a thunk that has not been forced is written as
`thunk`, and nothing else is; and a container stands in full wherever it is not inside itself,
however often it has been written before. -/
theorem lazy_rendering {s : Store} (hs : s.Flat) (v : Value) :
    (∀ (p : Printer) (levels : Nat), s.containerCount < levels →
      (Comp.printLazily levels v p).Ends s (.ok { p with
        out := p.out ++ (s.viewWithin (s.containerCount + 1) p.inside v).text }) s ∧
      ∀ events, (Comp.printLazily levels v p).Records s events → events = s.journal) ∧
    (Comp.render v .raw).Ends s (.ok (.text (s.lazyText v) (s.typeName v) none)) s ∧
    (Comp.render v .lazyLine).Ends s (.ok (.text (s.lazyText v ++ "\n") (s.typeName v) none)) s ∧
    ∀ (above : List Container) (ps : List Place),
      let shown := (s.viewWithin (s.containerCount + 1) above v).at? ps
      (shown = none ↔ s.occurrence? above v ps = none) ∧
      (shown = some .repeated ↔ ∃ inside w c, s.occurrence? above v ps = some (inside, w) ∧
        (s.resolve w).container? = some c ∧ c ∈ inside) ∧
      (shown = some .thunk ↔ ∃ inside t, s.occurrence? above v ps = some (inside, .thunk t) ∧
        s.forced? t = none) ∧
      ∀ inside w, s.occurrence? above v ps = some (inside, w) →
        ((s.resolve w).container? = none → shown = some (s.resolve w).plainTree) ∧
        ∀ c, (s.resolve w).container? = some c → c ∉ inside →
          shown = some (s.treeOf (s.viewWithin (s.containerCount + 1) (c :: inside)) c) := by
  have hview : ∀ above, s.viewWithin (s.containerCount + 1) above = s.viewInside above :=
    fun above => funext fun w => Store.viewWithin_eq (Nat.lt_succ_of_le (s.fresh_le above))
  refine ⟨fun p levels hl => ?_, ?_, ?_, fun above ps => ?_⟩
  · have hends := Comp.printLazily_ends v p (Nat.lt_of_le_of_lt (s.fresh_le p.inside) hl)
    rw [hview]
    exact ⟨hends, fun events => hends.records⟩
  · exact (Comp.perform_ends (.view v) s).bind
      ((Comp.perform_ends (.typeName v) s).bind (Comp.ends_pure.mpr ⟨rfl, rfl⟩))
  · exact (Comp.perform_ends (.view v) s).bind
      ((Comp.perform_ends (.typeName v) s).bind (Comp.ends_pure.mpr ⟨rfl, rfl⟩))
  · intro shown
    -- what is shown at a place is the view of what occurs there
    have hshown : shown = (s.occurrence? above v ps).map fun o => s.viewInside o.1 o.2 := by
      rw [← s.at?_viewInside, ← hview]
    rw [hshown]
    simp only [hview]
    refine ⟨Option.map_eq_none_iff, ?_, ?_, fun inside w ho => ⟨fun hc => ?_, fun c hc hmem => ?_⟩⟩
    · simp only [Option.map_eq_some_iff, Prod.exists, Store.viewInside_eq_repeated]
      exact exists₂_congr fun inside w => exists_and_left.symm
    · simp only [Option.map_eq_some_iff, Prod.exists, Store.viewInside_eq_thunk hs]
      constructor
      · rintro ⟨inside, w, ho, t, rfl, ht⟩
        exact ⟨inside, t, ho, ht⟩
      · rintro ⟨inside, t, ho, ht⟩
        exact ⟨inside, _, ho, t, rfl, ht⟩
    · rw [ho, Option.map_some, Store.viewInside_eq, hc]
    · rw [ho, Option.map_some, Store.viewInside_eq, hc]
      simp only [if_neg hmem]

/-- A list of a thunk that has been forced to the list itself, one that has not been forced, one
that is being forced, and twice a list `[ 1 ]`, printed after something else. -/
theorem lazy_rendering_cyclic :
    let s : Store := { Store.initial with
      thunks := ⟨#[.forced (.list ⟨1⟩), .unforced .empty .depth, .forcing .empty .depth]⟩
      lists := ⟨#[[], [.thunk ⟨0⟩, .thunk ⟨1⟩, .thunk ⟨2⟩, .list ⟨2⟩, .list ⟨2⟩], [.int 1]]⟩ }
    (Comp.printLazily 9 (.list ⟨1⟩) ⟨"x = ", []⟩).Ends s
      (.ok ⟨"x = " ++ s.lazyText (.list ⟨1⟩), []⟩) s ∧
    (s.view (.list ⟨1⟩)).at? [.item 0] = some .repeated ∧
    (s.view (.list ⟨1⟩)).at? [.item 1] = some .thunk ∧
    (s.view (.list ⟨1⟩)).at? [.item 2] = some .thunk ∧
    (s.view (.list ⟨1⟩)).at? [.item 4, .item 0] = some (.int 1) ∧
    ∃ f, (s.view (.list ⟨1⟩)).at? [.item 4] = some (s.treeOf f (.list ⟨2⟩)) := by
  intro s
  have hs : s.Flat := by
    intro t v h
    have hv : v = .list ⟨1⟩ := by simpa [s] using Array.mem_of_getElem? h
    rw [hv]
    rfl
  obtain ⟨hprint, -, -, hplaces⟩ := lazy_rendering hs (.list ⟨1⟩)
  obtain ⟨hends, -⟩ := hprint ⟨"x = ", []⟩ 9 (by decide)
  refine ⟨hends, ?_, ?_, ?_, ?_, ?_⟩
  · exact (hplaces [] [.item 0]).2.1.mpr ⟨[.list ⟨1⟩], .thunk ⟨0⟩, .list ⟨1⟩, rfl, rfl, by decide⟩
  · exact (hplaces [] [.item 1]).2.2.1.mpr ⟨[.list ⟨1⟩], ⟨1⟩, rfl, rfl⟩
  · exact (hplaces [] [.item 2]).2.2.1.mpr ⟨[.list ⟨1⟩], ⟨2⟩, rfl, rfl⟩
  · exact ((hplaces [] [.item 4, .item 0]).2.2.2 [.list ⟨2⟩, .list ⟨1⟩] (.int 1) rfl).1 rfl
  · have hfull := ((hplaces [] [.item 4]).2.2.2 [.list ⟨1⟩] (.list ⟨2⟩) rfl).2
    exact ⟨_, hfull (.list ⟨2⟩) rfl (by decide)⟩

end NixKernel
