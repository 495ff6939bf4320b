import Mathlib
import NixKernel.Proofs.Datum
import NixKernel.Proofs.Literal

/-!
Printing is unambiguous. The first character of a printed value tells of what sort it is, and from
there on its end can be seen; so two trees that are printed alike are the same. A value without
cycles is printed as the tree of its datum, and values are equal if their data are.
-/

namespace NixKernel

open Text (Stops isIdentRest isIdentStart)

/-! ### Printed trees -/

namespace Tree

variable {t u : Tree} {ts us : List Tree} {items others : List (String × Tree)}
  {r r' : List Char}

/-- A number, a truth value or null: what is printed as one word. -/
def isWord : Tree → Bool
  | .int _ | .bool _ | .null => true
  | _ => false

/-- There are only integers, truth values, nulls, strings, lists and sets in a tree, and none of
them is a container inside itself. -/
inductive IsData : Tree → Prop
  | word {t : Tree} (h : t.isWord = true) : IsData t
  | str (s : String) : IsData (.str s)
  | list {ts : List Tree} (h : ∀ t ∈ ts, IsData t) : IsData (.list ts)
  | set {items : List (String × Tree)} (h : ∀ p ∈ items, IsData p.2) : IsData (.set items)

theorem isData_list : (list ts).IsData ↔ ∀ t ∈ ts, t.IsData := by
  refine ⟨fun h => ?_, .list⟩
  cases h with
  | word h => cases h
  | list h => exact h

theorem isData_set : (set items).IsData ↔ ∀ p ∈ items, p.2.IsData := by
  refine ⟨fun h => ?_, .set⟩
  cases h with
  | word h => cases h
  | set h => exact h

def chars (t : Tree) : List Char := t.text.toList

theorem chars_list_append (ts : List Tree) (r : List Char) :
    (list ts).chars ++ r = '[' :: ' ' :: ((itemsText ts).toList ++ ']' :: r) := by
  simp [chars, text]

theorem chars_set_append (items : List (String × Tree)) (r : List Char) :
    (set items).chars ++ r = '{' :: ' ' :: ((attrsText items).toList ++ '}' :: r) := by
  simp [chars, text]

theorem itemsText_cons_append (t : Tree) (ts : List Tree) (r : List Char) :
    (itemsText (t :: ts)).toList ++ r = t.chars ++ ' ' :: ((itemsText ts).toList ++ r) := by
  simp [itemsText, chars]

theorem attrsText_cons_append (p : String × Tree) (items : List (String × Tree))
    (r : List Char) :
    (attrsText (p :: items)).toList ++ r = (Text.attrName p.1).toList ++
      ' ' :: '=' :: ' ' :: (p.2.chars ++ ';' :: ' ' :: ((attrsText items).toList ++ r)) := by
  simp [attrsText, chars]

/-! ### Words -/

/-- A word is a number, or it starts as a name does. -/
theorem isWord_cases (h : t.isWord = true) : (∃ n, t = .int n) ∨
    ∃ c cs, t.chars = c :: cs ∧ isIdentStart c = true ∧ ∀ d ∈ c :: cs, isIdentRest d = true := by
  match t with
  | .int n => exact .inl ⟨n, rfl⟩
  | .bool true => exact .inr ⟨'t', ['r', 'u', 'e'], rfl, rfl, List.all_eq_true.mp rfl⟩
  | .bool false => exact .inr ⟨'f', ['a', 'l', 's', 'e'], rfl, rfl, List.all_eq_true.mp rfl⟩
  | .null => exact .inr ⟨'n', ['u', 'l', 'l'], rfl, rfl, List.all_eq_true.mp rfl⟩

theorem isIdentRest_of_mem (h : t.isWord = true) : ∀ c ∈ t.chars, isIdentRest c = true := by
  rcases isWord_cases h with ⟨n, rfl⟩ | ⟨c, cs, hchars, -, hrest⟩
  · intro c hc
    exact (Text.repr_chars hc).1
  · exact hchars ▸ hrest

theorem chars_ne_nil (h : t.isWord = true) : t.chars ≠ [] := by
  rcases isWord_cases h with ⟨n, rfl⟩ | ⟨c, cs, hchars, -⟩
  · exact Text.repr_toList_ne_nil _
  · simp [hchars]

theorem int_unique {n : Int64} (hu : u.isWord = true) (h : (int n).chars = u.chars) :
    int n = u := by
  rcases isWord_cases hu with ⟨m, rfl⟩ | ⟨c, cs, hchars, hstart, -⟩
  · have hmn := Int.repr_injective (String.toList_inj.mp h)
    rw [Int64.toInt_inj.mp hmn]
  · have hc : c ∈ (int n).chars := by simp [h, hchars]
    rw [(Text.repr_chars hc).2] at hstart
    cases hstart

/-- A word is that of one value. -/
theorem word_injective (ht : t.isWord = true) (hu : u.isWord = true) (h : t.chars = u.chars) :
    t = u := by
  cases t with
  | int m => exact int_unique hu h
  | bool b =>
    cases u with
    | int n => exact (int_unique ht h.symm).symm
    | bool b' => cases b <;> cases b' <;> first | rfl | exact absurd h (by decide)
    | null => cases b <;> exact absurd h (by decide)
    | _ => cases hu
  | null =>
    cases u with
    | int n => exact (int_unique ht h.symm).symm
    | bool b => cases b <;> exact absurd h (by decide)
    | null => rfl
    | _ => cases hu
  | _ => cases ht

/-! ### Where a printed tree ends -/

/-- The character that opens a string, a list or a set. -/
def opening? : Tree → Option Char
  | .str _ => some '"'
  | .list _ => some '['
  | .set _ => some '{'
  | _ => none

theorem opening?_word (h : t.isWord = true) : t.opening? = none := by
  cases t <;> first | rfl | cases h

/-- The first character tells of what sort a tree is. -/
theorem IsData.head (h : t.IsData) : ∃ c cs, t.chars = c :: cs ∧
    (t.opening? = some c ∨ t.opening? = none ∧ isIdentRest c = true) := by
  cases h with
  | word h =>
    obtain ⟨c, cs, hchars⟩ := List.exists_cons_of_ne_nil (chars_ne_nil h)
    exact ⟨c, cs, hchars, .inr ⟨opening?_word h, isIdentRest_of_mem h c (by simp [hchars])⟩⟩
  | str s => exact ⟨'"', _, Text.toList_quote s, .inl rfl⟩
  | @list ts h => exact ⟨'[', _, by rw [← List.append_nil (chars _), chars_list_append], .inl rfl⟩
  | @set items h => exact ⟨'{', _, by rw [← List.append_nil (chars _), chars_set_append], .inl rfl⟩

theorem IsData.ne_bracket (h : t.IsData) (r r' : List Char) : t.chars ++ r ≠ ']' :: r' := by
  obtain ⟨c, cs, hchars, hc⟩ := h.head
  rw [hchars]
  rintro ⟨⟩
  rcases hc with hc | ⟨-, hc⟩
  · cases t <;> cases hc
  · exact absurd hc (by decide)

/-- Trees whose texts start alike are of the same sort. -/
theorem IsData.opening?_eq (ht : t.IsData) (hu : u.IsData) (h : t.chars ++ r = u.chars ++ r') :
    t.opening? = u.opening? := by
  obtain ⟨c, cs, hchars, hc⟩ := ht.head
  obtain ⟨d, ds, hchars', hd⟩ := hu.head
  obtain rfl : c = d := by simpa [hchars, hchars'] using congrArg List.head? h
  -- no word starts with an opening character
  have hnot : ∀ t : Tree, t.opening? = some c → isIdentRest c = false := by
    intro t ht
    cases t <;> cases ht <;> decide
  rcases hc with hc | ⟨hc, hrest⟩ <;> rcases hd with hd | ⟨hd, hrest'⟩
  · rw [hc, hd]
  · rw [hnot t hc] at hrest'
    cases hrest'
  · rw [hnot u hd] at hrest
    cases hrest
  · rw [hc, hd]

/-- What a tree is and where it ends can be seen from its text and what follows. -/
def Readable (t : Tree) : Prop :=
  ∀ u r r', u.IsData → Stops isIdentRest r → Stops isIdentRest r' →
    t.chars ++ r = u.chars ++ r' → t = u ∧ r = r'

/-- Where the elements of a list end can be seen. -/
theorem items_unique (hread : ∀ t ∈ ts, t.Readable) (hts : ∀ t ∈ ts, t.IsData)
    (hus : ∀ u ∈ us, u.IsData)
    (h : (itemsText ts).toList ++ ']' :: r = (itemsText us).toList ++ ']' :: r') :
    ts = us ∧ r = r' := by
  induction ts generalizing us with
  | nil =>
    cases us with
    | nil => exact ⟨rfl, (List.cons.inj h).2⟩
    | cons u us =>
      rw [itemsText_cons_append] at h
      exact absurd h.symm ((hus u List.mem_cons_self).ne_bracket _ _)
  | cons t ts ih =>
    cases us with
    | nil =>
      rw [itemsText_cons_append] at h
      exact absurd h ((hts t List.mem_cons_self).ne_bracket _ _)
    | cons u us =>
      rw [List.forall_mem_cons] at hread hts hus
      rw [itemsText_cons_append, itemsText_cons_append] at h
      have hblank : ∀ r, Stops isIdentRest (' ' :: r) := Stops.cons (by decide)
      obtain ⟨hhead, hrest⟩ := hread.1 u _ _ hus.1 (hblank _) (hblank _) h
      obtain ⟨htail, hr⟩ := ih hread.2 hts.2 hus.2 (List.cons.inj hrest).2
      exact ⟨by rw [hhead, htail], hr⟩

/-- Where the attributes of a set end can be seen. -/
theorem attrs_unique (hread : ∀ p ∈ items, p.2.Readable) (hothers : ∀ q ∈ others, q.2.IsData)
    (h : (attrsText items).toList ++ '}' :: r = (attrsText others).toList ++ '}' :: r') :
    items = others ∧ r = r' := by
  induction items generalizing others with
  | nil =>
    cases others with
    | nil => exact ⟨rfl, (List.cons.inj h).2⟩
    | cons q others =>
      rw [attrsText_cons_append] at h
      exact absurd h.symm (Text.attrName_ne_brace _ _ _)
  | cons p items ih =>
    cases others with
    | nil =>
      rw [attrsText_cons_append] at h
      exact absurd h (Text.attrName_ne_brace _ _ _)
    | cons q others =>
      rw [List.forall_mem_cons] at hread hothers
      rw [attrsText_cons_append, attrsText_cons_append] at h
      have hblank : ∀ r, Stops isIdentRest (' ' :: r) := Stops.cons (by decide)
      have hsemi : ∀ r, Stops isIdentRest (';' :: r) := Stops.cons (by decide)
      obtain ⟨hname, hvalue⟩ := Text.attrName_unique (hblank _) (hblank _) h
      simp only [List.cons.injEq, true_and] at hvalue
      obtain ⟨hhead, hrest⟩ := hread.1 q.2 _ _ hothers.1 (hsemi _) (hsemi _) hvalue
      simp only [List.cons.injEq, true_and] at hrest
      obtain ⟨htail, hr⟩ := ih hread.2 hothers.2 hrest
      exact ⟨by rw [Prod.ext hname hhead, htail], hr⟩

/-- **A printed tree can be read back.** -/
theorem IsData.readable (ht : t.IsData) : t.Readable := by
  -- the other tree is of the same sort, since the first characters agree; then the parts are read
  induction ht with
  | @word t h =>
    intro u r r' hu hr hr' heq
    have hword : u.isWord = true := by
      have hopen := (IsData.word h).opening?_eq hu heq
      rw [opening?_word h] at hopen
      cases hu with
      | word h => exact h
      | _ => cases hopen
    obtain ⟨hchars, hrest⟩ := Text.word_unique (isIdentRest_of_mem h) (isIdentRest_of_mem hword)
      hr hr' heq
    exact ⟨word_injective h hword hchars, hrest⟩
  | str s =>
    intro u r r' hu hr hr' heq
    have hopen := (IsData.str s).opening?_eq hu heq
    cases hu with
    | word h =>
      rw [opening?_word h] at hopen
      cases hopen
    | str s' =>
      obtain ⟨rfl, hrest⟩ := Text.quote_unique heq
      exact ⟨rfl, hrest⟩
    | _ => simp [opening?] at hopen
  | @list ts h ih =>
    intro u r r' hu hr hr' heq
    have hopen := (IsData.list h).opening?_eq hu heq
    cases hu with
    | word h =>
      rw [opening?_word h] at hopen
      cases hopen
    | list hus =>
      rw [chars_list_append, chars_list_append] at heq
      simp only [List.cons.injEq, true_and] at heq
      obtain ⟨rfl, hrest⟩ := items_unique ih h hus heq
      exact ⟨rfl, hrest⟩
    | _ => simp [opening?] at hopen
  | @set items h ih =>
    intro u r r' hu hr hr' heq
    have hopen := (IsData.set h).opening?_eq hu heq
    cases hu with
    | word h =>
      rw [opening?_word h] at hopen
      cases hopen
    | set hothers =>
      rw [chars_set_append, chars_set_append] at heq
      simp only [List.cons.injEq, true_and] at heq
      obtain ⟨rfl, hrest⟩ := attrs_unique ih hothers heq
      exact ⟨rfl, hrest⟩
    | _ => simp [opening?] at hopen

/-- Trees that are printed alike are the same. -/
theorem IsData.text_inj (ht : t.IsData) (hu : u.IsData) : t.text = u.text ↔ t = u := by
  refine ⟨fun h => ?_, fun h => h ▸ rfl⟩
  have hnil : Stops isIdentRest [] := nofun
  exact (ht.readable u [] [] hu hnil hnil (by rw [chars, chars, h])).1

end Tree

/-! ### The tree of a datum -/

theorem eq_of_map_eq {α β : Type} {f : α → β} {l l' : List α}
    (hf : ∀ a ∈ l, ∀ b, f a = f b → a = b) (h : l.map f = l'.map f) : l = l' := by
  have hmap : ∀ m : List α, List.Forall₂ (fun b a => b = f a) (m.map f) m := fun m =>
    List.forall₂_map_left_iff.mpr (List.forall₂_same.mpr fun _ _ => rfl)
  exact forall₂_unique (hmap l) (h ▸ hmap l') fun a ha b a' hb hb' => hf a ha a' (hb ▸ hb')

theorem Value.plainTree_inj {x y : Value} (hx : x.isAtom = true) (hy : y.isAtom = true)
    (hd : x.plainTree.IsData) (h : x.plainTree = y.plainTree) : x = y := by
  have hlambda : ¬ Tree.lambda.IsData := by
    rintro ⟨h⟩
    cases h
  cases x <;> cases y <;> simp_all [plainTree, isAtom]

theorem Value.container?_atom {x : Value} (hx : x.isAtom = true) : x.container? = none := by
  cases x <;> simp_all [container?, isAtom]

theorem Value.plainTree_atom {x : Value} (hx : x.isAtom = true) :
    (∀ ts, x.plainTree ≠ .list ts) ∧ ∀ items, x.plainTree ≠ .set items := by
  cases x <;> simp_all [plainTree, isAtom]

namespace Datum

mutual

/-- A datum spelled out. -/
def tree : Datum → Tree
  | .atom v _ => v.plainTree
  | .list ds => .list (treeItems ds)
  | .set items => .set (treeAttrs items)

def treeItems : List Datum → List Tree
  | [] => []
  | d :: ds => d.tree :: treeItems ds

def treeAttrs : List (String × Datum) → List (String × Tree)
  | [] => []
  | (name, d) :: items => (name, d.tree) :: treeAttrs items

end

theorem tree_list (ds : List Datum) : (list ds).tree = .list (ds.map tree) := by
  have hitems : treeItems ds = ds.map tree := by
    induction ds with
    | nil => rfl
    | cons d ds ih => rw [treeItems, ih, List.map_cons]
  rw [tree, hitems]

theorem tree_set (items : List (String × Datum)) :
    (set items).tree = .set (items.map fun p => (p.1, p.2.tree)) := by
  have hattrs : treeAttrs items = items.map fun p => (p.1, p.2.tree) := by
    induction items with
    | nil => rfl
    | cons p items ih => rw [treeAttrs, ih, List.map_cons]
  rw [tree, hattrs]

/-- A tree of data is that of one datum. -/
theorem tree_inj {d e : Datum} (hd : d.tree.IsData) (h : d.tree = e.tree) : d = e := by
  -- trees of different kinds differ, as an atom is never written as a list or a set
  induction d generalizing e with
  | atom x hx =>
    cases e with
    | atom y hy =>
      rw [tree] at hd h
      obtain rfl := Value.plainTree_inj hx hy hd h
      rfl
    | list es =>
      rw [tree, tree_list] at h
      exact absurd h ((Value.plainTree_atom hx).1 _)
    | set others =>
      rw [tree, tree_set] at h
      exact absurd h ((Value.plainTree_atom hx).2 _)
  | list ds ih =>
    rw [tree_list, Tree.isData_list, List.forall_mem_map] at hd
    cases e with
    | atom y hy =>
      rw [tree, tree_list] at h
      exact absurd h.symm ((Value.plainTree_atom hy).1 _)
    | list es =>
      rw [tree_list, tree_list, Tree.list.injEq] at h
      rw [eq_of_map_eq (fun d hmem e => ih d hmem (hd d hmem)) h]
    | set others => simp [tree_list, tree_set] at h
  | set items ih =>
    rw [tree_set, Tree.isData_set, List.forall_mem_map] at hd
    cases e with
    | atom y hy =>
      rw [tree, tree_set] at h
      exact absurd h.symm ((Value.plainTree_atom hy).2 _)
    | list es => simp [tree_list, tree_set] at h
    | set others =>
      rw [tree_set, tree_set, Tree.set.injEq] at h
      rw [eq_of_map_eq (fun p hp q hpq => ?_) h]
      rw [Prod.mk.injEq] at hpq
      exact Prod.ext hpq.1 (ih p hp (hd p hp) hpq.2)

end Datum

/-! ### Spelling out -/

/-- The value that is a container. -/
def Container.value : Container → Value
  | .list a => .list a
  | .set a => .set a

namespace Store

variable {s : Store} {above : List Container} {c : Container} {d e : Datum}

/-- Nothing that stands for a datum is one of some containers: each of those stands for something
larger. -/
def Below (s : Store) (above : List Container) (d : Datum) : Prop :=
  ∀ c ∈ above, ∃ e, s.Unfolds c.value e ∧ sizeOf d < sizeOf e

theorem Below.not_mem (h : s.Below above d) (hc : s.Unfolds c.value d) : c ∉ above := by
  intro hmem
  obtain ⟨e, he, hlt⟩ := h c hmem
  rw [he.unique hc] at hlt
  exact Nat.lt_irrefl _ hlt

theorem Below.part (h : s.Below above d) (hc : s.Unfolds c.value d) (he : e ∈ d.parts) :
    s.Below (c :: above) e := by
  have hlt := Datum.sizeOf_part he
  intro c' hc'
  rcases List.mem_cons.mp hc' with rfl | hc'
  · exact ⟨d, hc, hlt⟩
  · obtain ⟨f, hf, hdf⟩ := h c' hc'
    exact ⟨f, hf, hlt.trans hdf⟩

end Store

namespace Comp

variable {s : Store} {above : List Container} {v : Value} {d : Datum}

/-- Computations without effect one after the other. -/
theorem mapM_ends₂ {α β : Type} {f : α → Comp β} {l : List α} {bs : List β}
    (h : List.Forall₂ (fun a b => (f a).Ends s (.ok b) s) l bs) : (l.mapM f).Ends s (.ok bs) s := by
  induction h with
  | nil => exact ends_pure.mpr ⟨rfl, rfl⟩
  | cons ha hrest ih =>
    rw [List.mapM_cons]
    exact ha.bind (ih.bind (ends_pure.mpr ⟨rfl, rfl⟩))

theorem ends_spellForced {x : Value} {r : Except Error Tree} {s' : Store} (h : s.Forced v x) :
    (request (.spell above v)).Ends s r s' ↔ (spellForced above x).Ends s r s' := by
  rw [ends_spell, spell_eq]
  exact h.ends.bind_iff

theorem spellForced_container {x : Value} {c : Container} (hx : x.container? = some c)
    (hc : c ∉ above) :
    spellForced above x = spellInside (fun y => request (.spell (c :: above) y)) c := by
  rw [spellForced, hx]
  exact if_neg hc

/-- **A value is spelled out as its datum is**, without any effect. -/
theorem spell_unfolds (h : s.Unfolds v d) (hbelow : s.Below above d) :
    (request (.spell above v)).Ends s (.ok d.tree) s := by
  induction d generalizing v above with
  | atom x hx =>
    cases h with
    | atom _ h =>
      rw [ends_spellForced h, spellForced, Value.container?_atom hx, Datum.tree]
      exact ends_pure.mpr ⟨rfl, rfl⟩
  | list ds ih =>
    cases h with
    | @list _ a xs _ h ha inner =>
      have hself : s.Unfolds (Container.list a).value (.list ds) := .list (.self rfl) ha inner
      rw [ends_spellForced h, spellForced_container rfl (hbelow.not_mem hself), Datum.tree_list]
      have hparts := forall₂_imp inner fun d hd x hx => ih d hd hx (hbelow.part hself hd)
      refine (Stays.items ha).ends.bind (Ends.bind (mapM_ends₂ ?_) (ends_pure.mpr ⟨rfl, rfl⟩))
      exact List.forall₂_map_right_iff.mpr hparts
  | set items ih =>
    cases h with
    | @set _ a m _ h ha names inner =>
      have hself : s.Unfolds (Container.set a).value (.set items) :=
        .set (.self rfl) ha names inner
      have hm := binding_iff.mpr ⟨names, inner⟩
      rw [ends_spellForced h, spellForced_container rfl (hbelow.not_mem hself), Datum.tree_set]
      refine (Stays.attrs ha).ends.bind (Ends.bind (mapM_ends₂ ?_) (ends_pure.mpr ⟨rfl, rfl⟩))
      refine List.forall₂_map_right_iff.mpr (forall₂_imp hm fun q hq p hp => ?_)
      have hpart := ih q hq hp.2 (hbelow.part hself (List.mem_map_of_mem hq))
      exact hpart.bind (ends_pure.mpr ⟨by rw [hp.1], rfl⟩)

end Comp

/-! ### Values of data only -/

/-- An integer, a truth value, null, a string, a list or a set. -/
def Value.isData : Value → Bool
  | .int _ | .bool _ | .null | .str _ | .list _ | .set _ => true
  | .float _ | .path _ | .lambda _ | .thunk _ => false

theorem Value.plainTree_isData {x : Value} (hx : x.isAtom = true) (hd : x.isData = true) :
    x.plainTree.IsData := by
  match x, hx, hd with
  | .int _, _, _ | .bool _, _, _ | .null, _, _ => exact .word rfl
  | .str s, _, _ => exact .str s

namespace Store

variable {s : Store} {v : Value} {d e : Datum}

/-- What is inside a datum comes from what is inside the value. -/
theorem Unfolds.part {P : Value → Prop} (h : s.Unfolds v d) (hv : s.Throughout P v)
    (he : e ∈ d.parts) : ∃ x, s.Unfolds x e ∧ s.Throughout P x := by
  obtain ⟨c, hc⟩ : ∃ c, (s.resolve v).container? = some c := by
    cases h with
    | atom => cases he
    | list h | set h => exact ⟨_, by rw [h.resolve]; rfl⟩
  obtain ⟨xs, hxs, hinner⟩ := h.inner hc
  obtain ⟨x, hx, hxe⟩ := forall₂_mem hinner.flip he
  exact ⟨x, hxe, hv.part hc hxs x hx⟩

/-- The tree of a value in which there is nothing but data. -/
theorem Unfolds.tree_isData (h : s.Unfolds v d) (hdata : s.Throughout (·.isData = true) v) :
    d.tree.IsData := by
  induction d generalizing v with
  | atom x hx =>
    cases h with
    | atom _ h =>
      rw [Datum.tree]
      exact Value.plainTree_isData hx (h.resolve ▸ hdata.here)
  | list ds ih =>
    rw [Datum.tree_list, Tree.isData_list, List.forall_mem_map]
    intro e he
    obtain ⟨x, hx, hxdata⟩ := h.part hdata he
    exact ih e he hx hxdata
  | set items ih =>
    rw [Datum.tree_set, Tree.isData_set, List.forall_mem_map]
    intro q hq
    obtain ⟨x, hx, hxdata⟩ := h.part hdata (List.mem_map_of_mem hq)
    exact ih q hq hx hxdata

end Store

/-- **Printing is unambiguous.** Let two values be evaluated to the end, without cycles, with only
integers, truth values, nulls, strings, lists and sets in them. Then they can be compared and
printed without any effect, nothing is printed as a container inside itself, and they are equal if
and only if the same is printed. -/
theorem print_unambiguous (s : Store) (v w : Value) (hv : s.Evaluated v) (hw : s.Evaluated w)
    (hv' : s.Throughout (·.isData = true) v) (hw' : s.Throughout (·.isData = true) w) :
    ∃ (b : Bool) (t u : Tree), (Comp.comparison .eq v w).Ends s (.ok (.bool b)) s ∧
      (Comp.request (.spell [] v)).Ends s (.ok t) s ∧ t.IsData ∧
      (Comp.request (.spell [] w)).Ends s (.ok u) s ∧ u.IsData ∧
      (Comp.print v).Ends s (.ok t.text) s ∧ (Comp.print w).Ends s (.ok u.text) s ∧
      (b = true ↔ t.text = u.text) := by
  have hfree : ∀ x, s.Throughout (·.isData = true) x → s.Throughout (·.typeName ≠ .float) x := by
    intro x hx y hy hfloat
    have hdata := hx y hy
    cases y <;> cases hfloat
    cases hdata
  obtain ⟨d, hd⟩ := Store.exists_unfolds_iff.mpr ⟨hv, hfree v hv'⟩
  obtain ⟨e, he⟩ := Store.exists_unfolds_iff.mpr ⟨hw, hfree w hw'⟩
  have ht : (Comp.request (.spell [] v)).Ends s (.ok d.tree) s := Comp.spell_unfolds hd nofun
  have hu : (Comp.request (.spell [] w)).Ends s (.ok e.tree) s := Comp.spell_unfolds he nofun
  have htdata := hd.tree_isData hv'
  have hudata := he.tree_isData hw'
  obtain ⟨b, hb, hiff⟩ := s.recognizes d v w e hd he
  refine ⟨b, d.tree, e.tree, hb.bind (Comp.ends_pure.mpr ⟨rfl, rfl⟩), ht, htdata, hu, hudata,
    ht.bind (Comp.ends_pure.mpr ⟨rfl, rfl⟩), hu.bind (Comp.ends_pure.mpr ⟨rfl, rfl⟩), ?_⟩
  rw [hiff, htdata.text_inj hudata]
  exact ⟨fun h => h ▸ rfl, Datum.tree_inj htdata⟩

/-- A store with two sets of the same attributes: in one of them a list is shared, in the other it
is there twice. -/
def Store.twins : Store :=
  { Store.initial with
    lists := ⟨#[[], [.str "$\x7b ]"], [.str "$\x7b ]"]]⟩
    sets := ⟨#[.empty, builtinBindings, globalBindings,
      .ofList [("x = y;", .list ⟨1⟩), ("z", .list ⟨1⟩)],
      .ofList [("z", .list ⟨2⟩), ("x = y;", .list ⟨1⟩)]]⟩ }

/-- The texts are the same, whether a list is shared or not. -/
theorem print_unambiguous_twins : ∃ text,
    (Comp.comparison .eq (.set ⟨3⟩) (.set ⟨4⟩)).Ends .twins (.ok (.bool true)) .twins ∧
    (Comp.print (.set ⟨3⟩)).Ends .twins (.ok text) .twins ∧
    (Comp.print (.set ⟨4⟩)).Ends .twins (.ok text) .twins := by
  have hstr : Store.twins.Unfolds (.str "$\x7b ]") _ := .atom rfl (.self rfl)
  have hone : Store.twins.Unfolds (.list ⟨1⟩) _ := .list (.self rfl) rfl (.cons hstr .nil)
  have htwo : Store.twins.Unfolds (.list ⟨2⟩) _ := .list (.self rfl) rfl (.cons hstr .nil)
  have hshared : Store.twins.Unfolds (.set ⟨3⟩) (.set [("x = y;", _), ("z", _)]) :=
    .set (.self rfl) rfl rfl (.cons hone (.cons hone .nil))
  have htwice : Store.twins.Unfolds (.set ⟨4⟩) (.set [("x = y;", _), ("z", _)]) :=
    .set (.self rfl) rfl rfl (.cons hone (.cons htwo .nil))
  have hdata : Store.twins.Throughout (·.isData = true) (.str "$\x7b ]") := .intro rfl nofun
  have hdata₁ : Store.twins.Throughout (·.isData = true) (.list ⟨1⟩) :=
    .list rfl rfl (List.forall_mem_singleton.mpr hdata)
  have hdata₂ : Store.twins.Throughout (·.isData = true) (.list ⟨2⟩) :=
    .list rfl rfl (List.forall_mem_singleton.mpr hdata)
  have hdata₃ : Store.twins.Throughout (·.isData = true) (.set ⟨3⟩) :=
    .set rfl rfl (List.forall_mem_cons.mpr ⟨hdata₁, List.forall_mem_singleton.mpr hdata₁⟩)
  have hdata₄ : Store.twins.Throughout (·.isData = true) (.set ⟨4⟩) :=
    .set rfl rfl (List.forall_mem_cons.mpr ⟨hdata₁, List.forall_mem_singleton.mpr hdata₂⟩)
  obtain ⟨b, t, u, hb, -, -, -, -, ht, hu, hiff⟩ := print_unambiguous .twins (.set ⟨3⟩) (.set ⟨4⟩)
    hshared.evaluated.1 htwice.evaluated.1 hdata₃ hdata₄
  have hequal : (Comp.comparison .eq (.set ⟨3⟩) (.set ⟨4⟩)).Ends .twins (.ok (.bool true)) .twins :=
    ⟨10, rfl⟩
  cases (hequal.unique hb).1
  exact ⟨t.text, hequal, ht, hiff.mp rfl ▸ hu⟩

end NixKernel
