import NixKernel.Proofs.Less

/-!
Texts by their characters. Texts are compared by the bytes of their UTF-8 form, and that is the same
as to compare them character by character: the forms of two different characters first differ at a
byte that both have, and there the greater character has the greater byte.
-/

namespace NixKernel

namespace Text

variable {s t : String} {c d : Char} {l m : List UInt8}

/-! ### The form of one character -/

/-- The first difference of two lists stands inside of both, and there the first list is lower. -/
def PartsBelow : List UInt8 → List UInt8 → Prop
  | b :: l, c :: m => b < c ∨ b = c ∧ PartsBelow l m
  | _, _ => False

theorem compareLex_swap (l m : List UInt8) :
    l.compareLex Ord.compare m = (m.compareLex Ord.compare l).swap := Std.OrientedCmp.eq_swap

/-- What comes after the first difference does not matter. -/
theorem PartsBelow.compareLex_append (h : PartsBelow l m) (x y : List UInt8) :
    (l ++ x).compareLex Ord.compare (m ++ y) = .lt := by
  induction l generalizing m with
  | nil => cases h
  | cons b l ih =>
    cases m with
    | nil => cases h
    | cons c m =>
      rw [List.cons_append, List.cons_append, List.compareLex_cons_cons]
      rcases h with h | ⟨rfl, h⟩
      · rw [Std.compare_eq_lt.mpr h, Ordering.lt_then]
      · rw [Std.compare_self, Ordering.eq_then, ih h]

theorem compareLex_append_left (l x y : List UInt8) :
    (l ++ x).compareLex Ord.compare (l ++ y) = x.compareLex Ord.compare y := by
  induction l with
  | nil => rfl
  | cons b l ih =>
    rw [List.cons_append, List.cons_append, List.compareLex_cons_cons, Std.compare_self,
      Ordering.eq_then, ih]

/-- The form of the lower character parts below that of the other. -/
theorem partsBelow_encode (h : c.toNat < d.toNat) :
    PartsBelow (String.utf8EncodeChar c) (String.utf8EncodeChar d) := by
  have hd : d.val.toNat < 0x110000 := by
    have hvalid := d.valid
    simp only [UInt32.isValidChar, Nat.isValidChar] at hvalid
    omega
  have hdigits : ∀ n : Nat, n / 4096 = n / 64 / 64 ∧ n / 262144 = n / 64 / 64 / 64 := by omega
  change c.val.toNat < d.val.toNat at h
  simp only [String.utf8EncodeChar]
  generalize c.val.toNat = v at h ⊢
  generalize d.val.toNat = w at h hd ⊢
  -- a shorter form has a lower first byte, and forms of one length are numbers in base 64
  split_ifs <;> simp only [PartsBelow, UInt8.lt_iff_toNat_lt, ← UInt8.toNat_inj,
    UInt8.toNat_ofNat', hdigits, and_false, or_false] <;> omega

/-- Texts are compared by their first characters, and by what follows if these are the same. -/
theorem compareLex_encode (c d : Char) (x y : List UInt8) :
    (String.utf8EncodeChar c ++ x).compareLex Ord.compare (String.utf8EncodeChar d ++ y) =
      (Ord.compare c.toNat d.toNat).then (x.compareLex Ord.compare y) := by
  rcases Nat.lt_trichotomy c.toNat d.toNat with h | h | h
  · rw [(partsBelow_encode h).compareLex_append, Nat.compare_eq_lt.mpr h, Ordering.lt_then]
  · obtain rfl := Char.toNat_inj.mp h
    rw [compareLex_append_left, Std.compare_self, Ordering.eq_then]
  · rw [compareLex_swap,
      (partsBelow_encode h).compareLex_append, Nat.compare_eq_gt.mpr h]
    rfl

theorem utf8EncodeChar_ne_nil (c : Char) : String.utf8EncodeChar c ≠ [] := by
  simp only [String.utf8EncodeChar]
  split_ifs <;> exact List.cons_ne_nil _ _

/-! ### Texts -/

/-- The Unicode scalar values of the characters of a text. -/
def scalars (s : String) : List Nat := s.toList.map Char.toNat

/-- The three-way comparison of two texts by their characters: the first one that differs decides,
and a text stands before its extensions. -/
def compareScalars (s t : String) : Ordering := (scalars s).compareLex Ord.compare (scalars t)

theorem bytes_eq_flatMap (s : String) : bytes s = s.toList.flatMap String.utf8EncodeChar := by
  rw [bytes, ← String.utf8Encode_toList, List.utf8Encode, List.toList_data_toByteArray]

/-- **Bytes and characters.** -/
theorem compareLex_bytes (s t : String) :
    (bytes s).compareLex Ord.compare (bytes t) = compareScalars s t := by
  rw [bytes_eq_flatMap, bytes_eq_flatMap, compareScalars, scalars, scalars]
  generalize s.toList = cs
  generalize t.toList = ds
  induction cs generalizing ds with
  | nil =>
    cases ds with
    | nil => rfl
    | cons d ds =>
      obtain ⟨b, l, hb⟩ := List.exists_cons_of_ne_nil (utf8EncodeChar_ne_nil d)
      rw [List.flatMap_cons, hb]
      rfl
  | cons c cs ih =>
    cases ds with
    | nil =>
      obtain ⟨b, l, hb⟩ := List.exists_cons_of_ne_nil (utf8EncodeChar_ne_nil c)
      rw [List.flatMap_cons, hb]
      rfl
    | cons d ds =>
      rw [List.flatMap_cons, List.flatMap_cons, compareLex_encode, ih, List.map_cons,
        List.map_cons, List.compareLex_cons_cons]

theorem compareLex_bytes_eq_lt :
    (bytes s).compareLex Ord.compare (bytes t) = .lt ↔ Before s t := by
  rw [Before]
  generalize bytes s = l
  generalize bytes t = m
  induction l generalizing m with
  | nil => cases m <;> simp [List.compareLex]
  | cons b l ih =>
    cases m with
    | nil => simp [List.compareLex]
    | cons c m =>
      rw [List.compareLex_cons_cons, Ordering.then_eq_lt, Std.compare_eq_lt, ih,
        List.cons_lt_cons_iff, Std.LawfulEqOrd.compare_eq_iff_eq]

theorem compare_eq_compareLex (s t : String) :
    compare s t = (bytes s).compareLex Ord.compare (bytes t) := by
  cases h : (bytes s).compareLex Ord.compare (bytes t) with
  | lt => exact compare_eq_lt.mpr (compareLex_bytes_eq_lt.mp h)
  | eq => exact compare_eq_eq.mpr (bytes_inj.mp (Std.LawfulEqCmp.eq_of_compare h))
  | gt =>
    rw [compareLex_swap, Ordering.swap_eq_gt] at h
    rw [← compare_swap, compare_eq_lt.mpr (compareLex_bytes_eq_lt.mp h)]
    rfl

theorem compare_eq_compareScalars (s t : String) : compare s t = compareScalars s t :=
  (compare_eq_compareLex s t).trans (compareLex_bytes s t)

theorem before_iff_compareScalars : Before s t ↔ compareScalars s t = .lt := by
  rw [← compare_eq_compareScalars, compare_eq_lt]

theorem compareScalars_swap (s t : String) : (compareScalars s t).swap = compareScalars t s := by
  rw [← compare_eq_compareScalars, ← compare_eq_compareScalars, compare_swap]

end Text

/-! ### Strings in a run -/

namespace Comp

variable (s t : String) (x : Store)

theorem request_less_str :
    (request (.less (.str s) (.str t))).Ends x (.ok (Text.compareScalars s t).isLT) x := by
  rw [ends_request, Request.ends_run rfl]
  refine ⟨x, ?_, rfl⟩
  have hless : (Value.str s).plainLess (.str t) = .ok (Text.compareScalars s t).isLT := by
    refine congrArg Except.ok (Bool.eq_iff_iff.mpr ?_)
    rw [decide_eq_true_iff, Text.before_iff_compareScalars, Ordering.isLT_iff_eq_lt]
  rw [less, hless]
  · exact ends_pure.mpr ⟨rfl, rfl⟩
  · intro a b h
    cases h

/-- A comparison the other way round, and not. -/
theorem not_less_str :
    (do return !(← request (.less (.str s) (.str t)))).Ends x
      (.ok (Text.compareScalars t s).isLE) x := by
  refine (request_less_str s t x).bind (ends_pure.mpr ⟨?_, rfl⟩)
  rw [← Text.compareScalars_swap t s]
  cases Text.compareScalars t s <;> rfl

end Comp

/-- **Texts are in the order of their characters.** To compare two strings by the bytes of their
UTF-8 forms is to compare them character by character. So the three-way comparison of operands that
come to two strings, and each of the four operators on them, answers by the first character that
differs, where a string stands before its extensions; and so the names of every set go up. -/
theorem text_order_by_character :
    (∀ s t : String, Text.compare s t = (Text.bytes s).compareLex Ord.compare (Text.bytes t) ∧
      Text.compare s t = Text.compareScalars s t) ∧
    (∀ (l r : Value) (s t : String) (x x' : Store),
      (Comp.forceBoth l r).Ends x (.ok (.str s, .str t)) x' →
      (Comp.threeWay l r).Ends x (.ok (Comp.ordinal (Text.compareScalars s t))) x' ∧
      (Comp.comparison .lt l r).Ends x (.ok (.bool (Text.compareScalars s t).isLT)) x' ∧
      (Comp.comparison .le l r).Ends x (.ok (.bool (Text.compareScalars s t).isLE)) x' ∧
      (Comp.comparison .gt l r).Ends x (.ok (.bool (Text.compareScalars s t).isGT)) x' ∧
      (Comp.comparison .ge l r).Ends x (.ok (.bool (Text.compareScalars s t).isGE)) x') ∧
    ∀ m : Attrs Value, m.keys.Pairwise fun j k => Text.compareScalars j k = .lt := by
  have hanswer : ∀ {x : Store} {b : Bool},
      (pure (.bool b) : Comp Value).Ends x (.ok (.bool b)) x := Comp.ends_pure.mpr ⟨rfl, rfl⟩
  refine ⟨fun s t => ⟨Text.compare_eq_compareLex s t, Text.compare_eq_compareScalars s t⟩,
    fun l r s t x x' h => ⟨?_, ?_, ?_, ?_, ?_⟩, fun m => ?_⟩
  · rw [← Text.compare_eq_compareScalars]
    exact h.bind (Comp.ends_pure.mpr ⟨rfl, rfl⟩)
  · exact h.bind ((Comp.request_less_str s t x').bind hanswer)
  · exact h.bind ((Comp.not_less_str t s x').bind hanswer)
  · have hless := Comp.request_less_str t s x'
    rw [← Text.compareScalars_swap, Ordering.isLT_swap] at hless
    exact h.bind (hless.bind hanswer)
  · have hless := Comp.not_less_str s t x'
    rw [← Text.compareScalars_swap, Ordering.isLE_swap] at hless
    exact h.bind (hless.bind hanswer)
  · exact (List.pairwise_map.mpr m.ascending).imp Text.before_iff_compareScalars.mp

/-- A store with a thunk of a text that has a character of four bytes. -/
def Store.wideText : Store :=
  { Store.initial with thunks := ⟨#[.unforced .empty (.lit (.str "a😀"))]⟩ }

/-- The greatest character of three bytes stands before the characters of four. -/
theorem text_order_by_character_wide : ∃ x',
    (Comp.forceBoth (.str "a\uffff") (.thunk ⟨0⟩)).Ends .wideText
      (.ok (.str "a\uffff", .str "a😀")) x' ∧
    (Comp.comparison .lt (.str "a\uffff") (.thunk ⟨0⟩)).Ends .wideText (.ok (.bool true)) x' ∧
    (Comp.threeWay (.str "a\uffff") (.thunk ⟨0⟩)).Ends .wideText (.ok (.int (-1))) x' := by
  have hforced : (Comp.forceBoth (.str "a\uffff") (.thunk ⟨0⟩)).Ends .wideText
    (.ok (.str "a\uffff", .str "a😀")) _ := ⟨4, rfl⟩
  have hlt : Text.compareScalars "a\uffff" "a😀" = .lt := by decide
  obtain ⟨hthree, hless, -⟩ := text_order_by_character.2.1 _ _ _ _ _ _ hforced
  rw [hlt] at hthree hless
  exact ⟨_, hforced, hless, hthree⟩

end NixKernel
