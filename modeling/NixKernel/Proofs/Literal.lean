import NixKernel.Text.Literal

/-!
Reading back. A literal ends at the first quote that is not escaped, a bare name before the first
character that cannot be in one and a number after its digits: so each of them can be told from
whatever follows it.
-/

namespace NixKernel.Text

/-! ### Words -/

section Words

variable {p : Char → Bool} {w w' r r' : List Char}

/-- A text that is empty or starts with a character that is in no word. -/
def Stops (p : Char → Bool) (r : List Char) : Prop := ∀ c ∈ r.head?, p c = false

theorem Stops.cons {c : Char} (hc : p c = false) (r : List Char) : Stops p (c :: r) := by
  rintro d hd
  cases hd
  exact hc

theorem takeWhile_word (hw : ∀ c ∈ w, p c = true) (hr : Stops p r) : (w ++ r).takeWhile p = w := by
  rw [List.takeWhile_append_of_pos hw]
  cases r with
  | nil => simp
  | cons c r => simp [hr c rfl]

/-- Where a word ends can be seen. -/
theorem word_unique (hw : ∀ c ∈ w, p c = true) (hw' : ∀ c ∈ w', p c = true) (hr : Stops p r)
    (hr' : Stops p r') (h : w ++ r = w' ++ r') : w = w' ∧ r = r' := by
  have hword : w = w' := by rw [← takeWhile_word hw hr, h, takeWhile_word hw' hr']
  exact ⟨hword, List.append_cancel_left (hword ▸ h)⟩

end Words

/-! ### Literals -/

/-- Reads a literal after its opening quote: the text that it stands for and what follows it. -/
def readLiteral : List Char → List Char × List Char
  | [] => ([], [])
  | '"' :: cs => ([], cs)
  | '\\' :: c :: cs => (unescapeChar c :: (readLiteral cs).1, (readLiteral cs).2)
  | c :: cs => (c :: (readLiteral cs).1, (readLiteral cs).2)

theorem readLiteral_cons {c : Char} (hquote : c ≠ '"') (hback : c ≠ '\\') (cs : List Char) :
    readLiteral (c :: cs) = (c :: (readLiteral cs).1, (readLiteral cs).2) := by
  cases cs <;> simp [readLiteral, hback]

/-- The inside of a literal is read back up to the closing quote. -/
theorem readLiteral_escape (cs r : List Char) : readLiteral (escape cs ++ '"' :: r) = (cs, r) := by
  induction cs using escape.induct with
  | case1 => rfl
  | case2 cs ih | case3 cs ih | case4 cs ih | case5 cs ih | case6 cs ih =>
    simp [escape, readLiteral, unescapeChar, ih]
  | case7 cs ih =>
    simp only [escape, List.cons_append, readLiteral]
    rw [readLiteral_cons (by decide) (by decide), ih]
    rfl
  | case8 c cs h₁ h₂ h₃ h₄ h₅ h₆ ih =>
    rw [escape, List.cons_append, readLiteral_cons h₁ h₂, ih] <;> assumption

theorem toList_quote (s : String) : (quote s).toList = '"' :: (escape s.toList ++ ['"']) := by
  simp [quote]

/-- Where a literal ends can be seen, and what it stands for. -/
theorem quote_unique {s t : String} {r r' : List Char}
    (h : (quote s).toList ++ r = (quote t).toList ++ r') : s = t ∧ r = r' := by
  simp only [toList_quote, List.cons_append, List.append_assoc, List.nil_append, List.cons.injEq,
    true_and] at h
  have hread := readLiteral_escape s.toList r
  rw [h, readLiteral_escape, Prod.mk.injEq, String.toList_inj] at hread
  exact ⟨hread.1.symm, hread.2.symm⟩

/-! ### Names -/

theorem isIdent_chars {name : String} (h : isIdent name = true) :
    ∃ c cs, name.toList = c :: cs ∧ isIdentStart c = true ∧
      ∀ d ∈ c :: cs, isIdentRest d = true := by
  unfold isIdent at h
  split at h
  · cases h
  · rename_i c cs hname
    obtain ⟨hstart, hrest⟩ := Bool.and_eq_true_iff.mp h
    refine ⟨c, cs, hname, hstart, List.forall_mem_cons.mpr ⟨?_, List.all_eq_true.mp hrest⟩⟩
    simp [isIdentRest, hstart]

/-- A printed name starts with a character of its own sort: a quote only if it is not bare. -/
theorem attrName_head (name : String) : ∃ c cs, (attrName name).toList = c :: cs ∧
    (if isIdent name then isIdentStart c = true else c = '"') := by
  unfold attrName
  split
  · rename_i h
    obtain ⟨c, cs, hname, hstart, -⟩ := isIdent_chars h
    exact ⟨c, cs, hname, by simpa [h] using hstart⟩
  · rename_i h
    exact ⟨'"', _, toList_quote name, by simp⟩

theorem attrName_ne_brace (name : String) (r r' : List Char) :
    (attrName name).toList ++ r ≠ '}' :: r' := by
  obtain ⟨c, cs, hname, hc⟩ := attrName_head name
  rw [hname]
  rintro ⟨⟩
  split at hc
  · exact absurd hc (by decide)
  · exact absurd hc (by decide)

/-- Where a printed name ends can be seen, and which name it is. -/
theorem attrName_unique {j k : String} {r r' : List Char} (hr : Stops isIdentRest r)
    (hr' : Stops isIdentRest r') (h : (attrName j).toList ++ r = (attrName k).toList ++ r') :
    j = k ∧ r = r' := by
  have hsame : isIdent j = isIdent k := by
    obtain ⟨c, cs, hj, hc⟩ := attrName_head j
    obtain ⟨d, ds, hk, hd⟩ := attrName_head k
    obtain rfl : c = d := by simpa [hj, hk] using congrArg List.head? h
    have hquote : isIdentStart '"' = false := by decide
    cases hj' : isIdent j <;> cases hk' : isIdent k <;> simp_all
  cases hj : isIdent j with
  | true =>
    have hk : isIdent k = true := hsame ▸ hj
    obtain ⟨_, _, hjs, -, hjrest⟩ := isIdent_chars hj
    obtain ⟨_, _, hks, -, hkrest⟩ := isIdent_chars hk
    rw [attrName, attrName, if_pos hj, if_pos hk] at h
    obtain ⟨hname, hrest⟩ := word_unique (hjs ▸ hjrest) (hks ▸ hkrest) hr hr' h
    exact ⟨String.toList_inj.mp hname, hrest⟩
  | false =>
    have hk : isIdent k = false := hsame ▸ hj
    rw [attrName, attrName, hj, hk] at h
    exact quote_unique h

/-! ### Numbers -/

theorem digit_chars {c : Char} (h : c.isDigit = true) :
    isIdentRest c = true ∧ isIdentStart c = false := by
  have hrange : '0' ≤ c ∧ c ≤ '9' := by simpa [Char.isDigit, Char.le_def] using h
  have hbelow : ∀ d : Char, ¬ d ≤ '9' → ¬ d ≤ c := fun d hd hdc => hd (Char.le_trans hdc hrange.2)
  refine ⟨by simp [isIdentRest, hrange], ?_⟩
  have hne : c ≠ '_' := by
    rintro rfl
    exact absurd hrange (by decide)
  simp [isIdentStart, hne, hbelow 'a' (by decide), hbelow 'A' (by decide)]

/-- The characters of a number can all be inside a bare name, but not at its start. -/
theorem repr_chars {n : Int} {c : Char} (hc : c ∈ n.repr.toList) :
    isIdentRest c = true ∧ isIdentStart c = false := by
  have hdigit : ∀ k : Nat, c ∈ k.repr.toList → isIdentRest c = true ∧ isIdentStart c = false := by
    intro k hk
    rw [Nat.toList_repr] at hk
    exact digit_chars (Nat.isDigit_of_mem_toDigits (by decide) (by decide) hk)
  rw [Int.repr_eq_if] at hc
  split at hc
  · exact hdigit _ hc
  · rw [String.toList_append, List.mem_append] at hc
    rcases hc with hc | hc
    · obtain rfl : c = '-' := List.mem_singleton.mp hc
      decide
    · exact hdigit _ hc

theorem repr_toList_ne_nil (n : Int) : n.repr.toList ≠ [] := by
  rw [Int.repr_eq_if]
  split <;> simp

end NixKernel.Text
