import NixKernel.Proofs.Literal

/-!
The inside of a literal. Read from the left, it is made of escapes and of characters that stand for
themselves: a quote, or a dollar with a brace after it, stands only in an escape, and line breaks
and tabs do not stand in it at all. So undoing the escapes gives the text back, and two names are
printed alike only if they are the same.
-/

namespace NixKernel

namespace Text

/-! ### Escaped characters -/

/-- A character is escaped if it stands right after a backslash that is not escaped itself. -/
def isEscaped (cs : List Char) : Nat → Bool
  | 0 => false
  | i + 1 => cs[i]? == some '\\' && !isEscaped cs i

variable {c : Char} {cs : List Char}

/-- After a character that is no backslash escapes are counted afresh. -/
theorem isEscaped_cons (hc : c ≠ '\\') (cs : List Char) (i : Nat) :
    isEscaped (c :: cs) (i + 1) = isEscaped cs i := by
  induction i with
  | zero => simp [isEscaped, hc]
  | succ i ih => rw [isEscaped, ih, List.getElem?_cons_succ, isEscaped]

/-- After an escape they are counted afresh too. -/
theorem isEscaped_escape (c : Char) (cs : List Char) (i : Nat) :
    isEscaped ('\\' :: c :: cs) (i + 2) = isEscaped cs i := by
  induction i with
  | zero => simp [isEscaped]
  | succ i ih => rw [isEscaped, ih, List.getElem?_cons_succ, List.getElem?_cons_succ, isEscaped]

/-! ### The inside of a literal -/

/-- What may stand between the quotes: every quote is escaped, and so is every dollar with a brace
after it; no line break and no tab is there as it is; and the quote that follows is not escaped. -/
structure Inside (cs : List Char) : Prop where
  quote : ∀ i, cs[i]? = some '"' → isEscaped cs i = true
  dollar : ∀ i, cs[i]? = some '$' → cs[i + 1]? = some '{' → isEscaped cs i = true
  raw : ∀ c ∈ cs, c ∉ ['\n', '\r', '\t']
  closed : isEscaped cs cs.length = false

namespace Inside

theorem nil : Inside [] where
  quote := by simp
  dollar := by simp
  raw := by simp
  closed := rfl

/-- An escape before the inside of a literal. -/
theorem escape (hc : c ∉ ['\n', '\r', '\t']) (h : Inside cs) : Inside ('\\' :: c :: cs) where
  quote i hi := by
    match i with
    | 0 => simp at hi
    | 1 => rfl
    | i + 2 => exact (isEscaped_escape c cs i).trans (h.quote i hi)
  dollar i hi hi' := by
    match i with
    | 0 => simp at hi
    | 1 => rfl
    | i + 2 => exact (isEscaped_escape c cs i).trans (h.dollar i hi hi')
  raw := List.forall_mem_cons.mpr ⟨by decide, List.forall_mem_cons.mpr ⟨hc, h.raw⟩⟩
  closed := (isEscaped_escape c cs cs.length).trans h.closed

/-- A character that needs no escape before the inside of a literal. -/
theorem bare (hc : c ∉ ['"', '\\', '\n', '\r', '\t']) (hd : c = '$' → cs.head? ≠ some '{')
    (h : Inside cs) : Inside (c :: cs) := by
  have hquote : c ≠ '"' := fun he => hc (by simp [he])
  have hback : c ≠ '\\' := fun he => hc (by simp [he])
  have hraw : c ∉ ['\n', '\r', '\t'] := fun hm =>
    hc (List.mem_cons_of_mem _ (List.mem_cons_of_mem _ hm))
  constructor
  case quote =>
    intro i hi
    match i with
    | 0 => exact absurd (Option.some.inj hi) hquote
    | i + 1 => exact (isEscaped_cons hback cs i).trans (h.quote i hi)
  case dollar =>
    intro i hi hi'
    match i with
    | 0 =>
      rw [List.getElem?_cons_succ, ← List.head?_eq_getElem?] at hi'
      exact absurd hi' (hd (Option.some.inj hi))
    | i + 1 => exact (isEscaped_cons hback cs i).trans (h.dollar i hi hi')
  case raw => exact List.forall_mem_cons.mpr ⟨hraw, h.raw⟩
  case closed => exact (isEscaped_cons hback cs cs.length).trans h.closed

end Inside

/-- Only a brace is written as a brace at the start. -/
theorem head?_escape (h : (escape cs).head? = some '{') : ∃ ds, cs = '{' :: ds := by
  induction cs using escape.induct with
  | case1 => cases h
  | case2 | case3 | case4 | case5 | case6 | case7 => simp [escape] at h
  | case8 c cs h₁ h₂ h₃ h₄ h₅ h₆ =>
    rw [escape] at h <;> try assumption
    exact ⟨cs, by simpa using h⟩

/-- **What is written between the quotes may stand there.** -/
theorem inside_escape (cs : List Char) : Inside (escape cs) := by
  -- a dollar is written as it is only if no brace follows it, and then none follows what is written
  induction cs using escape.induct with
  | case1 => exact .nil
  | case2 cs ih | case3 cs ih | case4 cs ih | case5 cs ih | case6 cs ih =>
    rw [escape]
    exact ih.escape (by decide)
  | case7 cs ih =>
    have hbrace : Inside ('{' :: escape cs) := ih.bare (by decide) (fun h => absurd h (by decide))
    rw [escape]
    exact hbrace.escape (by decide)
  | case8 c cs h₁ h₂ h₃ h₄ h₅ h₆ ih =>
    have hc : c ∉ ['"', '\\', '\n', '\r', '\t'] := by simpa using ⟨h₁, h₂, h₃, h₄, h₅⟩
    have hd : c = '$' → (escape cs).head? ≠ some '{' := by
      intro hc hhead
      obtain ⟨ds, hds⟩ := head?_escape hhead
      exact h₆ ds hc hds
    rw [escape] <;> try assumption
    exact ih.bare hc hd

/-! ### Names -/

theorem attrName_inj {j k : String} : attrName j = attrName k ↔ j = k := by
  refine ⟨fun h => ?_, fun h => h ▸ rfl⟩
  have hnil : Stops isIdentRest [] := nofun
  exact (attrName_unique hnil hnil (by rw [h])).1

end Text

open Text

/-- **Literals decode back.** The literal of a text starts and ends with a quote; what is between
them may stand there, and undoing the escapes from the left gives the text. A name is printed as it
is if it is an identifier, and else as its literal; and names that are printed alike are the same.
-/
theorem literals_decode :
    (∀ s : String, ∃ inside, (quote s).toList = '"' :: (inside ++ ['"']) ∧ Inside inside ∧
      unescape inside = s.toList) ∧
    (∀ name : String,
      (attrName name = name ∧ ∃ c cs, name.toList = c :: cs ∧ isIdentStart c = true ∧
        ∀ d ∈ cs, isIdentRest d = true) ∨
      attrName name = quote name) ∧
    ∀ j k : String, attrName j = attrName k ↔ j = k := by
  refine ⟨fun s => ?_, fun name => ?_, fun j k => attrName_inj⟩
  · exact ⟨escape s.toList, toList_quote s, inside_escape _, unescape_escape _⟩
  · cases hname : isIdent name with
    | true =>
      obtain ⟨c, cs, hchars, hstart, hrest⟩ := isIdent_chars hname
      have hbare : attrName name = name := by simp [attrName, hname]
      exact .inl ⟨hbare, c, cs, hchars, hstart, (List.forall_mem_cons.mp hrest).2⟩
    | false => exact .inr (by simp [attrName, hname])

/-- Two dollars before a brace, a backslash before a dollar, and a dollar at the end. -/
theorem literals_decode_dollars : ∃ inside,
    (quote "$$\x7b\\$\x7b\"\n$").toList = '"' :: (inside ++ ['"']) ∧ Inside inside ∧
      unescape inside = "$$\x7b\\$\x7b\"\n$".toList ∧
      attrName "x-y'" = "x-y'" ∧ attrName "1x" = "\"1x\"" := by
  obtain ⟨inside, hquote, hinside, hdecode⟩ := literals_decode.1 "$$\x7b\\$\x7b\"\n$"
  exact ⟨inside, hquote, hinside, hdecode, by decide, by decide⟩

end NixKernel
