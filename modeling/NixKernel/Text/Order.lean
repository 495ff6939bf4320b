/-!
The order of texts. Strings and attribute names are ordered by the bytes of their UTF-8 form,
the first byte that differs deciding and a text standing before its extensions.
-/

namespace NixKernel.Text

/-- The bytes of the UTF-8 form of a text. -/
def bytes (s : String) : List UInt8 := s.toByteArray.data.toList

theorem bytes_inj {s t : String} : bytes s = bytes t ↔ s = t := by
  constructor
  · intro h
    have hd : s.toByteArray = t.toByteArray := ByteArray.ext (Array.toList_inj.mp h)
    exact String.toByteArray_inj.mp hd
  · rintro rfl
    rfl

/-- One text stands before another. -/
def Before (s t : String) : Prop := bytes s < bytes t

instance (s t : String) : Decidable (Before s t) :=
  inferInstanceAs (Decidable (bytes s < bytes t))

theorem Before.irrefl (s : String) : ¬ Before s s := List.lt_irrefl (bytes s)

theorem Before.trans {s t u : String} (h₁ : Before s t) (h₂ : Before t u) : Before s u :=
  List.lt_trans h₁ h₂

theorem Before.asymm {s t : String} (h : Before s t) : ¬ Before t s := List.lt_asymm h

theorem Before.ne {s t : String} (h : Before s t) : s ≠ t := by
  rintro rfl
  exact Before.irrefl s h

/-- Of two different texts one stands before the other. -/
theorem before_or_before {s t : String} (h : s ≠ t) : Before s t ∨ Before t s := by
  by_cases h₁ : Before s t
  · exact Or.inl h₁
  · by_cases h₂ : Before t s
    · exact Or.inr h₂
    · exact absurd (bytes_inj.mp (List.le_antisymm (List.not_lt.mp h₂) (List.not_lt.mp h₁))) h

/-- The three-way comparison of two texts. -/
def compare (s t : String) : Ordering :=
  if Before s t then .lt else if s = t then .eq else .gt

theorem compare_eq_lt {s t : String} : compare s t = .lt ↔ Before s t := by
  unfold compare
  by_cases h : Before s t
  · simp [h]
  · by_cases e : s = t <;> simp [h, e]

theorem compare_eq_eq {s t : String} : compare s t = .eq ↔ s = t := by
  unfold compare
  by_cases h : Before s t
  · simp [h, h.ne]
  · rw [if_neg h]
    by_cases e : s = t <;> simp [e]

end NixKernel.Text
