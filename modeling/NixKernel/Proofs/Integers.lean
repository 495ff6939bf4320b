import Mathlib.Algebra.Ring.Int.Defs
import Mathlib.Algebra.Ring.Nat
import NixKernel.Proofs.Outcome

/-!
Integer arithmetic. Sums, differences, products and negatives are those of the integers, taken back
into the range of 64 bits; a quotient is cut toward zero, and only the quotient of the least integer
by minus one does not fit. The remainder that a quotient leaves is the one of the integers even
there, since what wraps around differs by a multiple of 2^64.
-/

namespace NixKernel

/-! ### Quotients -/

section Quotients

variable (a b : Int64)

/-- The least integer has no negative, so its quotient by minus one is itself again. -/
theorem Int64.toInt_div_eq_ite : (a / b).toInt =
    if a.toInt = -2 ^ 63 ∧ b.toInt = -1 then -2 ^ 63 else a.toInt.tdiv b.toInt := by
  split
  · rename_i h
    obtain rfl : a = Int64.minValue := Int64.toInt_inj.mp h.1
    obtain rfl : b = -1 := Int64.toInt_inj.mp h.2
    rfl
  · rename_i h
    by_cases ha : a = Int64.minValue
    · refine Int64.toInt_div_of_ne_right a b fun hb => h ⟨?_, ?_⟩
      · rw [ha, Int64.toInt_minValue]
      · rw [hb]
        rfl
    · exact Int64.toInt_div_of_ne_left a b ha

/-- What a quotient leaves is the remainder of the integers. -/
theorem Int64.toInt_sub_div_mul : (a - a / b * b).toInt = a.toInt.tmod b.toInt := by
  have hexact : a.toInt - a.toInt.tdiv b.toInt * b.toInt = (a % b).toInt := by
    rw [Int64.toInt_mod, Int.tmod_def, Int.mul_comm]
  rw [Int64.toInt_sub, Int64.toInt_mul, Int64.toInt_div, Int.bmod_mul_bmod, Int.sub_bmod_bmod,
    hexact, ← Int64.toInt_mod]
  exact (a % b).toInt_bmod

/-- A remainder is less than the divisor and on the side of the dividend. -/
theorem tmod_small {m n : Int} (hn : n ≠ 0) :
    (m.tmod n).natAbs < n.natAbs ∧ (m.tmod n = 0 ∨ (m.tmod n).sign = m.sign) := by
  refine ⟨?_, ?_⟩
  · rw [Int.natAbs_tmod]
    exact Nat.mod_lt _ (Int.natAbs_pos.mpr hn)
  · rw [Int.sign_tmod]
    by_cases h : n ∣ m
    · exact .inl (Int.tmod_eq_zero_of_dvd h)
    · exact .inr (if_neg h)

end Quotients

/-! ### Operators on integers -/

namespace Comp

variable {l : Value} {a : Int64} {s s₁ : Store}

theorem ends_neg (hl : (force l).Ends s (.ok (.int a)) s₁) :
    (unary .sub l).Ends s (.ok (.int (-a))) s₁ :=
  hl.bind (ends_pure.mpr ⟨rfl, rfl⟩)

/-- Integers as they are come to themselves. -/
theorem ends_forceBoth_int (a b : Int64) (s : Store) :
    (forceBoth (.int a) (.int b)).Ends s (.ok (.int a, .int b)) s :=
  ends_forceBoth (ends_pure.mpr ⟨rfl, rfl⟩) (ends_pure.mpr ⟨rfl, rfl⟩)

end Comp

/-- **Integers near their limits.** Let two operands come to the integers `a` and `b`. Their sum,
difference and product and the negative of the first never fail; they are those of the integers,
reduced modulo 2^64 into the range from -2^63 on. The quotient fails if and only if `b` is zero, and
then because of that. Otherwise let `q` be the quotient, `p` the product of `q` and `b`, and `d` the
difference of `a` and `p`. Then the sum of `p` and `d` is `a`, and `d` is less than `b` in absolute
value and zero or of the sign of `a`. And `q` is the quotient of the integers, cut toward zero, save
that -2^63 divided by -1 is -2^63. -/
theorem integer_arithmetic {l r : Value} {a b : Int64} {s s₁ s₂ : Store}
    (hl : (Comp.force l).Ends s (.ok (.int a)) s₁)
    (hr : (Comp.force r).Ends s₁ (.ok (.int b)) s₂) :
    (∃ c : Int64, (Comp.binary .add l r).Ends s (.ok (.int c)) s₂ ∧
      c.toInt = (a.toInt + b.toInt).bmod (2 ^ 64)) ∧
    (∃ c : Int64, (Comp.binary .sub l r).Ends s (.ok (.int c)) s₂ ∧
      c.toInt = (a.toInt - b.toInt).bmod (2 ^ 64)) ∧
    (∃ c : Int64, (Comp.binary .mul l r).Ends s (.ok (.int c)) s₂ ∧
      c.toInt = (a.toInt * b.toInt).bmod (2 ^ 64)) ∧
    (∃ c : Int64, (Comp.unary .sub l).Ends s (.ok (.int c)) s₁ ∧
      c.toInt = (-a.toInt).bmod (2 ^ 64)) ∧
    (∀ e t, (Comp.binary .div l r).Ends s (.error e) t ↔
      b = 0 ∧ e = .eval .divByZero ∧ t = s₂) ∧
    (b ≠ 0 → ∃ q p d : Int64, (Comp.binary .div l r).Ends s (.ok (.int q)) s₂ ∧
      (∀ t, (Comp.binary .mul (.int q) (.int b)).Ends t (.ok (.int p)) t ∧
        (Comp.binary .sub (.int a) (.int p)).Ends t (.ok (.int d)) t ∧
        (Comp.binary .add (.int p) (.int d)).Ends t (.ok (.int a)) t) ∧
      d.toInt.natAbs < b.toInt.natAbs ∧ (d = 0 ∨ d.toInt.sign = a.toInt.sign) ∧
      q.toInt = if a.toInt = -2 ^ 63 ∧ b.toInt = -1 then -2 ^ 63
        else a.toInt.tdiv b.toInt) := by
  have hboth := Comp.ends_forceBoth hl hr
  refine ⟨⟨a + b, Comp.ends_onForced hboth rfl, Int64.toInt_add a b⟩,
    ⟨a - b, Comp.ends_onForced hboth rfl, Int64.toInt_sub a b⟩,
    ⟨a * b, Comp.ends_onForced hboth rfl, Int64.toInt_mul a b⟩,
    ⟨-a, Comp.ends_neg hl, Int64.toInt_neg a⟩, fun e t => ?_, fun hb => ?_⟩
  · by_cases hb : b = 0
    · have hfails : (Comp.binary .div l r).Ends s (.error (.eval .divByZero)) s₂ :=
        Comp.ends_onForced_error hboth (if_pos hb)
      constructor
      · intro h
        obtain ⟨he, ht⟩ := h.unique hfails
        exact ⟨hb, Except.error.inj he, ht⟩
      · rintro ⟨-, rfl, rfl⟩
        exact hfails
    · have hends : (Comp.binary .div l r).Ends s (.ok (.int (a / b))) s₂ :=
        Comp.ends_onForced hboth (if_neg hb)
      exact iff_of_false (fun h => nomatch (h.unique hends).1) fun h => hb h.1
  · have hdivisor : b.toInt ≠ 0 := fun h => hb (Int64.toInt_inj.mp h)
    -- the wrapped remainder is that of the integers, even where the quotient overflows
    have hremainder := Int64.toInt_sub_div_mul a b
    obtain ⟨hless, hside⟩ := tmod_small (m := a.toInt) hdivisor
    rw [← hremainder] at hless hside
    refine ⟨a / b, a / b * b, a - a / b * b, Comp.ends_onForced hboth (if_neg hb),
      fun t => ⟨?_, ?_, ?_⟩, hless, hside.imp_left fun h => Int64.toInt_inj.mp h,
      Int64.toInt_div_eq_ite a b⟩
    · exact Comp.ends_onForced (Comp.ends_forceBoth_int _ _ t) rfl
    · exact Comp.ends_onForced (Comp.ends_forceBoth_int _ _ t) rfl
    · have hsum : a / b * b + (a - a / b * b) = a := by rw [Int64.add_comm, Int64.sub_add_cancel]
      exact Comp.ends_onForced (Comp.ends_forceBoth_int _ _ t)
        (congrArg (fun c => Except.ok (Value.int c)) hsum)

/-- A store with a thunk of the least integer. -/
def Store.leastInteger : Store :=
  { Store.initial with thunks := ⟨#[.unforced .empty (.lit (.int .minValue))]⟩ }

/-- The sum of the least integer and minus one is the greatest, their quotient and the negative are
the least again, and the division leaves nothing. -/
theorem integer_arithmetic_least : ∃ s',
    (Comp.force (.thunk ⟨0⟩)).Ends .leastInteger (.ok (.int .minValue)) s' ∧
    (Comp.binary .add (.thunk ⟨0⟩) (.int (-1))).Ends .leastInteger (.ok (.int .maxValue)) s' ∧
    (Comp.unary .sub (.thunk ⟨0⟩)).Ends .leastInteger (.ok (.int .minValue)) s' ∧
    ∃ q p d : Int64,
      (Comp.binary .div (.thunk ⟨0⟩) (.int (-1))).Ends .leastInteger (.ok (.int q)) s' ∧
      (Comp.binary .mul (.int q) (.int (-1))).Ends s' (.ok (.int p)) s' ∧
      (Comp.binary .sub (.int .minValue) (.int p)).Ends s' (.ok (.int d)) s' ∧
      q = .minValue ∧ d = 0 := by
  have hforced : (Comp.force (.thunk ⟨0⟩)).Ends .leastInteger (.ok (.int .minValue)) _ := ⟨4, rfl⟩
  obtain ⟨⟨sum, hadd, hsum⟩, -, -, ⟨neg, hneg, hnegative⟩, -, hdiv⟩ :=
    integer_arithmetic (r := .int (-1)) (b := -1) hforced (Comp.ends_pure.mpr ⟨rfl, rfl⟩)
  obtain ⟨q, p, d, hq, hafter, hless, -, hquotient⟩ := hdiv (by decide)
  obtain rfl : sum = .maxValue := Int64.toInt_inj.mp hsum
  obtain rfl : neg = .minValue := Int64.toInt_inj.mp hnegative
  have hnone : d.toInt = 0 := Int.natAbs_eq_zero.mp (Nat.lt_one_iff.mp hless)
  exact ⟨_, hforced, hadd, hneg, q, p, d, hq, (hafter _).1, (hafter _).2.1,
    Int64.toInt_inj.mp hquotient, Int64.toInt_inj.mp hnone⟩

end NixKernel
