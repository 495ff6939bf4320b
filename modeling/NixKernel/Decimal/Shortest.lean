/-!
The shortest decimal of a binary number. A binary number stands for every real that rounds to it;
of the decimals among those reals the ones with the fewest digits are taken, and of these the one
nearest to the number itself. All arithmetic is exact.
-/

namespace NixKernel.Decimal

/-- The number `mantissa · 2 ^ exponent`. The reals that round to it reach half way to its
neighbours; the neighbour below is at half the distance of the one above when `narrowBelow`. -/
structure Binary where
  mantissa : Nat
  exponent : Int
  narrowBelow : Bool

/-- The number `digits · 10 ^ exponent`. -/
structure Numeral where
  digits : Nat
  exponent : Int
  deriving DecidableEq

/-! ### A grid of decimals -/

/-- A binary number measured on the grid of the multiples of a power of ten: the number is `value`,
the reals that round to it go from `low` to `high`, and a step of the grid is `step`. -/
structure Scaled where
  value : Nat
  low : Nat
  high : Nat
  step : Nat
  /-- Whether the two ends still round to the number. -/
  closed : Bool

/-- The number on the grid of the multiples of `10 ^ k`, in quarters of its last binary place. -/
def Binary.onGrid (b : Binary) (k : Int) : Scaled :=
  let unit := Nat.pow 2 (b.exponent - 2).toNat * Nat.pow 10 (-k).toNat
  { value := 4 * b.mantissa * unit
    low := (4 * b.mantissa - if b.narrowBelow then 1 else 2) * unit
    high := (4 * b.mantissa + 2) * unit
    step := Nat.pow 2 (2 - b.exponent).toNat * Nat.pow 10 k.toNat
    closed := b.mantissa % 2 == 0 }

/-- The point `n` of the grid rounds to the number. -/
def Scaled.contains (x : Scaled) (n : Nat) : Bool :=
  if x.closed then x.low ≤ n * x.step && n * x.step ≤ x.high
  else x.low < n * x.step && n * x.step < x.high

/-- The nearer of the two points around the number, a tie going to the even one. -/
def Scaled.nearest (x : Scaled) : Nat :=
  let n := x.value / x.step
  let below := x.value - n * x.step
  let above := (n + 1) * x.step - x.value
  if below < above then n
  else if above < below then n + 1
  else if n % 2 == 0 then n else n + 1

/-- The point of the grid to write for the number, if one of the two points around it rounds
to it. -/
def Scaled.pick? (x : Scaled) : Option Nat :=
  let n := x.value / x.step
  match x.contains n, x.contains (n + 1) with
  | true, true => some x.nearest
  | true, false => some n
  | false, true => some (n + 1)
  | false, false => none

/-! ### The fewest digits -/

/-- How many decimal digits a positive number has. -/
def digitCount (n : Nat) : Nat := (Nat.toDigits 10 n).length

/-- The exponent of the leading digit: the greatest `k` with `10 ^ k` at most the number. -/
def Binary.magnitude (b : Binary) : Int :=
  let x := b.onGrid 0
  let k : Int := digitCount x.value - digitCount x.step
  if x.step * Nat.pow 10 k.toNat ≤ x.value * Nat.pow 10 (-k).toNat then k else k - 1

/-- Drops the zeros at the end of the digits, at most `fuel` of them. -/
def Numeral.strip : Nat → Numeral → Numeral
  | 0, d => d
  | fuel + 1, d =>
    if d.digits ≠ 0 ∧ d.digits % 10 = 0 then
      Numeral.strip fuel ⟨d.digits / 10, d.exponent + 1⟩
    else d

/-- The shortest decimal that rounds to a positive number, among those of up to `places` digits;
the nearest one of `places` digits if there is none. -/
def Binary.shortest (b : Binary) (places : Nat) : Numeral :=
  let top := b.magnitude
  let found := (List.range places).findSome? fun (n : Nat) =>
    ((b.onGrid (top - n)).pick?).map fun d => Numeral.mk d (top - n)
  let d := found.getD ⟨(b.onGrid (top + 1 - places)).nearest, top + 1 - places⟩
  d.strip (digitCount d.digits)

end NixKernel.Decimal
