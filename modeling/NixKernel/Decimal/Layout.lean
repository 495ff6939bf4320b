import NixKernel.Decimal.Shortest

/-!
The text of a floating point number: which digits it has is settled by the shortest decimal, how
they are laid out by one record.
-/

namespace NixKernel.Decimal

/-! ### The parts of a double -/

/-- What the 64 bits of a floating point number stand for. -/
inductive Double where
  | nan
  | infinity (negative : Bool)
  | zero (negative : Bool)
  | finite (negative : Bool) (magnitude : Binary)

/-- Reads sign, exponent and fraction off the bits. -/
def Double.ofBits (bits : UInt64) : Double :=
  let n := bits.toNat
  let place := Nat.pow 2 52
  let negative := n / Nat.pow 2 63 == 1
  let biased := n / place % 2048
  let fraction := n % place
  if biased = 2047 then
    if fraction = 0 then .infinity negative else .nan
  else if biased = 0 then
    if fraction = 0 then .zero negative else .finite negative ⟨fraction, -1074, false⟩
  else
    .finite negative ⟨place + fraction, (biased : Int) - 1075, fraction == 0 && biased ≠ 1⟩

/-! ### Layout -/

/-- How a number is written. -/
structure Layout where
  /-- The exponents of the leading digit that are written positionally go from here ... -/
  leastPositional : Int
  /-- ... to below here. -/
  endPositional : Int
  /-- The exponent of the scientific form has a sign and at least so many digits. -/
  exponentWidth : Nat

/-- Numbers from `0.0001` to below a million are written positionally, the others with an
exponent of two digits or more. -/
def Layout.general : Layout := ⟨-4, 6, 2⟩

/-- Puts zeros before a text up to a width. -/
def padded (width : Nat) (s : String) : String :=
  String.ofList (List.replicate (width - s.length) '0') ++ s

/-- The digits with the leading one alone before the point, and the exponent. -/
def Layout.scientific (l : Layout) (digits : List Char) (exponent : Int) : String :=
  let fraction := digits.drop 1
  let point := if fraction.isEmpty then "" else "."
  let sign := if exponent < 0 then "-" else "+"
  String.ofList (digits.take 1) ++ point ++ String.ofList fraction ++ "e" ++ sign ++
    padded l.exponentWidth (Nat.repr exponent.natAbs)

/-- The digits around the point, or with zeros to reach it. -/
def positional (digits : List Char) (exponent : Int) : String :=
  if exponent < 0 then
    "0." ++ String.ofList (List.replicate (exponent.natAbs - 1) '0') ++ String.ofList digits
  else
    let whole := exponent.toNat + 1
    let fraction := digits.drop whole
    let point := if fraction.isEmpty then "" else "."
    String.ofList (digits.take whole) ++
      String.ofList (List.replicate (whole - digits.length) '0') ++ point ++
      String.ofList fraction

/-- The text of a positive decimal. -/
def Layout.write (l : Layout) (d : Numeral) : String :=
  let digits := Nat.toDigits 10 d.digits
  let exponent := d.exponent + (digits.length - 1 : Nat)
  if exponent < l.leastPositional ∨ l.endPositional ≤ exponent then l.scientific digits exponent
  else positional digits exponent

/-- The text of a floating point number given by its bits: the shortest decimal of at most 17
digits that reads back to it. -/
def Layout.writeDouble (l : Layout) (bits : UInt64) : String :=
  match Double.ofBits bits with
  | .nan => "NaN"
  | .infinity negative => if negative then "-Inf" else "+Inf"
  | .zero negative => if negative then "-0" else "0"
  | .finite negative b => (if negative then "-" else "") ++ l.write (b.shortest 17)

/-! ### Where the forms change -/

example : Layout.general.write ⟨9999995, -1⟩ = "999999.5" := by decide +kernel
example : Layout.general.write ⟨1, 6⟩ = "1e+06" := by decide +kernel
example : Layout.general.write ⟨1, -4⟩ = "0.0001" := by decide +kernel
example : Layout.general.write ⟨12, -6⟩ = "1.2e-05" := by decide +kernel
example : Layout.general.writeDouble 0x8000000000000000 = "-0" := by decide +kernel
example : Layout.general.writeDouble 0x3fb999999999999a = "0.1" := by decide +kernel
example : Layout.general.writeDouble 1 = "5e-324" := by decide +kernel

end NixKernel.Decimal
