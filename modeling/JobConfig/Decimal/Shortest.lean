import JobConfig.Decimal.Binary64

/-!
# Shortest decimals

The decimal of a number is the one with the fewest digits that reads back as that number; of those
with equally few digits it is the nearest one.
-/

namespace JobConfig

/-- The number `digits * 10 ^ exponent`. -/
structure Decimal where
  digits : Nat
  exponent : Int
deriving DecidableEq

namespace Decimal

/-- The same number without trailing zeros. -/
def trim : Nat → Decimal → Decimal
  | 0, d => d
  | fuel + 1, d =>
    if d.digits % 10 = 0 ∧ d.digits ≠ 0 then trim fuel ⟨d.digits / 10, d.exponent + 1⟩ else d

/-- The numbers that read as one binary number: from `low` to `high` around `mid`, in units of
`1 / den`; the ends belong to them if `closed`. -/
structure Interval where
  low : Nat
  mid : Nat
  high : Nat
  den : Nat
  closed : Bool

/-- The numbers that read as `significand * 2 ^ exponent`, counted in quarters of its unit. -/
def Interval.around (significand : Nat) (exponent : Int) : Interval :=
  let below := if significand = Nat.pow 2 52 ∧ exponent ≠ Binary64.minExponent then 1 else 2
  let unit := exponent - 2
  let scale := Nat.pow 2 unit.toNat
  { low := (4 * significand - below) * scale
    mid := 4 * significand * scale
    high := (4 * significand + 2) * scale
    den := Nat.pow 2 (-unit).toNat
    closed := significand % 2 = 0 }

/-- `a * 10 ^ e`, as a fraction of `den`. -/
def scaled (a : Nat) (e : Int) (den : Nat) : Nat × Nat :=
  (a * Nat.pow 10 e.toNat * den, Nat.pow 10 (-e).toNat)

/-- Whether a decimal reads as the number in the middle. -/
def Interval.holds (i : Interval) (d : Decimal) : Bool :=
  let (a, b) := scaled d.digits d.exponent i.den
  (i.low * b < a && a < i.high * b) || (i.closed && (a == i.low * b || a == i.high * b))

/-- How many digits stand before the point, or minus the zeros right after it. -/
def Interval.magnitude (i : Interval) : Int :=
  if i.den ≤ i.mid then (Nat.toDigits 10 (i.mid / i.den)).length
  else -(((List.range 400).takeWhile fun j => i.mid * Nat.pow 10 (j + 1) < i.den).length : Int)

/-- The better of the two decimals with `count` digits next to the middle, if one reads back. -/
def Interval.nearest? (i : Interval) (count : Nat) : Option Decimal :=
  let e := i.magnitude - count
  let (num, den) := (i.mid * Nat.pow 10 (-e).toNat, i.den * Nat.pow 10 e.toNat)
  let down : Decimal := ⟨num / den, e⟩
  let up : Decimal := ⟨num / den + 1, e⟩
  let twice := 2 * (num % den)
  let preferDown := twice < den || (twice == den && down.digits % 2 == 0)
  match i.holds down, i.holds up with
  | true, true => some (if preferDown then down else up)
  | true, false => some down
  | false, true => some up
  | false, false => none

/-- The shortest decimal of `significand * 2 ^ exponent`, which is not zero. -/
def shortest (significand : Nat) (exponent : Int) : Decimal :=
  let i := Interval.around significand exponent
  match (List.range 17).findSome? fun n => i.nearest? (n + 1) with
  | some d => d.trim 20
  | none => ⟨significand, exponent⟩

/-- The digits of a decimal. -/
def digitChars (d : Decimal) : List Char :=
  Nat.toDigits 10 d.digits

/-- How many digits stand before the point. -/
def pointAt (d : Decimal) : Int :=
  d.exponent + d.digitChars.length

/-- The decimal without an exponent; whole numbers have no point. -/
def positional (d : Decimal) : List Char :=
  let ds := d.digitChars
  if 0 ≤ d.exponent then ds ++ List.replicate d.exponent.toNat '0'
  else if 0 < d.pointAt then
    ds.take d.pointAt.toNat ++ '.' :: ds.drop d.pointAt.toNat
  else '0' :: '.' :: List.replicate (-d.pointAt).toNat '0' ++ ds

/-- The decimal as one digit before the point and an exponent. -/
def scientific (d : Decimal) : List Char :=
  let mantissa := match d.digitChars with
    | [] => []
    | [c] => [c]
    | c :: cs => c :: '.' :: cs
  mantissa ++ 'e' :: (toString (d.pointAt - 1)).toList

example : shortest 1 (-1074) = ⟨5, -324⟩ := by decide +kernel

example : shortest 7205759403792794 (-56) = ⟨1, -1⟩ := by decide +kernel

example : positional ⟨1234, -6⟩ = "0.001234".toList := by decide +kernel

example : scientific ⟨1234, 30⟩ = "1.234e33".toList := by decide +kernel

end Decimal

end JobConfig
