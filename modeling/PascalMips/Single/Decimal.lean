import PascalMips.Single.Round

/-!
# Decimal numbers and singles

`ofDecimal` rounds a decimal to the nearest single. `shortest` goes back: of the decimals that read
back as a given single it takes one with the fewest digits, of those the nearest to the value, and
of two that are equally near the larger.
-/

namespace PascalMips

/-- The number `digits * 10 ^ exponent`. -/
structure Decimal where
  digits : Nat
  exponent : Int
deriving DecidableEq

namespace Decimal

/-- `n` with `k` zeros written after its digits. -/
def shift (n k : Nat) : Nat := n * Nat.pow 10 k

/-- The number of decimal digits of `n`, one for zero. -/
def width (n : Nat) : Nat := (Nat.toDigits 10 n).length

/-- The single nearest to a decimal, with the given sign.

A decimal below `10 ^ -46` is less than half the smallest single and one from `10 ^ 39` on is beyond
the largest, so only exponents in between are computed with. -/
def toSingle (negative : Bool) (d : Decimal) : Single :=
  let top : Int := width d.digits + d.exponent
  if d.digits = 0 then Single.zero negative
  else if top ≤ -46 then Single.zero negative
  else if 40 ≤ top then Single.infinity negative
  else Single.ofRatio negative (shift d.digits d.exponent.toNat) (shift 1 (-d.exponent).toNat)

/-- The decimal equal to `m * 2 ^ e`. -/
def ofScaled (m : Nat) (e : Int) : Decimal :=
  if 0 ≤ e then ⟨m <<< e.toNat, 0⟩ else ⟨m * Nat.pow 5 (-e).toNat, e⟩

/-- The same number without trailing zeros; the fuel bounds how many are removed. -/
def strip : Nat → Decimal → Decimal
  | 0, d => d
  | fuel + 1, d =>
    if d.digits ≠ 0 ∧ d.digits % 10 = 0 then strip fuel ⟨d.digits / 10, d.exponent + 1⟩ else d

end Decimal

namespace Single

/-- Whether the decimal `d` rounds to the single of magnitude `x`. -/
def readsBack (x : Single) (d : Decimal) : Bool := d.toSingle false = ofMagnitude false x.magnitude

/-- The least `k` with `num / den < 10 ^ k` among the exponents that singles need. -/
def decimalOrder (num den : Nat) : Int :=
  let below (k : Int) : Bool := Decimal.shift num (-k).toNat < Decimal.shift den k.toNat
  (((List.range 85).map fun i : Nat => (i : Int) - 45).find? below).getD 39

/-- The best decimal for `x` of value `num / den` whose last digit stands at `10 ^ g`, if one of the
two neighbours of the value there reads back. -/
def onGrid (x : Single) (num den : Nat) (g : Int) : Option Decimal :=
  let num := Decimal.shift num (-g).toNat
  let den := Decimal.shift den g.toNat
  let low : Decimal := ⟨num / den, g⟩
  let high : Decimal := ⟨num / den + 1, g⟩
  let lowFits := x.readsBack low
  let highFits := x.readsBack high
  if lowFits && (!highFits || 2 * (num % den) < den) then some low
  else if highFits then some high
  else none

/-- The shortest decimal that reads back as the absolute value of a finite single. -/
def shortest (x : Single) : Decimal :=
  match x.view with
  | .finite _ m e =>
    if m = 0 then ⟨0, 0⟩
    else
      let num := m <<< e.toNat
      let den := 1 <<< (-e).toNat
      let order := decimalOrder num den
      let found := (List.range 9).findSome? fun i => x.onGrid num den (order - (i + 1 : Nat))
      (found.getD (Decimal.ofScaled m e)).strip 9
  | _ => ⟨0, 0⟩

end Single

end PascalMips
