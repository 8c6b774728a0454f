import PascalMips.Single.Basic

/-!
# Rounding to single precision

Every single that is not copied is the rounding of an exact value: `ofRatio` takes a fraction of
natural numbers to the nearest single, a value half-way between two of them to the one with an even
mantissa. Values too large become infinite, values too small lose digits and at last become zero.
-/

namespace PascalMips.Single

/-- The integer nearest to `num / den`; a half goes to the even neighbour. -/
def roundHalfEven (num den : Nat) : Nat :=
  let low := num / den
  let rem := num % den
  if 2 * rem < den ∨ (2 * rem = den ∧ low % 2 = 0) then low else low + 1

/-- `a * 2 ^ e ≤ b`, for an exponent of either sign. -/
def scaledLE (a b : Nat) (e : Int) : Bool := a <<< e.toNat ≤ b <<< (-e).toNat

/-- The largest `e` with `2 ^ e ≤ num / den`, for a positive fraction. -/
def floorLog2 (num den : Nat) : Int :=
  let e : Int := (num.log2 : Int) - den.log2
  if scaledLE den num e then e else e - 1

/-- The exponent of the last place of a single near the positive fraction `num / den`. -/
def lastPlace (num den : Nat) : Int := max minExponent (floorLog2 num den - 23)

/-- The single nearest to `num / den`, with the given sign.

With `e` the last place and `q` the nearest multiple of `2 ^ e`, counted in units of it, the
magnitude bits are `(e + 149) * 2 ^ 23 + q`: in each binade the leading bit of `q` adds one to the
exponent field, below the normal range `e` is `-149` and the field stays zero, and a carry out of
`q` moves to the next binade by itself. -/
def ofRatio (negative : Bool) (num den : Nat) : Single :=
  if num = 0 then zero negative
  else
    let e := lastPlace num den
    let q := roundHalfEven (num <<< (-e).toNat) (den <<< e.toNat)
    ofMagnitude negative (min ((e - minExponent).toNat * exponentUnit + q) infinityBits)

/-- The single nearest to `m * 2 ^ e`, with the given sign. -/
def ofScaled (negative : Bool) (m : Nat) (e : Int) : Single :=
  ofRatio negative (m <<< e.toNat) (1 <<< (-e).toNat)

/-- The single nearest to an integer. -/
def ofInt (i : Int) : Single := ofRatio (i < 0) i.natAbs 1

end PascalMips.Single
