/-!
# Single precision numbers

A single is a word of the IEEE 754 interchange format of width 32: a sign bit, eight bits of
exponent and twenty-three of fraction. `view` reads a word as a not-a-number, an infinity or a
signed `m · 2 ^ e`; comparisons follow the numeric order, in which both zeros are equal and a
not-a-number stands outside.
-/

namespace PascalMips

/-- A single precision number, held as its 32 bits. -/
structure Single where
  bits : BitVec 32
deriving DecidableEq

namespace Single

/-- What the bits of a single stand for. The value of `finite s m e` is `m * 2 ^ e`, negated if
`s`. -/
inductive View where
  | nan
  | infinite (negative : Bool)
  | finite (negative : Bool) (mantissa : Nat) (exponent : Int)
deriving DecidableEq

/-- The sign bit. -/
def signBit : Nat := 0x80000000

/-- The step between exponents: one in the last place of the exponent field. -/
def exponentUnit : Nat := 0x800000

/-- The magnitude bits of infinity; larger ones are not numbers. -/
def infinityBits : Nat := 0x7f800000

/-- The exponent of the last place of the smallest singles. -/
def minExponent : Int := -149

/-- Whether the sign bit is set. -/
def negative (x : Single) : Bool := signBit ≤ x.bits.toNat

/-- All bits but the sign. Ordered as the absolute values are. -/
def magnitude (x : Single) : Nat := x.bits.toNat % signBit

/-- The single with the given sign and magnitude bits. -/
def ofMagnitude (negative : Bool) (magnitude : Nat) : Single :=
  ⟨BitVec.ofNat 32 ((if negative then signBit else 0) + magnitude)⟩

/-- A zero of the given sign. -/
def zero (negative : Bool) : Single := ofMagnitude negative 0

/-- An infinity of the given sign. -/
def infinity (negative : Bool) : Single := ofMagnitude negative infinityBits

/-- The quiet not-a-number of the given sign and an otherwise empty payload. -/
def nan (negative : Bool) : Single := ofMagnitude negative 0x7fc00000

/-- Reads the bits of a single. -/
def view (x : Single) : View :=
  if infinityBits < x.magnitude then .nan
  else if x.magnitude = infinityBits then .infinite x.negative
  else if x.magnitude < exponentUnit then .finite x.negative x.magnitude minExponent
  else
    .finite x.negative (exponentUnit + x.magnitude % exponentUnit)
      (minExponent + (x.magnitude / exponentUnit : Nat) - 1)

/-- Whether `x` is not a number. -/
def isNaN (x : Single) : Bool := infinityBits < x.magnitude

/-- Whether `x` is neither infinite nor not-a-number. -/
def isFinite (x : Single) : Bool := x.magnitude < infinityBits

/-- `x` with the other sign. -/
def neg (x : Single) : Single := ofMagnitude (!x.negative) x.magnitude

/-! ## Comparison -/

/-- An integer ordered as the number is, for anything but a not-a-number. -/
def rank (x : Single) : Int := if x.negative then -(x.magnitude : Int) else x.magnitude

/-- Numeric equality: the zeros are equal, a not-a-number equals nothing. -/
def eq (x y : Single) : Bool := !x.isNaN && !y.isNaN && x.rank = y.rank

/-- Numeric order; false if either side is not a number. -/
def lt (x y : Single) : Bool := !x.isNaN && !y.isNaN && x.rank < y.rank

/-- Numeric order or equality; false if either side is not a number. -/
def le (x y : Single) : Bool := !x.isNaN && !y.isNaN && x.rank ≤ y.rank

end Single

end PascalMips
