import PascalMips.Single.Round

/-!
# Single precision arithmetic

The four operations, each the rounding of the exact result. Operations without a numeric result (a
difference of infinities, zero times infinity, a quotient of zeros or of infinities) give a
not-a-number.
-/

namespace PascalMips.Single

/-- An integer of the given sign and absolute value. -/
def signed (negative : Bool) (n : Nat) : Int := if negative then -(n : Int) else n

/-- The sum. An exact zero is negative only if both terms are. -/
def add (x y : Single) : Single :=
  match x.view, y.view with
  | .nan, _ => nan false
  | _, .nan => nan false
  | .infinite s, .infinite t => if s = t then infinity s else nan false
  | .infinite s, .finite .. => infinity s
  | .finite .., .infinite t => infinity t
  | .finite s m e, .finite t n f =>
    let g := min e f
    let sum := signed s (m <<< (e - g).toNat) + signed t (n <<< (f - g).toNat)
    if sum = 0 then zero (s && t) else ofScaled (sum < 0) sum.natAbs g

def sub (x y : Single) : Single := add x y.neg

def mul (x y : Single) : Single :=
  match x.view, y.view with
  | .nan, _ => nan false
  | _, .nan => nan false
  | .infinite s, .infinite t => infinity (s ^^ t)
  | .infinite s, .finite t n _ => if n = 0 then nan false else infinity (s ^^ t)
  | .finite s m _, .infinite t => if m = 0 then nan false else infinity (s ^^ t)
  | .finite s m e, .finite t n f => ofScaled (s ^^ t) (m * n) (e + f)

def div (x y : Single) : Single :=
  match x.view, y.view with
  | .nan, _ => nan false
  | _, .nan => nan false
  | .infinite _, .infinite _ => nan false
  | .infinite s, .finite t _ _ => infinity (s ^^ t)
  | .finite s _ _, .infinite t => zero (s ^^ t)
  | .finite s m e, .finite t n f =>
    if n = 0 then if m = 0 then nan false else infinity (s ^^ t)
    else ofRatio (s ^^ t) (m <<< (e - f).toNat) (n <<< (f - e).toNat)

end PascalMips.Single
