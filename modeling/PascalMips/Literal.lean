import PascalMips.Single.Decimal

/-!
# Number literals

What a literal's text means as a 32-bit integer (`integer?`) or as a single (`real?`), and how a
single is spelled when the compiler writes a literal of its own (`spell`).
-/

namespace PascalMips.Literal

/-! ## Integers -/

/-- Whether `i` is a signed 32-bit integer. -/
def InRange (i : Int) : Prop := -2147483648 ≤ i ∧ i < 2147483648

instance (i : Int) : Decidable (InRange i) := inferInstanceAs (Decidable (_ ∧ _))

/-- The number written by a run of decimal digits. -/
def digitsValue (ds : List Char) : Nat :=
  ds.foldl (fun n d => 10 * n + (d.toNat - '0'.toNat)) 0

/-- The number written by `ds`, if that is a run of at least one decimal digit. -/
def natural? (ds : List Char) : Option Nat :=
  if ds ≠ [] ∧ ds.all Char.isDigit then some (digitsValue ds) else none

/-- An optional sign: whether it is a minus, and what follows. -/
def splitSign : List Char → Bool × List Char
  | '-' :: rest => (true, rest)
  | '+' :: rest => (false, rest)
  | rest => (false, rest)

/-- The 32-bit integer written by `text`: an optional sign and digits. -/
def integer? (text : String) : Option Int := do
  let (negative, ds) := splitSign text.toList
  let n ← natural? ds
  let i : Int := if negative then -(n : Int) else n
  if InRange i then some i else none

/-! ## Reals -/

/-- An exponent: nothing at all, or `e`, an optional sign and digits. -/
def exponentPart? : List Char → Option Int
  | [] => some 0
  | e :: rest =>
    if e = 'e' ∨ e = 'E' then do
      let (negative, ds) := splitSign rest
      let n ← natural? ds
      return if negative then -(n : Int) else n
    else none

/-- A decimal without sign: digits with an optional point, at least one digit on either side of it,
and an optional exponent. -/
def decimal? (cs : List Char) : Option Decimal := do
  let whole := cs.takeWhile Char.isDigit
  let rest := cs.dropWhile Char.isDigit
  let (frac, rest) :=
    match rest with
    | '.' :: rest => (rest.takeWhile Char.isDigit, rest.dropWhile Char.isDigit)
    | rest => ([], rest)
  if whole = [] ∧ frac = [] then none
  else
    let e ← exponentPart? rest
    return ⟨digitsValue (whole ++ frac), e - frac.length⟩

/-- The single written by `text`: a decimal, `inf`, `infinity` or `nan` in any case, after an
optional sign. -/
def real? (text : String) : Option Single := do
  let (negative, cs) := splitSign text.toList
  let lower := cs.map Char.toLower
  if lower = "inf".toList ∨ lower = "infinity".toList then return Single.infinity negative
  else if lower = "nan".toList then return Single.nan negative
  else return (← decimal? cs).toSingle negative

/-! ## Spelling -/

/-- Numbers from `10 ^ (-4)` up to, but not including, `10 ^ 16` are written without exponent. -/
def isPlain (point : Int) : Bool := -4 < point ∧ point ≤ 16

/-- The digits `ds` with a point after the first `point` of them, and a digit on either side of
it. -/
def plain (ds : List Char) (point : Int) : List Char :=
  if point ≤ 0 then '0' :: '.' :: (List.replicate (-point).toNat '0' ++ ds)
  else
    let whole := ds.take point.toNat
    let frac := ds.drop point.toNat
    whole ++ List.replicate (point.toNat - ds.length) '0' ++
      '.' :: (if frac = [] then ['0'] else frac)

/-- The digits `ds` with a point after the first, a digit after it, and an exponent. -/
def scientific (ds : List Char) (point : Int) : List Char :=
  ds.take 1 ++ '.' :: (if ds.drop 1 = [] then ['0'] else ds.drop 1) ++
    'e' :: (toString (point - 1)).toList

/-- The spelling of a finite single: its shortest digits, always with a point. -/
def spell (x : Single) : String :=
  let d := x.shortest
  let ds := Nat.toDigits 10 d.digits
  let point : Int := ds.length + d.exponent
  let body :=
    if d.digits = 0 then ['0', '.', '0']
    else if isPlain point then plain ds point
    else scientific ds point
  String.ofList (if x.negative then '-' :: body else body)

end PascalMips.Literal
