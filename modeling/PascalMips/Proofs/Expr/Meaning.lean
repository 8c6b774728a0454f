import PascalMips.Expr.Basic
import PascalMips.Proofs.Machine.Basic

/-!
# What expressions mean

`Expr.eval` gives the word that an expression stands for: an integer in two's complement, or the
bits of a single. It gives nothing where a program must not go: on overflow of a sum, a difference
or a negation, on division by zero or of the least integer by minus one, and for an element that
its array does not have. A product keeps its low 32 bits. What names stand for comes from an
environment, and so does the conversion of singles to integers, which the processor decides.
-/

namespace PascalMips

/-- The values of variables, of array elements by their index and of functions by their arguments,
and the conversion of singles to integers. -/
structure Env where
  var : String → Word
  element : String → Word → Option Word
  call : String → List (ValueType × Word) → Option Word
  toWord : Single → Word

namespace ValueType

/-- A word of this type as an integer. -/
def toInteger (env : Env) : ValueType → Word → Word
  | integer, w => w
  | real, w => env.toWord ⟨w⟩

/-- A word of this type as a real. -/
def toReal : ValueType → Word → Single
  | integer, w => Single.ofInt w.toInt
  | real, w => ⟨w⟩

end ValueType

namespace Word

/-- The quotient, cut off toward zero. -/
def quotient (a b : Word) : Option Word :=
  if b = 0 then none else checked (a.toInt.tdiv b.toInt)

/-- The remainder, which has the sign of `a`. There is none where there is no quotient. -/
def remainder (a b : Word) : Option Word :=
  if b = 0 ∨ ¬Literal.InRange (a.toInt.tdiv b.toInt) then none
  else some (BitVec.ofInt 32 (a.toInt.tmod b.toInt))

end Word

/-- Whether a comparison of singles holds, by the tests that the processor has: `<>`, `>` and `>=`
hold where `=`, `<=` and `<` do not. -/
def Relation.holdsByTest : Relation → Single → Single → Bool
  | eq, a, b => a.eq b
  | ne, a, b => !a.eq b
  | lt, a, b => a.lt b
  | le, a, b => a.le b
  | gt, a, b => !a.le b
  | ge, a, b => !a.lt b

namespace BinaryOp

/-- Whether a comparison of two words of the given types holds. -/
def compareWords (relation : Relation) (s t : ValueType) (a b : Word) : Bool :=
  match s.widen t with
  | .integer => relation.holds a.toInt b.toInt
  | .real => relation.holdsByTest (s.toReal a) (t.toReal b)

/-- A result of the given type, by the operation on words or by that on singles. -/
def arithmetic (integer : Word → Word → Option Word) (real : Single → Single → Single)
    (type s t : ValueType) (a b : Word) : Option Word :=
  match type with
  | .integer => integer a b
  | .real => some (real (s.toReal a) (t.toReal b)).bits

/-- An operation with a result of type `type`, on words of the types `s` and `t`. -/
def value (env : Env) (op : BinaryOp) (type s t : ValueType) (a b : Word) : Option Word :=
  match op with
  | rel relation => some (Word.ofBool (compareWords relation s t a b))
  | and => some (s.toInteger env a &&& t.toInteger env b)
  | or => some (s.toInteger env a ||| t.toInteger env b)
  | div => Word.quotient (s.toInteger env a) (t.toInteger env b)
  | mod => Word.remainder (s.toInteger env a) (t.toInteger env b)
  | add => arithmetic (fun a b => Word.checked (a.toInt + b.toInt)) Single.add type s t a b
  | sub => arithmetic (fun a b => Word.checked (a.toInt - b.toInt)) Single.sub type s t a b
  | mul => arithmetic (fun a b => some (a * b)) Single.mul type s t a b
  | divide => arithmetic Word.quotient Single.div type s t a b

end BinaryOp

/-- An operation with a result of type `type`, on a word of the type `t`. -/
def UnaryOp.value (env : Env) (op : UnaryOp) (type t : ValueType) (w : Word) : Option Word :=
  match op, type with
  | neg, .integer => Word.checked (-w.toInt)
  | neg, .real => some (Single.neg ⟨w⟩).bits
  | not, _ => some (Word.ofBool (t.toInteger env w = 0))

/-- The word of a literal of the given type. -/
def literalValue (text : String) : ValueType → Option Word
  | .integer => (Literal.integer? text).map (BitVec.ofInt 32)
  | .real => (Literal.real? text).map Single.bits

namespace Expr

mutual

/-- The word that an expression stands for. -/
def eval (env : Env) : Expr → Option Word
  | literal text type => literalValue text type
  | var name _ => some (env.var name)
  | element name _ index => do env.element name (index.type.toInteger env (← index.eval env))
  | call name _ args => do env.call name (← evalAll env args)
  | binary op left right type => do
    let a ← left.eval env
    let b ← right.eval env
    op.value env type left.type right.type a b
  | unary op operand type => do op.value env type operand.type (← operand.eval env)

/-- The words that arguments stand for, with their types. -/
def evalAll (env : Env) : List Expr → Option (List (ValueType × Word))
  | [] => some []
  | e :: es => do
    let w ← e.eval env
    return (e.type, w) :: (← evalAll env es)

end

end Expr

end PascalMips
