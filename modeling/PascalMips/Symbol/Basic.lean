import PascalMips.ValueType

/-!
# Symbols and scopes

A symbol is a declared name and what it stands for. A scope is a list of symbols with distinct
names, in the order of their declarations; the symbol of a subprogram can hold the scope of its own
names.
-/

namespace PascalMips

/-- The index range of an array, both ends included. -/
structure Bounds where
  lo : Int
  hi : Int
deriving DecidableEq

namespace Bounds

/-- The number of elements. -/
def size (b : Bounds) : Nat := (b.hi - b.lo + 1).toNat

end Bounds

/-- The roles that a name can have. -/
inductive Role where
  | program | scalar | array | function | procedure
deriving DecidableEq

namespace Role

def text : Role → String
  | program => "program"
  | scalar => "variable"
  | array => "array"
  | function => "function"
  | procedure => "procedure"

end Role

/-- What a name stands for. -/
inductive Binding where
  | program
  | scalar (type : ValueType)
  | array (type : ValueType) (bounds : Bounds)
  | function (returns : ValueType) (params : List ValueType)
  | procedure (params : List ValueType)
deriving DecidableEq

namespace Binding

def role : Binding → Role
  | program => .program
  | scalar _ => .scalar
  | array _ _ => .array
  | function _ _ => .function
  | procedure _ => .procedure

/-- The type of the values that a name stands for. -/
def type? : Binding → Option ValueType
  | scalar type => some type
  | array type _ => some type
  | function returns _ => some returns
  | program => none
  | procedure _ => none

def bounds? : Binding → Option Bounds
  | array _ bounds => some bounds
  | _ => none

/-- The types of the parameters of a subprogram. -/
def params? : Binding → Option (List ValueType)
  | function _ params => some params
  | procedure params => some params
  | _ => none

def isRoutine : Binding → Bool
  | function _ _ => true
  | procedure _ => true
  | _ => false

end Binding

/-- A declared name: its number, what it stands for and, for a finished subprogram, the names it
declares. -/
structure Symbol where
  id : Nat
  name : String
  binding : Binding
  locals : Option (List Symbol)

/-- The names declared at one level. -/
abbrev Scope := List Symbol

namespace Scope

def lookup? (scope : Scope) (name : String) : Option Symbol := scope.find? (·.name = name)

def declares (scope : Scope) (name : String) : Bool := scope.any (·.name = name)

/-- The scope with one more symbol, unless its name is declared already. -/
def insert? (scope : Scope) (symbol : Symbol) : Option Scope :=
  if scope.declares symbol.name then none else some (scope ++ [symbol])

/-- The scope with the symbol of a name changed. -/
def update (scope : Scope) (name : String) (change : Symbol → Symbol) : Scope :=
  scope.map fun symbol => if symbol.name = name then change symbol else symbol

end Scope

end PascalMips
