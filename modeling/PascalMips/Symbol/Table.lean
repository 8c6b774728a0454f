import PascalMips.Symbol.Basic

/-!
# The symbol table

A stack of scopes over one global scope that is always there. Names are looked up from the innermost
scope outwards, so an inner declaration hides an outer one. Each successful declaration takes the
next number.
-/

namespace PascalMips

/-- The scopes that are open, the innermost first, the global scope below them, and the number of
the next symbol. -/
structure SymbolTable where
  inner : List Scope
  global : Scope
  nextId : Nat

namespace SymbolTable

def empty : SymbolTable := ⟨[], [], 0⟩

instance : Inhabited SymbolTable := ⟨empty⟩

def scopes (t : SymbolTable) : List Scope := t.inner ++ [t.global]

/-- The number of scopes, the global one included. -/
def depth (t : SymbolTable) : Nat := t.inner.length + 1

def current (t : SymbolTable) : Scope := t.inner.headD t.global

/-! ## Opening and closing scopes -/

def push (t : SymbolTable) (scope : Scope) : SymbolTable := { t with inner := scope :: t.inner }

def enter (t : SymbolTable) : SymbolTable := t.push []

/-- The innermost scope and the table without it. The global scope cannot be left. -/
def exit? (t : SymbolTable) : Option (Scope × SymbolTable) :=
  match t.inner with
  | [] => none
  | scope :: rest => some (scope, { t with inner := rest })

/-! ## Declaring -/

/-- The table with `scope` in place of its innermost scope. -/
def setCurrent (t : SymbolTable) (scope : Scope) : SymbolTable :=
  match t.inner with
  | [] => { t with global := scope }
  | _ :: rest => { t with inner := scope :: rest }

/-- The table with a name declared in its innermost scope, unless that scope declares it already. -/
def declare? (t : SymbolTable) (name : String) (binding : Binding) : Option SymbolTable :=
  (t.current.insert? ⟨t.nextId, name, binding, none⟩).map fun scope =>
    { t.setCurrent scope with nextId := t.nextId + 1 }

/-! ## Looking up -/

/-- The first of the scopes that declares a name: the number of scopes from there on, and the
symbol. -/
def findIn : List Scope → String → Option (Nat × Symbol)
  | [], _ => none
  | scope :: rest, name =>
    match scope.lookup? name with
    | some symbol => some (rest.length + 1, symbol)
    | none => findIn rest name

/-- The innermost symbol of a name and the depth of its scope; the global scope has depth one. -/
def lookupWithDepth? (t : SymbolTable) (name : String) : Option (Nat × Symbol) :=
  findIn t.scopes name

/-- The innermost symbol of a name. -/
def lookup? (t : SymbolTable) (name : String) : Option Symbol :=
  (t.lookupWithDepth? name).map Prod.snd

/-- Whether a name is visible and has the given role. -/
def hasRole (t : SymbolTable) (name : String) (role : Role) : Bool :=
  (t.lookup? name).any (·.binding.role = role)

/-! ## Scopes of subprograms -/

/-- The scopes with the first symbol of a name changed. -/
def updateIn (name : String) (change : Symbol → Symbol) : List Scope → List Scope
  | [] => []
  | scope :: rest =>
    if scope.declares name then scope.update name change :: rest
    else scope :: updateIn name change rest

/-- The table with the innermost symbol of a name changed. -/
def update (t : SymbolTable) (name : String) (change : Symbol → Symbol) : SymbolTable :=
  if t.inner.any (·.declares name) then { t with inner := updateIn name change t.inner }
  else { t with global := t.global.update name change }

/-- The table with `scope` attached to the visible subprogram of a name, if there is one. -/
def attach? (t : SymbolTable) (name : String) (scope : Scope) : Option SymbolTable :=
  match t.lookup? name with
  | some symbol =>
    if symbol.binding.isRoutine then some (t.update name ({ · with locals := some scope }))
    else none
  | none => none

/-- The scope attached to the visible symbol of a name, and the table with that scope taken off. -/
def detach? (t : SymbolTable) (name : String) : Option (Scope × SymbolTable) :=
  match t.lookup? name with
  | some symbol => symbol.locals.map fun scope => (scope, t.update name ({ · with locals := none }))
  | none => none

end SymbolTable

end PascalMips
