import Libki.Pclass.Value.Equations
import Mathlib.Logic.Relation

/-! # Type descriptors and inheritance

The `Type` objects constructed so far are kept in an arena and addressed by position, so
that a reference to a type is its address and `&type == this` compares addresses.
`IClassType`'s constructor accepts as base only a type that already exists and is an
`IClassType`, so a base always sits before the class that names it, and every base chain
ends. `IClassType::inherits` walks that chain. -/

namespace Libki.Pclass

/-- `Type::kind`. -/
inductive Kind where
  | none
  | primitive
  | cls
  | enum
  deriving DecidableEq, Repr

/-- A `Type` object: an `IClassType` with its base class, if any, or another `Type` with
the kind its constructor gave it. -/
inductive TypeDescriptor where
  | type (name : String) (kind : Kind)
  | classType (name : String) (baseClass : Option Nat)
  deriving DecidableEq, Repr

namespace TypeDescriptor

/-- `Type::get_name()`. -/
def name : TypeDescriptor → String
  | .type n _ => n
  | .classType n _ => n

/-- `Type::get_kind()`: an `IClassType` sets `kind::CLASS`. -/
def kind : TypeDescriptor → Kind
  | .type _ k => k
  | .classType _ _ => .cls

/-- `m_base_class` of an `IClassType`. -/
def baseClass : TypeDescriptor → Option Nat
  | .type _ _ => none
  | .classType _ b => b

/-- Whether `dynamic_cast<const IClassType *>` of the object succeeds. -/
def isClassType : TypeDescriptor → Bool
  | .type _ _ => false
  | .classType _ _ => true

end TypeDescriptor

/-- The base class of the type at address `i`, if it has one. -/
def baseOf (types : List TypeDescriptor) (i : Nat) : Option Nat :=
  types[i]?.bind TypeDescriptor.baseClass

/-- The `Type` objects constructed so far. A base class was constructed before the class
that names it, and is an `IClassType`. -/
structure TypeSystem where
  types : List TypeDescriptor
  base_lt : ∀ {i b}, baseOf types i = some b → b < i
  base_class : ∀ {i b}, baseOf types i = some b → (types[b]?.map TypeDescriptor.isClassType) = some true

namespace TypeSystem

/-- No type constructed yet. -/
def empty : TypeSystem := ⟨[], by simp [baseOf], by simp [baseOf]⟩

/-- `IClassType::inherits(type)` of the class at `a`, for the type at `b`: a class
inherits from itself, and from whatever its base class inherits from. -/
def inherits (ts : TypeSystem) (a b : Nat) : Bool :=
  if b = a then true
  else match _h : baseOf ts.types a with
    | some c => ts.inherits c b
    | none => false
termination_by a
decreasing_by exact ts.base_lt _h

theorem baseOf_append (types : List TypeDescriptor) (d : TypeDescriptor) (i : Nat) :
    baseOf (types ++ [d]) i =
      if i < types.length then baseOf types i
      else if i = types.length then d.baseClass else none := by
  unfold baseOf
  split
  · rw [List.getElem?_append_left ‹_›]
  · rw [List.getElem?_append_right (by omega)]
    split
    · subst i; simp
    · rw [List.getElem?_eq_none (by simp; omega)]; rfl

theorem lt_of_map_getElem? {types : List TypeDescriptor} {b : Nat} {x : Bool}
    (h : types[b]?.map TypeDescriptor.isClassType = some x) : b < types.length := by
  by_contra hn
  rw [List.getElem?_eq_none (by omega)] at h
  cases h

/-- Constructs one more `Type` object, whose base class, if any, is an existing
`IClassType`. -/
def push (ts : TypeSystem) (d : TypeDescriptor)
    (h : ∀ b, d.baseClass = some b → ts.types[b]?.map TypeDescriptor.isClassType = some true) :
    TypeSystem where
  types := ts.types ++ [d]
  base_lt := fun {i b} hb => by
    rw [baseOf_append] at hb
    split at hb
    · exact ts.base_lt hb
    · split at hb
      · have := lt_of_map_getElem? (h _ hb)
        omega
      · cases hb
  base_class := fun {i b} hb => by
    have hlt : ∀ {b}, ts.types[b]?.map TypeDescriptor.isClassType = some true →
        (ts.types ++ [d])[b]?.map TypeDescriptor.isClassType = some true := fun {b} hb => by
      rwa [List.getElem?_append_left (lt_of_map_getElem? hb)]
    rw [baseOf_append] at hb
    split at hb
    · exact hlt (ts.base_class hb)
    · split at hb
      · exact hlt (h _ hb)
      · cases hb

/-- `Type::Type(name, type_system)` followed by the constructor of a subclass other than
`IClassType`, which sets the type's kind. -/
def defineType (ts : TypeSystem) (name : String) (kind : Kind) : TypeSystem :=
  ts.push (.type name kind) (by simp [TypeDescriptor.baseClass])

end TypeSystem

/-- `IClassType::IClassType(name, base_class, type_system)`: a new class, after the checks
that the base class, if one is given, is a class type and an `IClassType`. -/
def IClassType.new (ts : TypeSystem) (name : String) (baseClass : Option (Fin ts.types.length)) :
    Except Error TypeSystem :=
  match baseClass with
  | none => .ok (ts.push (.classType name none) (by simp [TypeDescriptor.baseClass]))
  | some b =>
      if (ts.types.get b).kind ≠ .cls then .error (.runtimeError "base_class must be a class type!")
      else if h : (ts.types.get b).isClassType then
        .ok (ts.push (.classType name (some b)) (fun b' hb => by
          simp only [TypeDescriptor.baseClass, Option.some.injEq] at hb
          subst hb
          simp only [List.getElem?_eq_getElem b.isLt, Option.map_some']
          exact congrArg some h))
      else .error (.runtimeError "base_class must inherit IClassType!")

namespace TypeSystem

/-- The message of the type-mismatch `runtime_error`; `operator<<` prints
`allow_inheritance` as `1` or `0`. -/
def typeMismatchMessage (expected actual : String) (allowInheritance : Bool) : String :=
  "Type mismatch. (expected=" ++ expected ++ ", actual=" ++ actual ++ ", allow_inheritance=" ++
    (if allowInheritance then "1" else "0") ++ ")"

/-- `assert_type_match(expected, actual, allow_inheritance)`. With inheritance allowed and
a class type expected, `actual` goes through `dynamic_cast<const IClassType &>`, which
raises `std::bad_cast` when `actual` is not an `IClassType`. -/
def assertTypeMatch (ts : TypeSystem) (expected actual : Fin ts.types.length)
    (allowInheritance : Bool) : Except Error Unit :=
  let exactMatch : Except Error Unit :=
    if expected = actual then .ok ()
    else .error (.runtimeError (typeMismatchMessage (ts.types.get expected).name
      (ts.types.get actual).name allowInheritance))
  if allowInheritance && (ts.types.get expected).kind == .cls then
    if !(ts.types.get actual).isClassType then .error .badCast
    else if ts.inherits actual expected then .ok ()
    else exactMatch
  else exactMatch

end TypeSystem

end Libki.Pclass
