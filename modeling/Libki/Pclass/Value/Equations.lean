import Mathlib.Logic.Function.Basic

/-! # Values and the caster registry

A `Value` is a typed pointer that may own its storage. Its type is fixed when it is made,
and `set_type<T>` also stores a pointer to the `ValueCaster` of that type, which
`ValueCaster::get<T>` creates on first use. The casters of one source type live in that
`ValueCaster`, keyed by destination type; `declare<SrcT, DestT>` adds one. The registry,
the casters and the values' storage are process-wide state, so every operation here passes
a `Runtime` along, and an exception keeps the effects that came before it. -/

namespace Libki.Pclass

/-- `typeid(T).hash_code()`. The registry and `Value::is<T>` compare types only through it,
so the model identifies a type with its hash code. -/
abbrev TypeHash := Nat

/-- The exceptions the modelled code raises. -/
inductive Error where
  /-- `ki::cast_error(src_type, dest_type)`. -/
  | castError (src dest : TypeHash)
  /-- `ki::runtime_error(message)`. -/
  | runtimeError (message : String)
  /-- `std::bad_cast`, from a failed `dynamic_cast` to a reference. -/
  | badCast
  deriving DecidableEq, Repr

/-- The `value_caster<SrcT, DestT>` that `add_caster` allocates. -/
structure Caster where
  src : TypeHash
  dest : TypeHash
  deriving DecidableEq, Repr

/-- A `ValueCaster`: `m_src_type`, and `m_casts` keyed by destination hash. -/
structure ValueCaster where
  srcType : TypeHash
  casts : TypeHash → Option Caster

/-- The process-wide state: `s_caster_lookup`, the `ValueCaster` objects by address, and
the storage values point to. Addresses from `next` up are free. -/
structure Runtime (Datum : Type) where
  casterLookup : TypeHash → Option Nat
  casters : Nat → ValueCaster
  casterCount : Nat
  memory : Nat → Datum
  next : Nat

/-- A process before any registry use: `s_caster_lookup` is still null, and `memory`
below `next` holds the objects that exist already. -/
def Runtime.init {Datum : Type} (memory : Nat → Datum) (next : Nat) : Runtime Datum :=
  ⟨fun _ => none, fun _ => ⟨0, fun _ => none⟩, 0, memory, next⟩

/-- A `Value`: `m_value_ptr`, `m_ptr_is_owned`, `m_type_hash` and `m_caster`. The
deallocator is left out: only the destructor reads it. -/
structure Value where
  valuePtr : Nat
  ptrIsOwned : Bool
  typeHash : TypeHash
  caster : Nat
  deriving DecidableEq, Repr

variable {Datum : Type}

/-- `new T(value)`: `x` stored at the first free address. -/
def Runtime.alloc (rt : Runtime Datum) (x : Datum) : Runtime Datum :=
  { rt with memory := Function.update rt.memory rt.next x, next := rt.next + 1 }

namespace ValueCaster

/-- `ValueCaster::get<SrcT>()`: the address of the caster of `src`, created on first use. -/
def get (rt : Runtime Datum) (src : TypeHash) : Nat × Runtime Datum :=
  match rt.casterLookup src with
  | some addr => (addr, rt)
  | none =>
      (rt.casterCount,
        { rt with
          casterLookup := Function.update rt.casterLookup src (some rt.casterCount)
          casters := Function.update rt.casters rt.casterCount ⟨src, fun _ => none⟩
          casterCount := rt.casterCount + 1 })

/-- `ValueCaster::add_caster<SrcT, DestT>()`: the `DestT` entry, replacing an earlier one. -/
def addCaster (c : ValueCaster) (src dest : TypeHash) : ValueCaster :=
  { c with casts := Function.update c.casts dest (some ⟨src, dest⟩) }

/-- `ValueCaster::declare<SrcT, DestT>()`. -/
def declare (rt : Runtime Datum) (src dest : TypeHash) : Runtime Datum :=
  let r := get rt src
  { r.2 with casters := Function.update r.2.casters r.1 ((r.2.casters r.1).addCaster src dest) }

end ValueCaster

namespace Value

/-- `Value::is<T>()`. -/
def is (v : Value) (t : TypeHash) : Bool := v.typeHash == t

/-- `Value::is_reference()`. -/
def isReference (v : Value) : Bool := !v.ptrIsOwned

/-- `Value::make_value<T>(value)`: `new T(value)`, then `set_type<T>()`. -/
def makeValue (rt : Runtime Datum) (t : TypeHash) (x : Datum) : Value × Runtime Datum :=
  let r := ValueCaster.get (rt.alloc x) t
  (⟨rt.next, true, t, r.1⟩, r.2)

/-- `Value::make_reference<T>(value)`: the storage at `ptr`, not owned. -/
def makeReference (rt : Runtime Datum) (t : TypeHash) (ptr : Nat) : Value × Runtime Datum :=
  let r := ValueCaster.get rt t
  (⟨ptr, false, t, r.1⟩, r.2)

/-- `Value::get<T>()`, both overloads: the held storage. -/
def get (v : Value) (t : TypeHash) : Except Error Nat :=
  if !v.is t then .error (.runtimeError "Invalid call to Value::get<T>.") else .ok v.valuePtr

/-- `Value::release<T>()`: the held storage, after which the value only refers to it. -/
def release (v : Value) (t : TypeHash) : Except Error (Nat × Value) :=
  if v.isReference then .error (.runtimeError "Cannot release ownership from a reference Value.")
  else if !v.is t then .error (.runtimeError "Invalid call to Value::get<T>.")
  else .ok (v.valuePtr, { v with ptrIsOwned := false })

/-- `Value::dereference<T>()`: an owning copy of the held value. -/
def dereference (rt : Runtime Datum) (v : Value) (t : TypeHash) :
    Except Error Value × Runtime Datum :=
  if !v.is t then (.error (.runtimeError "Invalid call to Value::dereference<T>."), rt)
  else let r := makeValue rt t (rt.memory v.valuePtr); (.ok r.1, r.2)

end Value

/-! ## Casting

`convert src dest` is what `value_caster<src, dest>` does to a held value: `static_cast` by
default, or the json, enum and string specializations. Each specialization's `cast` hands
its result to `Value::make_value<DestT>`. -/

variable (convert : TypeHash → TypeHash → Datum → Datum)

/-- `value_caster<SrcT, DestT>::cast(value)`. -/
def Caster.cast (rt : Runtime Datum) (c : Caster) (v : Value) :
    Except Error Value × Runtime Datum :=
  match v.get c.src with
  | .error e => (.error e, rt)
  | .ok ptr =>
      let r := Value.makeValue rt c.dest (convert c.src c.dest (rt.memory ptr))
      (.ok r.1, r.2)

/-- `ValueCaster::cast_value<DestT>(value)` of the caster at address `addr`. -/
def ValueCaster.castValue (rt : Runtime Datum) (addr : Nat) (dest : TypeHash) (v : Value) :
    Except Error Value × Runtime Datum :=
  match (rt.casters addr).casts dest with
  | some c => c.cast convert rt v
  | none => (.error (.castError (rt.casters addr).srcType dest), rt)

/-- `Value::as<T>()`. -/
def Value.as (rt : Runtime Datum) (v : Value) (t : TypeHash) :
    Except Error Value × Runtime Datum :=
  if !v.is t then ValueCaster.castValue convert rt v.caster t v
  else let r := Value.makeValue rt t (rt.memory v.valuePtr); (.ok r.1, r.2)

/-- `ValueCaster::cast<SrcT, DestT>(value)`. -/
def ValueCaster.cast (rt : Runtime Datum) (src dest : TypeHash) (v : Value) :
    Except Error Value × Runtime Datum :=
  let r := ValueCaster.get (ValueCaster.declare rt src dest) src
  ValueCaster.castValue convert r.2 r.1 dest v

/-- `ValueCaster::cast<DestT>(src_type, value)`: the caster of `src` found by hash. -/
def ValueCaster.castTypeInfo (rt : Runtime Datum) (dest src : TypeHash) (v : Value) :
    Except Error Value × Runtime Datum :=
  match rt.casterLookup src with
  | some addr => ValueCaster.castValue convert rt addr dest v
  | none => (.error (.castError src dest), rt)

end Libki.Pclass
