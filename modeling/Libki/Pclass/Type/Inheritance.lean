import Libki.Pclass.Type.Equations

/-! # Inheritance is the order of base chains

`inherits a b` holds exactly when `b` is `a` or lies on `a`'s chain of base classes. Since
every base was constructed before the class naming it, a chain only goes down in address,
so the relation is a partial order on the types of any `TypeSystem`. -/

namespace Libki.Pclass

namespace TypeSystem

/-- The type at `y` is the base class of the type at `x`. -/
def BaseOf (ts : TypeSystem) (x y : Nat) : Prop := baseOf ts.types x = some y

variable (ts : TypeSystem)

@[simp] theorem inherits_self (a : Nat) : ts.inherits a a = true := by
  rw [inherits]; simp

theorem inherits_of_base {a b c : Nat} (hb : b ≠ a) (h : ts.BaseOf a c) :
    ts.inherits a b = ts.inherits c b := by
  rw [inherits, if_neg hb]
  split <;> simp_all [BaseOf]

theorem inherits_of_no_base {a b : Nat} (hb : b ≠ a) (h : baseOf ts.types a = none) :
    ts.inherits a b = false := by
  rw [inherits, if_neg hb]
  split <;> simp_all

theorem BaseOf.lt {ts : TypeSystem} {x y : Nat} (h : ts.BaseOf x y) : y < x :=
  ts.base_lt h

/-- A base chain only goes down in address. -/
theorem baseChain_le {a b : Nat} (h : Relation.ReflTransGen ts.BaseOf a b) : b ≤ a := by
  induction h with
  | refl => exact Nat.le_refl a
  | tail _ hstep ih => exact Nat.le_trans (Nat.le_of_lt hstep.lt) ih

/-- `inherits` decides the reflexive chain of base classes. -/
theorem inherits_iff (a b : Nat) :
    ts.inherits a b = true ↔ Relation.ReflTransGen ts.BaseOf a b := by
  constructor
  · induction a, b using inherits.induct ts with
    | case1 a => intro; exact .refl
    | case2 a b hb c hc ih =>
        rw [inherits_of_base ts hb hc]
        exact fun h => .head hc (ih h)
    | case3 a b hb hc => simp [inherits_of_no_base ts hb hc]
  · intro h
    induction h using Relation.ReflTransGen.head_induction_on with
    | refl => exact inherits_self ts b
    | @head x c hstep _ ih =>
        by_cases hb : b = x
        · subst hb; exact inherits_self ts b
        · rwa [inherits_of_base ts hb hstep]

/-- In any type system, `A.inherits(B)` holds exactly when `B` is `A` or lies on `A`'s
chain of base classes, and `inherits` is reflexive, transitive and antisymmetric. -/
theorem inherits_partialOrder :
    (∀ a b, ts.inherits a b = true ↔ b = a ∨ Relation.TransGen ts.BaseOf a b) ∧
    (∀ a, ts.inherits a a = true) ∧
    (∀ a b c, ts.inherits a b = true → ts.inherits b c = true → ts.inherits a c = true) ∧
    (∀ a b, ts.inherits a b = true → ts.inherits b a = true → a = b) := by
  refine ⟨fun a b => ?_, inherits_self ts, fun a b c hab hbc => ?_, fun a b hab hba => ?_⟩
  · rw [inherits_iff, Relation.reflTransGen_iff_eq_or_transGen]
  · rw [inherits_iff] at *
    exact hab.trans hbc
  · rw [inherits_iff] at hab hba
    exact Nat.le_antisymm (baseChain_le ts hba) (baseChain_le ts hab)

/-! ## Constructing a type -/

section Push

variable (d : TypeDescriptor)
  (h : ∀ b, d.baseClass = some b → ts.types[b]?.map TypeDescriptor.isClassType = some true)

theorem baseOf_push_of_lt {a : Nat} (ha : a < ts.types.length) :
    baseOf (ts.push d h).types a = baseOf ts.types a := by
  simp [push, baseOf_append, ha]

theorem baseOf_push_length : baseOf (ts.push d h).types ts.types.length = d.baseClass := by
  simp [push, baseOf_append]

/-- Constructing a type leaves the inheritance of every earlier type as it was. -/
theorem inherits_push_of_lt (a b : Nat) (ha : a < ts.types.length) :
    (ts.push d h).inherits a b = ts.inherits a b := by
  induction a, b using inherits.induct ts with
  | case1 a => simp
  | case2 a b hb c hc ih =>
      have hc' : (ts.push d h).BaseOf a c := by rw [BaseOf, baseOf_push_of_lt ts d h ha]; exact hc
      rw [inherits_of_base ts hb hc, inherits_of_base _ hb hc', ih (Nat.lt_trans (ts.base_lt hc) ha)]
  | case3 a b hb hc =>
      rw [inherits_of_no_base ts hb hc,
        inherits_of_no_base _ hb (by rw [baseOf_push_of_lt ts d h ha]; exact hc)]

/-- The type constructed last inherits from itself and from what its base inherits from. -/
theorem inherits_push_length (b : Nat) :
    (ts.push d h).inherits ts.types.length b = true ↔
      b = ts.types.length ∨ ∃ c, d.baseClass = some c ∧ ts.inherits c b = true := by
  by_cases hb : b = ts.types.length
  · simp [hb]
  · cases hd : d.baseClass with
    | none =>
        simp [hb, inherits_of_no_base (ts.push d h) hb (by rw [baseOf_push_length ts d h, hd])]
    | some c =>
        have hc : (ts.push d h).BaseOf ts.types.length c := by
          rw [BaseOf, baseOf_push_length ts d h, hd]
        rw [inherits_of_base _ hb hc, inherits_push_of_lt ts d h c b (lt_of_map_getElem? (h c hd))]
        simp [hb]

end Push

/-! ## Matching a type against an expected one -/

/-- A class type `X` at address 0 and a primitive type `int` at address 1. -/
def sampleTypes : TypeSystem :=
  (empty.push (.classType "X" none) (by simp [TypeDescriptor.baseClass])).defineType "int"
    .primitive

/-- Expecting the class `X`, with inheritance allowed, of the primitive `int`:
`dynamic_cast<const IClassType &>` raises `std::bad_cast` instead of the type mismatch. -/
theorem assertTypeMatch_class_of_primitive :
    sampleTypes.assertTypeMatch ⟨0, by decide⟩ ⟨1, by decide⟩ true = .error .badCast := rfl

/-! ## Single inheritance -/

/-- Single inheritance: the types a type inherits from form a chain, each one inheriting from
the next. -/
theorem inherits_chain {a b c : Nat} (hb : ts.inherits a b = true)
    (hc : ts.inherits a c = true) : ts.inherits b c = true ∨ ts.inherits c b = true := by
  rw [inherits_iff] at hb hc
  rw [inherits_iff, inherits_iff]
  exact hb.total_of_right_unique (fun _ _ _ h h' => Option.some.inj (h.symm.trans h')) hc

/-- `sampleTypes` with a class `Y` derived from `X`, then a class `Z` derived from `Y`. -/
def sampleChain : TypeSystem :=
  (sampleTypes.push (.classType "Y" (some 0)) fun _ hb => by cases hb; rfl).push
    (.classType "Z" (some 2)) fun _ hb => by cases hb; rfl

theorem inherits_chain_sample :
    sampleChain.inherits 3 2 = true ∧ sampleChain.inherits 3 0 = true ∧
      (sampleChain.inherits 2 0 = true ∨ sampleChain.inherits 0 2 = true) :=
  have h32 : sampleChain.inherits 3 2 = true := (inherits_iff _ 3 2).mpr (.single rfl)
  have h30 : sampleChain.inherits 3 0 = true :=
    (inherits_iff _ 3 0).mpr (.tail (.single rfl) rfl)
  ⟨h32, h30, inherits_chain _ h32 h30⟩

end TypeSystem

/-- A successful `IClassType` construction adds one class, whose base is the one given, at
the next address. It inherits from exactly itself and what its base inherits from, and the
types constructed before it inherit as they did. -/
theorem IClassType.new_inherits {ts ts' : TypeSystem} {name : String}
    {baseClass : Option (Fin ts.types.length)} (h : IClassType.new ts name baseClass = .ok ts') :
    ts'.types = ts.types ++ [.classType name (baseClass.map Fin.val)] ∧
    (∀ b, ts'.inherits ts.types.length b = true ↔
      b = ts.types.length ∨ ∃ c ∈ baseClass, ts.inherits c b = true) ∧
    ∀ a b, a < ts.types.length → ts'.inherits a b = ts.inherits a b := by
  unfold IClassType.new at h
  split at h
  all_goals (try split_ifs at h); cases h
  all_goals
    refine ⟨rfl, fun b => ?_, fun a b ha => TypeSystem.inherits_push_of_lt ts _ _ a b ha⟩
    rw [TypeSystem.inherits_push_length]
    simp [TypeDescriptor.baseClass]

theorem IClassType.new_inherits_sample :
    ∃ ts', IClassType.new TypeSystem.sampleTypes "Y" (some ⟨0, by decide⟩) = .ok ts' ∧
      ts'.types = TypeSystem.sampleTypes.types ++ [.classType "Y" (some 0)] ∧
      (∀ b, ts'.inherits 2 b = true ↔
        b = 2 ∨ ∃ c ∈ some (⟨0, by decide⟩ : Fin 2), TypeSystem.sampleTypes.inherits c b = true) ∧
      ∀ a b, a < 2 → ts'.inherits a b = TypeSystem.sampleTypes.inherits a b :=
  ⟨_, rfl, @IClassType.new_inherits TypeSystem.sampleTypes _ "Y" (some ⟨0, by decide⟩) rfl⟩

end Libki.Pclass
