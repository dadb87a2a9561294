import Mathlib.Algebra.Group.Nat.Basic

/-! # Casts between integral types

`ValueCaster::declare<SrcT, DestT>()` between two integral types registers the default
`value_caster`, whose `cast_value` is `static_cast<DestT>(value)`: no specialization of
`value_caster` matches an integral pair. A `static_cast` to `bool` tests against zero; one to
a signed or unsigned type of `w` bits keeps the value modulo `2 ^ w`, in the type's range.
The source type plays no part, so composing two casts agrees with the direct one when the
intermediate type keeps the value, or when it drops no bit that the final type keeps. -/

namespace Libki.Pclass

/-- The integral types `caster_declarer` names. -/
inductive IntegralType where
  | bool
  | int8
  | int16
  | int32
  | int64
  | uint8
  | uint16
  | uint32
  | uint64
  deriving DecidableEq, Repr

namespace IntegralType

/-- `sizeof(T) * CHAR_BIT`. -/
def bits : IntegralType → Nat
  | .bool | .int8 | .uint8 => 8
  | .int16 | .uint16 => 16
  | .int32 | .uint32 => 32
  | .int64 | .uint64 => 64

/-- `std::is_signed<T>::value`. -/
def isSigned : IntegralType → Bool
  | .int8 | .int16 | .int32 | .int64 => true
  | _ => false

/-- `std::numeric_limits<T>::min()`. -/
def min (t : IntegralType) : Int :=
  if t.isSigned then -((2 ^ (t.bits - 1) : Nat) : Int) else 0

/-- `std::numeric_limits<T>::max()`. -/
def max (t : IntegralType) : Int :=
  if t = .bool then 1
  else if t.isSigned then ((2 ^ (t.bits - 1) : Nat) : Int) - 1
  else ((2 ^ t.bits : Nat) : Int) - 1

/-- `x` is a value of type `t`. -/
def InRange (t : IntegralType) (x : Int) : Prop := t.min ≤ x ∧ x ≤ t.max

instance (t : IntegralType) (x : Int) : Decidable (t.InRange x) :=
  inferInstanceAs (Decidable (_ ∧ _))

theorem two_pow_bits (t : IntegralType) : 2 ^ t.bits = 2 * 2 ^ (t.bits - 1) := by
  cases t <;> rfl

end IntegralType

open IntegralType

/-- `static_cast<T>(x)` of an integer `x`. -/
def staticCast (t : IntegralType) (x : Int) : Int :=
  if t = .bool then (if x = 0 then 0 else 1)
  else if t.isSigned then x.bmod (2 ^ t.bits)
  else x % ((2 ^ t.bits : Nat) : Int)

/-- `value_caster<SrcT, DestT>::cast_value`, as every integral pair has it:
`static_cast<DestT>(value)`. -/
def valueCaster (_src dest : IntegralType) (x : Int) : Int :=
  staticCast dest x

/-! ## Balanced remainders -/

/-- `Int.bmod` is the identity on the range it maps into. -/
theorem bmod_eq_self {x : Int} {m : Nat} (h₁ : -((m / 2 : Nat) : Int) ≤ x)
    (h₂ : x < ((m + 1) / 2 : Nat)) : x.bmod m = x := by
  rw [Int.bmod_def]
  by_cases hx : x < 0
  · have hr : x % m = x + m := by
      rw [← Int.add_emod_self]
      exact Int.emod_eq_of_lt (by omega) (by omega)
    rw [hr, if_neg (by omega)]
    omega
  · rw [Int.emod_eq_of_lt (by omega) (by omega), if_pos (by omega)]

/-! ## What one cast does -/

section StaticCast

variable {t : IntegralType} {x y : Int}

@[simp] theorem staticCast_bool (x : Int) : staticCast .bool x = if x = 0 then 0 else 1 := rfl

/-- Every cast yields a value of its destination type. -/
theorem staticCast_inRange (t : IntegralType) (x : Int) : t.InRange (staticCast t x) := by
  have hw := two_pow_bits t
  have hpos : 0 < 2 ^ t.bits := Nat.pos_pow_of_pos _ (by decide)
  unfold staticCast InRange IntegralType.min IntegralType.max
  by_cases hb : t = .bool
  · subst hb
    simp only [isSigned, if_true, Bool.false_eq_true, if_false]
    split <;> decide
  · have h₁ := @Int.le_bmod x _ hpos
    have h₂ := @Int.bmod_lt x _ hpos
    have h₃ := Int.emod_nonneg x (Int.ofNat_ne_zero.mpr (Nat.pos_iff_ne_zero.mp hpos))
    have h₄ := Int.emod_lt_of_pos x (Int.ofNat_pos.mpr hpos)
    simp only [hb, if_false]
    generalize 2 ^ t.bits = m at *
    generalize 2 ^ (t.bits - 1) = k at *
    split <;> omega

/-- A cast keeps a value its destination type can hold. -/
theorem staticCast_of_inRange (h : t.InRange x) : staticCast t x = x := by
  have hw := two_pow_bits t
  unfold staticCast
  unfold InRange IntegralType.min IntegralType.max at h
  by_cases hb : t = .bool
  · subst hb
    simp only [if_true, isSigned, Bool.false_eq_true, if_false] at h ⊢
    split <;> omega
  · by_cases hs : t.isSigned
    · simp only [hb, hs, if_true, if_false] at h ⊢
      generalize 2 ^ t.bits = m at *
      generalize 2 ^ (t.bits - 1) = k at *
      exact bmod_eq_self (by omega) (by omega)
    · simp only [hb, hs, if_false, Bool.false_eq_true] at h ⊢
      exact Int.emod_eq_of_lt h.1 (by omega)

/-- A cast to a type other than `bool` keeps its argument modulo `2 ^ bits`. -/
theorem staticCast_emod (hb : t ≠ .bool) (x : Int) :
    staticCast t x % ((2 ^ t.bits : Nat) : Int) = x % ((2 ^ t.bits : Nat) : Int) := by
  unfold staticCast
  rw [if_neg hb]
  split
  · exact Int.bmod_emod
  · exact Int.emod_emod x _

/-- A cast to a type other than `bool` depends only on its argument modulo `2 ^ bits`. -/
theorem staticCast_congr (hb : t ≠ .bool)
    (h : x % ((2 ^ t.bits : Nat) : Int) = y % ((2 ^ t.bits : Nat) : Int)) :
    staticCast t x = staticCast t y := by
  unfold staticCast
  rw [if_neg hb, if_neg hb]
  split
  · rw [← Int.emod_bmod_congr, h, Int.emod_bmod_congr]
  · exact h

end StaticCast

/-! ## Composing casts -/

/-- Casting through a type that is no narrower than the final one, neither being `bool`,
loses nothing the final cast keeps. -/
theorem staticCast_staticCast_of_bits_le {B C : IntegralType} (hB : B ≠ .bool)
    (hC : C ≠ .bool) (h : C.bits ≤ B.bits) (x : Int) :
    staticCast C (staticCast B x) = staticCast C x := by
  have hd : ((2 ^ C.bits : Nat) : Int) ∣ ((2 ^ B.bits : Nat) : Int) :=
    Int.ofNat_dvd.mpr (Nat.pow_dvd_pow 2 h)
  apply staticCast_congr hC
  calc staticCast B x % ((2 ^ C.bits : Nat) : Int)
      = staticCast B x % ((2 ^ B.bits : Nat) : Int) % ((2 ^ C.bits : Nat) : Int) :=
        (Int.emod_emod_of_dvd _ hd).symm
    _ = x % ((2 ^ B.bits : Nat) : Int) % ((2 ^ C.bits : Nat) : Int) := by
        rw [staticCast_emod hB]
    _ = x % ((2 ^ C.bits : Nat) : Int) := Int.emod_emod_of_dvd _ hd

/-- Casting from `A` to `C` through `B` gives the direct cast from `A` to `C` when `B` can
hold the value, when `B` and `C` are integer types and `B` is at least as wide as `C`, or
when both are `bool`. -/
theorem valueCaster_comp (A B C : IntegralType) (x : Int)
    (h : B.InRange x ∨ (B ≠ .bool ∧ C ≠ .bool ∧ C.bits ≤ B.bits) ∨
      (B = .bool ∧ C = .bool)) :
    valueCaster B C (valueCaster A B x) = valueCaster A C x := by
  unfold valueCaster
  rcases h with hx | ⟨hB, hC, hw⟩ | ⟨rfl, rfl⟩
  · rw [staticCast_of_inRange hx]
  · exact staticCast_staticCast_of_bits_le hB hC hw x
  · exact staticCast_of_inRange (staticCast_inRange .bool x)

theorem valueCaster_comp_widening :
    (IntegralType.uint32.InRange (-70000) ∨
      (IntegralType.uint32 ≠ .bool ∧ IntegralType.int16 ≠ .bool ∧
        IntegralType.int16.bits ≤ IntegralType.uint32.bits) ∨
      (IntegralType.uint32 = .bool ∧ IntegralType.int16 = .bool)) ∧
    valueCaster .uint32 .int16 (valueCaster .int64 .uint32 (-70000)) =
      valueCaster .int64 .int16 (-70000) :=
  ⟨.inr (.inl ⟨by decide, by decide, by decide⟩),
    valueCaster_comp .int64 .uint32 .int16 (-70000) (.inr (.inl ⟨by decide, by decide, by decide⟩))⟩

/-- The value `300` of `uint16_t`, cast to `uint8_t` and back, comes back as `44`, while the
direct `uint16_t` to `uint16_t` cast keeps `300`. -/
theorem valueCaster_comp_narrowing :
    IntegralType.uint16.InRange 300 ∧
      valueCaster .uint8 .uint16 (valueCaster .uint16 .uint8 300) = 44 ∧
      valueCaster .uint16 .uint16 300 = 300 := by
  decide

end Libki.Pclass
