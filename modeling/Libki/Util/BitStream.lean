import Mathlib.Algebra.Group.Nat.Basic
/-! # The bit-level stream

`BitStream::write<T>(value, bits)` and `BitStream::read<T>(bits)` are the capability the
binary codec consumes; their source is not part of this tree. A stream is modelled by its
sequence of bits: a writer appends at its end, a reader consumes from its cursor and leaves
the bits after it. -/

namespace Libki

/-- The bit-stream contract of §6: reading `n` bits returns the `n`-bit value that the
matching write stored, and leaves the cursor right after those bits. -/
structure BitStream where
  /-- The bits `write<T>(value, n)` appends. -/
  encode : (n : Nat) → BitVec n → List Bool
  /-- `read<T>(n)`: the value of the next `n` bits, and the bits after them. -/
  read : (n : Nat) → List Bool → BitVec n × List Bool
  read_encode : ∀ n v rest, read n (encode n v ++ rest) = (v, rest)

namespace BitStream

/-- `write<T>(value, n)` on a stream holding the bits `s`. -/
def write (bs : BitStream) (n : Nat) (v : BitVec n) (s : List Bool) : List Bool :=
  s ++ bs.encode n v

/-! ## A stream that stores the low bit first -/

/-- The `n` low bits of `x`, least significant first. -/
def toBits : Nat → Nat → List Bool
  | 0, _ => []
  | n + 1, x => (x % 2 == 1) :: toBits n (x / 2)

/-- The number whose bits, least significant first, are `bs`. -/
def ofBits : List Bool → Nat
  | [] => 0
  | b :: bs => b.toNat + 2 * ofBits bs

@[simp] theorem toBits_length (n x : Nat) : (toBits n x).length = n := by
  induction n generalizing x with
  | zero => rfl
  | succ n ih => simp [toBits, ih]

theorem ofBits_toBits (n x : Nat) : ofBits (toBits n x) = x % 2 ^ n := by
  induction n generalizing x with
  | zero => simp [toBits, ofBits, Nat.mod_one]
  | succ n ih =>
      have hsplit : x % 2 ^ (n + 1) = x % 2 + 2 * (x / 2 % 2 ^ n) := by
        rw [Nat.pow_succ', Nat.mod_mul]
      rw [toBits, ofBits, ih, hsplit]
      cases Nat.mod_two_eq_zero_or_one x with
      | inl h => simp [h]
      | inr h => simp [h]

/-- A stream storing each value's bits from the least significant one up. -/
def lsbFirst : BitStream where
  encode n v := toBits n v.toNat
  read n s := (BitVec.ofNat n (ofBits (s.take n)), s.drop n)
  read_encode n v rest := by
    simp only [List.take_left' (toBits_length n v.toNat), List.drop_left' (toBits_length n v.toNat),
      ofBits_toBits, Nat.mod_eq_of_lt v.isLt, BitVec.ofNat_toNat, BitVec.setWidth_eq]

end BitStream

end Libki
