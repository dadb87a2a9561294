import Mathlib.Algebra.Group.Nat.Basic

/-! # A 16-bit value and its bytes in memory

`ValueBytes<T>` overlays a `T` with `char buff[sizeof(T)]`: the code writes `value` and reads
`buff`, or the other way round, so what it sees depends on the host. Its header is not
among the sources; from that use it is the host's memory layout of the value, and the host,
with its byte order and whether `char` is signed, is a parameter of everything here. -/

namespace Libki

/-- A byte of a stream or of an object's storage. -/
abbrev Byte := BitVec 8

/-- The order in which the host lays out the bytes of a multi-byte integer. -/
inductive ByteOrder where
  | little
  | big
  deriving DecidableEq, Repr

/-- What the code depends on of the machine it runs on. -/
structure Host where
  byteOrder : ByteOrder
  charIsSigned : Bool
  deriving DecidableEq, Repr

/-- The byte of weight `1` of a 16-bit value. -/
def lowByte (v : BitVec 16) : Byte := v.setWidth 8

/-- The byte of weight `256` of a 16-bit value. -/
def highByte (v : BitVec 16) : Byte := (v >>> 8).setWidth 8

/-- The 16-bit value with the given low and high bytes. -/
def ofBytes (lo hi : Byte) : BitVec 16 := hi ++ lo

/-- The two bytes of a 16-bit value, low byte first: the layout of the DML wire format. -/
def leBytes (v : BitVec 16) : List Byte := [lowByte v, highByte v]

@[simp] theorem toNat_lowByte (v : BitVec 16) : (lowByte v).toNat = v.toNat % 256 := by
  simp [lowByte]

@[simp] theorem toNat_highByte (v : BitVec 16) : (highByte v).toNat = v.toNat / 256 := by
  have := v.isLt
  simp only [highByte, BitVec.toNat_setWidth, BitVec.toNat_ushiftRight, Nat.shiftRight_eq_div_pow]
  omega

@[simp] theorem toNat_ofBytes (lo hi : Byte) : (ofBytes lo hi).toNat = lo.toNat + 256 * hi.toNat := by
  rw [ofBytes, BitVec.toNat_append, Nat.shiftLeft_eq, Nat.mul_comm, ← Nat.mul_add_lt_is_or lo.isLt]
  omega

@[simp] theorem ofBytes_lowByte_highByte (v : BitVec 16) : ofBytes (lowByte v) (highByte v) = v := by
  apply BitVec.eq_of_toNat_eq
  simp only [toNat_ofBytes, toNat_lowByte, toNat_highByte]
  omega

@[simp] theorem lowByte_ofBytes (lo hi : Byte) : lowByte (ofBytes lo hi) = lo := by
  apply BitVec.eq_of_toNat_eq
  have := lo.isLt
  simp only [toNat_lowByte, toNat_ofBytes]
  omega

@[simp] theorem highByte_ofBytes (lo hi : Byte) : highByte (ofBytes lo hi) = hi := by
  apply BitVec.eq_of_toNat_eq
  have := lo.isLt
  have := hi.isLt
  simp only [toNat_highByte, toNat_ofBytes]
  omega

/-- The 16-bit value with its two bytes exchanged: what a host of the other byte order reads
from the same two bytes. -/
def swapBytes (v : BitVec 16) : BitVec 16 := ofBytes (highByte v) (lowByte v)

theorem leBytes_swapBytes (v : BitVec 16) : leBytes (swapBytes v) = (leBytes v).reverse := by
  simp [swapBytes, leBytes]

/-- `ValueBytes<USHRT>`: `buff[0]` and `buff[1]`, in memory order. -/
structure ValueBytes where
  b0 : Byte
  b1 : Byte
  deriving DecidableEq, Repr

namespace ValueBytes

/-- Assigning `value` on a host of byte order `o`. -/
def ofValue (o : ByteOrder) (v : BitVec 16) : ValueBytes :=
  match o with
  | .little => ⟨lowByte v, highByte v⟩
  | .big => ⟨highByte v, lowByte v⟩

/-- Reading `value` on a host of byte order `o`. -/
def value (o : ByteOrder) (d : ValueBytes) : BitVec 16 :=
  match o with
  | .little => ofBytes d.b0 d.b1
  | .big => ofBytes d.b1 d.b0

/-- `std::reverse(&buff[0], &buff[2])`. -/
def reverse (d : ValueBytes) : ValueBytes := ⟨d.b1, d.b0⟩

/-- `buff`. -/
def buff (d : ValueBytes) : List Byte := [d.b0, d.b1]

/-- The buffer holding the first two bytes of `l`. -/
def ofBuff (l : List Byte) : ValueBytes := ⟨l.getD 0 0, l.getD 1 0⟩

@[simp] theorem value_ofValue (o : ByteOrder) (v : BitVec 16) : (ofValue o v).value o = v := by
  cases o <;> simp [ofValue, value]

@[simp] theorem ofBuff_buff (d : ValueBytes) : ofBuff d.buff = d := rfl

@[simp] theorem length_buff (d : ValueBytes) : d.buff.length = 2 := rfl

@[simp] theorem value_big_reverse (d : ValueBytes) : d.reverse.value .big = d.value .little := rfl

/-- The bytes of a value in memory are its wire bytes, in the host's order. -/
theorem buff_ofValue (o : ByteOrder) (v : BitVec 16) :
    (ofValue o v).buff = if o = .big then (leBytes v).reverse else leBytes v := by
  cases o <;> rfl

/-- `endianness_check.buff[0] == 0x01` after `endianness_check.value = 0x0102`: the test
`read_from` makes for a big-endian host. -/
theorem ofValue_endiannessCheck (o : ByteOrder) :
    ((ofValue o 0x0102).b0 == 0x01) = (o == .big) := by
  cases o <;> decide

end ValueBytes

/-- The integer a `char` holds, as it takes part in an arithmetic comparison. -/
def charValue (h : Host) (b : Byte) : Int := if h.charIsSigned then b.toInt else b.toNat

/-- The conversion of an `int` to `size_t` in a comparison with a `size_t`. -/
def sizeT (x : Int) : Nat := (x % ((2 ^ 64 : Nat) : Int)).toNat

/-- A `char` equals a `size_t` below `256` exactly when it holds that number as a byte and
is not negative. -/
theorem sizeT_charValue_eq {h : Host} {b : Byte} {n : Nat} (hn : n < 256) :
    sizeT (charValue h b) = n ↔ b.toNat = n ∧ ¬(h.charIsSigned = true ∧ 128 ≤ b.toNat) := by
  have hb := b.isLt
  unfold sizeT charValue
  split
  · rw [BitVec.toInt_eq_toNat_cond]
    split <;> simp_all <;> omega
  · simp_all
    omega

end Libki
