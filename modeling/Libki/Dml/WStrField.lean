import Libki.Util.ValueBytes

/-! # DML wide-string fields

A `WSTR` field is written as a 16-bit length and then the code units. `write_to` puts the
length low byte first: it swaps the bytes of `ValueBytes<USHRT>` when `buff[0]` equals the
length's high byte, which on a big-endian host is the case unless `char` is signed and that
byte is `0x80` or more. It writes the code units from memory, in the host's order.
`read_from` reads the length and every code unit low byte first on either host, and keeps
the code units up to the first zero one. -/

namespace Libki.Dml

/-- `char16_t`, a UTF-16 code unit. -/
abbrev CodeUnit := BitVec 16

/-- `WSTR`, a `std::u16string`. -/
abbrev WSTR := List CodeUnit

/-- `WStrField::get_size`: `sizeof(USHRT) + length * sizeof(char16_t)`. -/
def getSize (value : WSTR) : Nat := 2 + value.length * 2

/-- `data.buff[0] == ((length & 0xFF00) >> 8)` in `write_to`. -/
def highByteMatches (h : Host) (b : Byte) (length : Nat) : Bool :=
  sizeT (charValue h b) == (length &&& 0xFF00) >>> 8

/-- `WStrField::write_to`: the bytes it appends to the stream. -/
def writeTo (h : Host) (value : WSTR) : List Byte :=
  let data := ValueBytes.ofValue h.byteOrder (BitVec.ofNat 16 value.length)
  let data := if highByteMatches h data.b0 value.length then data.reverse else data
  data.buff ++ value.flatMap fun u => (ValueBytes.ofValue h.byteOrder u).buff

/-- `istream.read(buff, n)`: the first bytes of the buffer are overwritten by what the
stream still has, at most `n` bytes, and the rest of the buffer stays as it was. Returns the
buffer and what is left of the stream. -/
def istreamRead (buff : List Byte) (n : Nat) (s : List Byte) : List Byte × List Byte :=
  (s.take n ++ buff.drop (s.take n).length, s.drop n)

/-- The loop of `read_from` that reverses each two-byte group. -/
def reversePairs : List Byte → List Byte
  | b0 :: b1 :: rest => b1 :: b0 :: reversePairs rest
  | l => l

/-- `(char16_t *) data`: the code units of a buffer, on a host of byte order `o`. -/
def units (o : ByteOrder) : List Byte → List CodeUnit
  | b0 :: b1 :: rest => ValueBytes.value o ⟨b0, b1⟩ :: units o rest
  | _ => []

/-- `WSTR((char16_t *) data)`: the code units before the first zero one. -/
def cString (us : List CodeUnit) : WSTR := us.takeWhile (· != 0)

/-- `WStrField::read_from` on the host `h`, where `lengthData` is what the uninitialised
`length_data` holds before the read. Returns `m_value` and what is left of the stream. -/
def readFrom (h : Host) (lengthData : ValueBytes) (s : List Byte) : WSTR × List Byte :=
  let bigEndian := (ValueBytes.ofValue h.byteOrder 0x0102).b0 == 0x01
  let (buff, s) := istreamRead lengthData.buff 2 s
  let lengthData := ValueBytes.ofBuff buff
  let lengthData := if bigEndian then lengthData.reverse else lengthData
  let length := (lengthData.value h.byteOrder).toNat * 2
  let (data, s) := istreamRead (List.replicate (length + 2) 0) length s
  let data := if bigEndian then reversePairs (data.take length) ++ data.drop length else data
  (cString (units h.byteOrder data), s)

/-! ## The bytes of a string -/

/-- `(length & 0xFF00) >> 8` is the length's second byte. -/
theorem land_shiftRight_eq (n : Nat) : (n &&& 0xFF00) >>> 8 = n / 256 % 256 := by
  apply Nat.eq_of_testBit_eq
  intro j
  have hm : (0xFF00 : Nat) = 2 ^ 8 * (2 ^ 8 - 1) := rfl
  have hd : n / 256 = n >>> 8 := (Nat.shiftRight_eq_div_pow n 8).symm
  rw [hm, hd, show (256 : Nat) = 2 ^ 8 from rfl, Nat.testBit_shiftRight, Nat.testBit_and,
    Nat.testBit_mul_pow_two, Nat.testBit_mod_two_pow, Nat.testBit_shiftRight,
    Nat.testBit_two_pow_sub_one]
  by_cases hj : j < 8 <;> simp [hj, Bool.and_comm, Nat.add_sub_cancel_left]

theorem highByte_length (n : Nat) : (highByte (BitVec.ofNat 16 n)).toNat = n / 256 % 256 := by
  simp only [toNat_highByte, BitVec.toNat_ofNat]
  omega

/-- The test of `write_to` holds when the byte is the length's high byte and, on a host
whose `char` is signed, below `0x80`. -/
theorem highByteMatches_iff (h : Host) (b : Byte) (n : Nat) :
    highByteMatches h b n = true ↔
      b.toNat = n / 256 % 256 ∧ ¬(h.charIsSigned = true ∧ 128 ≤ b.toNat) := by
  rw [highByteMatches, land_shiftRight_eq, beq_iff_eq, sizeT_charValue_eq (Nat.mod_lt _ (by decide))]

theorem length_flatMap_of_two {f : CodeUnit → List Byte} (hf : ∀ u, (f u).length = 2)
    (us : WSTR) : (us.flatMap f).length = us.length * 2 := by
  induction us with
  | nil => rfl
  | cons u us ih =>
      simp only [List.flatMap_cons, List.length_append, hf, ih, List.length_cons]
      omega

/-- `get_size()` is the number of bytes `write_to` emits, on every host. -/
theorem writeTo_length (h : Host) (value : WSTR) : (writeTo h value).length = getSize value := by
  have hu := length_flatMap_of_two
    (fun u => ValueBytes.length_buff (ValueBytes.ofValue h.byteOrder u)) value
  simp only [writeTo, List.length_append, hu, getSize]
  split <;> rfl

/-- On a little-endian host the swap in `write_to` happens only when both bytes of the
length are equal, so the length goes out low byte first, and so does every code unit. -/
theorem writeTo_little {h : Host} (hl : h.byteOrder = .little) (value : WSTR) :
    writeTo h value = leBytes (BitVec.ofNat 16 value.length) ++ value.flatMap leBytes := by
  have hv : ∀ v, ValueBytes.ofValue h.byteOrder v = ⟨lowByte v, highByte v⟩ := by
    simp [ValueBytes.ofValue, hl]
  have hu : (fun u => (ValueBytes.ofValue h.byteOrder u).buff) = leBytes := by
    funext u; rw [hv]; rfl
  simp only [writeTo, hu]
  simp only [hv]
  split
  · rename_i hm
    rw [highByteMatches_iff, ← highByte_length] at hm
    rw [ValueBytes.reverse, leBytes, BitVec.eq_of_toNat_eq hm.1]
    rfl
  · rfl

/-- On a big-endian host `write_to` emits every code unit high byte first. The length goes
out low byte first, unless `char` is signed and the length's high byte is `0x80` or more. -/
theorem writeTo_big {h : Host} (hb : h.byteOrder = .big) (value : WSTR) :
    writeTo h value =
      (if h.charIsSigned = true ∧ 128 ≤ value.length / 256 % 256 then
        (leBytes (BitVec.ofNat 16 value.length)).reverse
      else leBytes (BitVec.ofNat 16 value.length)) ++
        value.flatMap fun u => (leBytes u).reverse := by
  have hv : ∀ v, ValueBytes.ofValue h.byteOrder v = ⟨highByte v, lowByte v⟩ := by
    simp [ValueBytes.ofValue, hb]
  have hm : highByteMatches h (highByte (BitVec.ofNat 16 value.length)) value.length = true ↔
      ¬(h.charIsSigned = true ∧ 128 ≤ value.length / 256 % 256) := by
    rw [highByteMatches_iff, highByte_length, and_iff_right rfl]
  simp only [writeTo, hv]
  by_cases hc : h.charIsSigned = true ∧ 128 ≤ value.length / 256 % 256
  · rw [if_neg (fun hm' => hm.mp hm' hc), if_pos hc]
    rfl
  · rw [if_pos (hm.mpr hc), if_neg hc]
    rfl

theorem writeTo_big_sample :
    (⟨.big, true⟩ : Host).byteOrder = .big ∧
      writeTo ⟨.big, true⟩ [0x0041] =
        (if (⟨.big, true⟩ : Host).charIsSigned = true ∧ 128 ≤ [(0x0041 : CodeUnit)].length / 256 % 256 then
          (leBytes (BitVec.ofNat 16 [(0x0041 : CodeUnit)].length)).reverse
        else leBytes (BitVec.ofNat 16 [(0x0041 : CodeUnit)].length)) ++
          [(0x0041 : CodeUnit)].flatMap fun u => (leBytes u).reverse :=
  ⟨rfl, writeTo_big rfl [0x0041]⟩

/-- On a big-endian host whose length goes out low byte first, `write_to` emits what a
little-endian host emits for the string with the bytes of every unit exchanged. -/
theorem writeTo_big_eq_swap {h : Host} (hb : h.byteOrder = .big) (value : WSTR)
    (hc : ¬(h.charIsSigned = true ∧ 128 ≤ value.length / 256 % 256)) :
    writeTo h value =
      leBytes (BitVec.ofNat 16 value.length) ++ (value.map swapBytes).flatMap leBytes := by
  have hv : ∀ v, ValueBytes.ofValue h.byteOrder v = ⟨highByte v, lowByte v⟩ := by
    simp [ValueBytes.ofValue, hb]
  have hm : highByteMatches h (highByte (BitVec.ofNat 16 value.length)) value.length = true := by
    rw [highByteMatches_iff, highByte_length]
    exact ⟨rfl, hc⟩
  simp only [writeTo, hv, hm, if_true, List.flatMap_map, Function.comp_def, leBytes_swapBytes]
  rfl

/-- A big-endian host writes the code unit `A` as `00 41`, and a reader on either host takes
it for U+4100. -/
theorem writeTo_big_unit_order :
    writeTo ⟨.big, false⟩ [0x0041] = [0x01, 0x00, 0x00, 0x41] ∧
      readFrom ⟨.little, false⟩ ⟨0, 0⟩ (writeTo ⟨.big, false⟩ [0x0041]) = ([0x4100], []) ∧
      readFrom ⟨.big, false⟩ ⟨0, 0⟩ (writeTo ⟨.big, false⟩ [0x0041]) = ([0x4100], []) := by
  decide

/-! ## Reading a string -/

@[simp] theorem units_cons_cons (o : ByteOrder) (b0 b1 : Byte) (rest : List Byte) :
    units o (b0 :: b1 :: rest) = ValueBytes.value o ⟨b0, b1⟩ :: units o rest := rfl

theorem units_append (o : ByteOrder) {a : List Byte} (ha : a.length % 2 = 0) (b : List Byte) :
    units o (a ++ b) = units o a ++ units o b := by
  induction a using units.induct o with
  | case1 b0 b1 rest ih =>
      simp only [List.cons_append, units_cons_cons, ih (by simp at ha; omega)]
  | case2 l hl =>
      match l, hl with
      | [], _ => rfl
      | [_], _ => simp at ha
      | _ :: _ :: _, hl => exact absurd rfl (hl _ _ _)

theorem units_flatMap_leBytes (us : WSTR) : units .little (us.flatMap leBytes) = us := by
  induction us with
  | nil => rfl
  | cons u us ih => simp [leBytes, ValueBytes.value, ih]

theorem length_reversePairs (l : List Byte) : (reversePairs l).length = l.length := by
  induction l using reversePairs.induct with
  | case1 b0 b1 rest ih => simp [reversePairs, ih]
  | case2 l hl => rw [reversePairs.eq_2 l hl]

/-- A big-endian host reading the reversed groups sees the units a little-endian one reads. -/
theorem units_big_reversePairs (l : List Byte) : units .big (reversePairs l) = units .little l := by
  induction l using reversePairs.induct with
  | case1 b0 b1 rest ih => simp [reversePairs, ih, ValueBytes.value]
  | case2 l hl =>
      rw [reversePairs.eq_2 l hl]
      match l, hl with
      | [], _ => rfl
      | [_], _ => rfl
      | _ :: _ :: _, hl => exact absurd rfl (hl _ _ _)

@[simp] theorem units_zero_pair (o : ByteOrder) : units o [0, 0] = [0] := by
  cases o <;> rfl

theorem length_units (o : ByteOrder) (l : List Byte) : (units o l).length = l.length / 2 := by
  induction l using units.induct o with
  | case1 b0 b1 rest ih => simp only [units_cons_cons, List.length_cons, ih]; omega
  | case2 l hl =>
      match l, hl with
      | [], _ => rfl
      | [_], _ => simp [units]
      | _ :: _ :: _, hl => exact absurd rfl (hl _ _ _)

theorem cString_append_zero_cons (us rest : WSTR) : cString (us ++ 0 :: rest) = cString us := by
  induction us with
  | nil => rfl
  | cons u us ih =>
      by_cases hu : u = 0
      · simp [cString, hu]
      · simp only [cString] at ih ⊢
        simp only [List.cons_append, List.takeWhile_cons, hu, bne_iff_ne, ne_eq,
          not_false_eq_true, if_true, ih]

theorem cString_append_zero (us : WSTR) : cString (us ++ [0]) = cString us :=
  cString_append_zero_cons us []

theorem zero_not_mem_cString (us : WSTR) : 0 ∉ cString us := fun hm => by
  simpa using List.all_eq_true.mp List.all_takeWhile 0 hm

theorem length_cString_le (us : WSTR) : (cString us).length ≤ us.length :=
  (List.takeWhile_sublist _).length_le

/-- A buffer of zeros holds the empty string. -/
theorem cString_units_replicate_zero (o : ByteOrder) (k : Nat) :
    cString (units o (List.replicate k 0)) = [] := by
  match k with
  | 0 | 1 => rfl
  | k + 2 => cases o <;> rfl

/-- The buffer `read_from` fills: what the stream has of the `n` bytes asked for, then the
zeros it was initialised with. -/
theorem istreamRead_replicate (n : Nat) (s : List Byte) :
    istreamRead (List.replicate (n + 2) 0) n s =
      (s.take n ++ List.replicate (n + 2 - (s.take n).length) 0, s.drop n) := by
  simp [istreamRead]

theorem take_buffer {n : Nat} (t : List Byte) (ht : t.length ≤ n) :
    (t ++ List.replicate (n + 2 - t.length) 0).take n = t ++ List.replicate (n - t.length) 0 := by
  rw [List.take_append_eq_append_take, List.take_of_length_le ht, List.take_replicate]
  congr 2
  omega

theorem drop_buffer {n : Nat} (t : List Byte) (ht : t.length ≤ n) :
    (t ++ List.replicate (n + 2 - t.length) 0).drop n = [0, 0] := by
  rw [List.drop_append_eq_append_drop, List.drop_eq_nil_of_le ht, List.drop_replicate]
  simp only [List.nil_append, show n + 2 - t.length - (n - t.length) = 2 by omega]
  rfl

@[simp] theorem istreamRead_snd (buff : List Byte) (n : Nat) (s : List Byte) :
    (istreamRead buff n s).2 = s.drop n := rfl

/-- What `read_from` does on every host: it reads a length `m` low byte first, asks for
`2 m` bytes, and decodes what the stream has of them, padded with zeros, as code units low
byte first, up to the first zero one. A big-endian host reverses each byte pair and then
reads its units high byte first, which comes to the same. -/
theorem readFrom_eq (h : Host) (lengthData : ValueBytes) (s : List Byte) :
    let n := ((ValueBytes.ofBuff (istreamRead lengthData.buff 2 s).1).value .little).toNat * 2
    let t := (s.drop 2).take n
    readFrom h lengthData s =
      (cString (units .little (t ++ List.replicate (n - t.length) 0)), (s.drop 2).drop n) := by
  obtain ⟨o, c⟩ := h
  cases o <;>
    simp only [readFrom, ValueBytes.ofValue_endiannessCheck, istreamRead_replicate,
      istreamRead_snd, beq_iff_eq, reduceCtorEq, if_true, if_false,
      ValueBytes.value_big_reverse] <;>
    generalize (ValueBytes.value .little _).toNat = m <;>
    have ht := List.length_take_le (m * 2) (s.drop 2) <;>
    generalize (s.drop 2).take (m * 2) = t at ht ⊢ <;>
    have hA : (t ++ List.replicate (m * 2 - t.length) 0).length % 2 = 0 := by
      simp only [List.length_append, List.length_replicate]; omega
  case little =>
    rw [← List.take_append_drop (m * 2) (t ++ _), take_buffer t ht, drop_buffer t ht,
      units_append _ hA, units_zero_pair, cString_append_zero]
  case big =>
    rw [take_buffer t ht, drop_buffer t ht, units_append _ (by rwa [length_reversePairs]),
      units_big_reversePairs, units_zero_pair, cString_append_zero]

/-- `read_from` decodes the same on every host, whatever its byte order and whether its
`char` is signed, from every stream and whatever `length_data` held. -/
theorem readFrom_host (h h' : Host) (lengthData : ValueBytes) (s : List Byte) :
    readFrom h lengthData s = readFrom h' lengthData s :=
  (readFrom_eq h lengthData s).trans (readFrom_eq h' lengthData s).symm

theorem istreamRead_leBytes (d : ValueBytes) (n : BitVec 16) (s : List Byte) :
    istreamRead d.buff 2 (leBytes n ++ s) = (leBytes n, s) := rfl

@[simp] theorem value_ofBuff_leBytes (n : BitVec 16) :
    (ValueBytes.ofBuff (leBytes n)).value .little = n := by
  simp [ValueBytes.ofBuff, leBytes, ValueBytes.value]

/-- The reader's side of the format: on every host, whatever `length_data` held,
`read_from` takes a length `n` low byte first and `n` code units low byte first, keeps the
units before the first zero one, and leaves the stream just after them. -/
theorem readFrom_leBytes (h : Host) (lengthData : ValueBytes) (n : BitVec 16) (us : WSTR)
    (hn : us.length = n.toNat) (rest : List Byte) :
    readFrom h lengthData (leBytes n ++ (us.flatMap leBytes ++ rest)) = (cString us, rest) := by
  have hl : (us.flatMap leBytes).length = n.toNat * 2 := by
    rw [@length_flatMap_of_two leBytes (fun _ => rfl) us, hn]
  have hd : (leBytes n ++ (us.flatMap leBytes ++ rest)).drop 2 = us.flatMap leBytes ++ rest := rfl
  rw [readFrom_eq]
  simp only [istreamRead_leBytes, value_ofBuff_leBytes, hd, List.take_left' hl,
    List.drop_left' hl, hl, Nat.sub_self, List.replicate_zero, List.append_nil,
    units_flatMap_leBytes]

/-- Whatever the stream and whatever `length_data` held, the value `read_from` sets has no
U+0000 and at most 65535 code units. -/
theorem readFrom_value (h : Host) (lengthData : ValueBytes) (s : List Byte) :
    0 ∉ (readFrom h lengthData s).1 ∧ (readFrom h lengthData s).1.length ≤ 65535 := by
  rw [readFrom_eq]
  refine ⟨zero_not_mem_cString _, ?_⟩
  generalize ValueBytes.value .little _ = v
  calc (cString _).length ≤ (units .little _).length := length_cString_le _
    _ = v.toNat := by
      rw [length_units]
      simp only [List.length_append, List.length_replicate, List.length_take]
      omega
    _ ≤ 65535 := by have := v.isLt; omega

/-! ## Round trips -/

theorem cString_of_not_mem {us : WSTR} (h0 : 0 ∉ us) : cString us = us := by
  induction us with
  | nil => rfl
  | cons u us ih =>
      simp only [List.mem_cons, not_or] at h0
      have hu : (u != 0) = true := bne_iff_ne.mpr (Ne.symm h0.1)
      simp only [cString] at ih ⊢
      simp only [List.takeWhile_cons, hu, if_true, ih h0.2]

/-- On a little-endian host, from what `write_to` emitted for `value`, `read_from` gets
back the first `|value| mod 65536` code units up to the first zero one, and leaves the
units past those in the stream. -/
theorem readFrom_writeTo_little_eq {h : Host} (hl : h.byteOrder = .little)
    (lengthData : ValueBytes) (value : WSTR) (rest : List Byte) :
    readFrom h lengthData (writeTo h value ++ rest) =
      (cString (value.take (value.length % 65536)),
        (value.drop (value.length % 65536)).flatMap leBytes ++ rest) := by
  have hsplit : value.flatMap leBytes = (value.take (value.length % 65536)).flatMap leBytes ++
      (value.drop (value.length % 65536)).flatMap leBytes := by
    rw [← List.flatMap_append, List.take_append_drop]
  rw [writeTo_little hl, hsplit, List.append_assoc, List.append_assoc,
    readFrom_leBytes h lengthData _ _ (by simp; omega)]

/-- On a little-endian host, for a string of at most 65535 code units and no U+0000,
`read_from` on what `write_to` emitted restores the string and consumes exactly the
`get_size()` bytes that `write_to` emitted. -/
theorem readFrom_writeTo_little {h : Host} (hl : h.byteOrder = .little)
    (lengthData : ValueBytes) (value : WSTR) (hs : value.length ≤ 65535) (h0 : 0 ∉ value)
    (rest : List Byte) :
    readFrom h lengthData (writeTo h value ++ rest) = (value, rest) ∧
      (writeTo h value).length = getSize value := by
  refine ⟨?_, writeTo_length h value⟩
  rw [readFrom_writeTo_little_eq hl, Nat.mod_eq_of_lt (by omega), List.take_length,
    List.drop_length, cString_of_not_mem h0]
  rfl

theorem readFrom_writeTo_little_sample :
    (⟨.little, true⟩ : Host).byteOrder = .little ∧ ([0x41, 0x42] : WSTR).length ≤ 65535 ∧
      (0 : CodeUnit) ∉ ([0x41, 0x42] : WSTR) ∧
      (readFrom ⟨.little, true⟩ ⟨0, 0⟩ (writeTo ⟨.little, true⟩ [0x41, 0x42] ++ [7]) =
          ([0x41, 0x42], [7]) ∧
        (writeTo ⟨.little, true⟩ [0x41, 0x42]).length = getSize [0x41, 0x42]) :=
  ⟨rfl, by decide, by decide,
    readFrom_writeTo_little rfl ⟨0, 0⟩ [0x41, 0x42] (by decide) (by decide) [7]⟩

/-- On a little-endian host, the string `A`, U+0000 comes back from `read_from` as `A`. -/
theorem readFrom_writeTo_embedded_zero :
    readFrom ⟨.little, true⟩ ⟨0, 0⟩ (writeTo ⟨.little, true⟩ [0x41, 0]) = ([0x41], []) := by
  decide

/-- What a little-endian host writes, a host of either byte order reads back. -/
theorem readFrom_writeTo_cross {h : Host} (hl : h.byteOrder = .little) (h' : Host)
    (lengthData : ValueBytes) (value : WSTR) (hs : value.length ≤ 65535) (h0 : 0 ∉ value)
    (rest : List Byte) :
    readFrom h' lengthData (writeTo h value ++ rest) = (value, rest) := by
  rw [writeTo_little hl, List.append_assoc,
    readFrom_leBytes h' lengthData _ value (by simp; omega), cString_of_not_mem h0]

theorem readFrom_writeTo_cross_sample :
    (⟨.little, true⟩ : Host).byteOrder = .little ∧ ([0x41, 0x142] : WSTR).length ≤ 65535 ∧
      (0 : CodeUnit) ∉ ([0x41, 0x142] : WSTR) ∧
      readFrom ⟨.big, false⟩ ⟨0, 0⟩ (writeTo ⟨.little, true⟩ [0x41, 0x142] ++ []) =
        ([0x41, 0x142], []) :=
  ⟨rfl, by decide, by decide,
    readFrom_writeTo_cross rfl ⟨.big, false⟩ ⟨0, 0⟩ [0x41, 0x142] (by decide) (by decide) []⟩

/-- What a big-endian host writes, a host of either byte order reads back with the two bytes
of every code unit exchanged, up to the first unit that then reads as zero, and leaves the
stream just after it. This holds for every string of at most 65535 units whose length goes out
low byte first: always when `char` is unsigned, and below 32768 units when it is signed. -/
theorem readFrom_writeTo_big {h : Host} (hb : h.byteOrder = .big) (h' : Host)
    (lengthData : ValueBytes) (value : WSTR) (hs : value.length ≤ 65535)
    (hc : ¬(h.charIsSigned = true ∧ 128 ≤ value.length / 256 % 256)) (rest : List Byte) :
    readFrom h' lengthData (writeTo h value ++ rest) = (cString (value.map swapBytes), rest) := by
  rw [writeTo_big_eq_swap hb value hc, List.append_assoc,
    readFrom_leBytes h' lengthData _ _ (by rw [List.length_map, BitVec.toNat_ofNat]; omega)]

theorem readFrom_writeTo_big_sample :
    (⟨.big, false⟩ : Host).byteOrder = .big ∧ ([0x41, 0x142] : WSTR).length ≤ 65535 ∧
      ¬((⟨.big, false⟩ : Host).charIsSigned = true ∧
        128 ≤ ([0x41, 0x142] : WSTR).length / 256 % 256) ∧
      readFrom ⟨.little, false⟩ ⟨0, 0⟩ (writeTo ⟨.big, false⟩ [0x41, 0x142] ++ [7]) =
        (cString (([0x41, 0x142] : WSTR).map swapBytes), [7]) :=
  ⟨rfl, by decide, by decide,
    readFrom_writeTo_big rfl ⟨.little, false⟩ ⟨0, 0⟩ [0x41, 0x142] (by decide) (by decide) [7]⟩

/-! ## A stream cut short

A reader that gets fewer bytes than the length asks for keeps the zeros its buffer was
initialised with. When the cut falls just before a zero byte of what a little-endian host
wrote, those zeros stand in for that byte and for every one after it. -/

theorem take_flatMap_leBytes (us : WSTR) (q : Nat) :
    (us.flatMap leBytes).take (2 * q) = (us.take q).flatMap leBytes := by
  induction us generalizing q with
  | nil => simp
  | cons u us ih =>
      cases q with
      | zero => rfl
      | succ q =>
          rw [show 2 * (q + 1) = 2 * q + 2 by omega]
          simp [leBytes, ih]

theorem units_replicate_zero (o : ByteOrder) (m : Nat) :
    units o (List.replicate (2 * m) 0) = List.replicate m 0 := by
  induction m with
  | zero => rfl
  | succ m ih =>
      rw [show 2 * (m + 1) = 2 * m + 1 + 1 by omega, List.replicate_succ, List.replicate_succ,
        units_cons_cons, ih]
      cases o <;> rfl

theorem cString_append_replicate (us : WSTR) (m : Nat) :
    cString (us ++ List.replicate m 0) = cString us := by
  cases m with
  | zero => rw [List.replicate_zero, List.append_nil]
  | succ m => rw [List.replicate_succ, cString_append_zero_cons]

/-- Zeros after a cut absorb a zero byte at the cut. -/
theorem take_append_replicate {l : List Byte} {i : Nat} (h : l[i]? = some 0) (m : Nat) :
    l.take i ++ List.replicate (m + 1) 0 = l.take (i + 1) ++ List.replicate m 0 := by
  rw [List.take_succ, h, List.replicate_succ]
  simp

/-- What `read_from` sets from the bytes a little-endian host writes for `value`, cut just
before a zero byte at position `k`: the units whose bytes all come before the cut, as the
buffer's zeros stand in for the zero byte and for every byte after it. -/
theorem readFrom_take_writeTo {h : Host} (hl : h.byteOrder = .little) (lengthData : ValueBytes)
    (value : WSTR) (hs : value.length ≤ 65535) (h0 : 0 ∉ value) {k : Nat}
    (hz : (writeTo h value)[k]? = some 0) :
    (readFrom h lengthData ((writeTo h value).take k)).1 = value.take ((k - 1) / 2) := by
  rw [writeTo_little hl] at hz ⊢
  have hL : (BitVec.ofNat 16 value.length).toNat = value.length := by
    rw [BitVec.toNat_ofNat]; omega
  have hB : (value.flatMap leBytes).length = value.length * 2 :=
    @length_flatMap_of_two leBytes (fun _ => rfl) value
  rcases Nat.lt_or_ge k 2 with hk | hk
  · have hd : ((leBytes (BitVec.ofNat 16 value.length) ++ value.flatMap leBytes).take k).drop 2 =
        [] := List.drop_eq_nil_of_le (by simp; omega)
    rw [readFrom_eq]
    simp only [hd, List.take_nil, List.length_nil, Nat.sub_zero, List.nil_append,
      cString_units_replicate_zero, show (k - 1) / 2 = 0 by omega, List.take_zero]
  · obtain ⟨i, rfl⟩ : ∃ i, k = i + 2 := ⟨k - 2, by omega⟩
    have hz' : (value.flatMap leBytes)[i]? = some 0 := by
      simpa [List.getElem?_append_right, leBytes] using hz
    have hi : i < value.length * 2 := by
      rw [← hB]; exact (List.getElem?_eq_some_iff.mp hz').1
    have hp : (leBytes (BitVec.ofNat 16 value.length) ++ value.flatMap leBytes).take (i + 2) =
        leBytes (BitVec.ofNat 16 value.length) ++ (value.flatMap leBytes).take i := rfl
    have hd : (leBytes (BitVec.ofNat 16 value.length) ++ (value.flatMap leBytes).take i).drop 2 =
        (value.flatMap leBytes).take i := rfl
    have hq : (value.flatMap leBytes).take i ++ List.replicate (value.length * 2 - i) 0 =
        (value.take ((i + 1) / 2)).flatMap leBytes ++
          List.replicate (2 * (value.length - (i + 1) / 2)) 0 := by
      obtain ⟨j, rfl | rfl⟩ : ∃ j, i = 2 * j ∨ i = 2 * j + 1 := ⟨i / 2, by omega⟩
      · rw [take_flatMap_leBytes, show (2 * j + 1) / 2 = j by omega,
          show value.length * 2 - 2 * j = 2 * (value.length - j) by omega]
      · rw [show value.length * 2 - (2 * j + 1) = (2 * (value.length - (j + 1))) + 1 by omega,
          take_append_replicate hz', show 2 * j + 1 + 1 = 2 * (j + 1) by omega,
          take_flatMap_leBytes, show (2 * (j + 1)) / 2 = j + 1 by omega]
    rw [hp, readFrom_eq]
    simp only [istreamRead_leBytes, value_ofBuff_leBytes, hL, hd, List.take_take,
      List.length_take, hB, Nat.min_eq_left (Nat.le_of_lt hi), Nat.min_eq_right (Nat.le_of_lt hi), hq]
    rw [units_append _ (by rw [@length_flatMap_of_two leBytes (fun _ => rfl)]; omega),
      units_flatMap_leBytes, units_replicate_zero, cString_append_replicate,
      cString_of_not_mem (fun hm => h0 (List.mem_of_mem_take hm)), show i + 2 - 1 = i + 1 by omega]

end Libki.Dml
