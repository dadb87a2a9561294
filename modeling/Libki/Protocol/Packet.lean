import Libki.Dml.ValueString

/-! # Packet payloads

A `Packet` carries its payload as a byte vector. `get_payload_data<DataT>` builds the stream
it decodes from `m_payload.data()` read as a C string, so the decoder sees the payload only
up to its first zero byte, and, if the payload has none, the memory after it up to the next
one. A payload written by a `WStrField` of fewer than 256 code units has a zero byte second:
its decoder is left with the low byte of the length alone. -/

namespace Libki.Protocol

open Dml

/-- `util::Serializable`: what `Packet` uses of a payload type. `empty` is the object of
`DataT()`, on which `readFrom` is called, and `readFrom` returns the object it leaves and
what is left of the stream. -/
structure Serializable (DataT : Type) where
  writeTo : DataT → List Byte
  readFrom : DataT → List Byte → DataT × List Byte
  getSize : DataT → Nat
  empty : DataT

/-- A `Packet` with the payload it holds. -/
structure Packet where
  payload : List Byte
  deriving DecidableEq, Repr

/-- `std::string(const char *)`: the bytes before the first zero one. -/
def cStr (bytes : List Byte) : List Byte := bytes.takeWhile (· != 0)

/-- `set_payload_data<DataT>(data)` as it intends: the payload is the first `get_size()`
bytes that `data.write_to` emitted. The call `std::vector<char>(oss.str().c_str(), size)` it
makes to that end matches no constructor of `std::vector`, so the template is only read
for its intent. -/
def Packet.setPayloadData {DataT : Type} (S : Serializable DataT) (data : DataT) : Packet :=
  ⟨(S.writeTo data).take (S.getSize data)⟩

/-- `get_payload_data<DataT>()`: `read_from` on a new `DataT` from
`std::istringstream iss(m_payload.data())`. `following` is the memory after the payload, which
the C string runs into when the payload has no zero byte. -/
def Packet.getPayloadData {DataT : Type} (S : Serializable DataT) (p : Packet)
    (following : List Byte) : DataT :=
  (S.readFrom S.empty (cStr (p.payload ++ following))).1

theorem cStr_append_of_zero_mem {l : List Byte} (h0 : 0 ∈ l) (m : List Byte) :
    cStr (l ++ m) = cStr l := by
  induction l with
  | nil => cases h0
  | cons b l ih =>
      by_cases hb : b = 0
      · simp [cStr, hb]
      · have hl : 0 ∈ l := (List.mem_cons.mp h0).resolve_left (Ne.symm hb)
        have hb' : (b != 0) = true := bne_iff_ne.mpr hb
        simp only [cStr] at ih ⊢
        simp only [List.cons_append, List.takeWhile_cons, hb', if_true, ih hl]

/-- A C string is a prefix of the bytes it is read from. -/
theorem cStr_eq_take (l : List Byte) : cStr l = l.take (cStr l).length :=
  List.prefix_iff_eq_take.mp (List.takeWhile_prefix _)

/-- The byte that ends a C string read from bytes holding a zero is a zero. -/
theorem getElem?_length_cStr {l : List Byte} (h0 : 0 ∈ l) : l[(cStr l).length]? = some 0 := by
  induction l with
  | nil => cases h0
  | cons b l ih =>
      by_cases hb : b = 0
      · simp [cStr, hb]
      · have hb' : (b != 0) = true := bne_iff_ne.mpr hb
        simp only [cStr] at ih ⊢
        simp only [List.takeWhile_cons, hb', if_true, List.length_cons, List.getElem?_cons_succ]
        exact ih ((List.mem_cons.mp h0).resolve_left (Ne.symm hb))

theorem cStr_append_of_not_mem {l : List Byte} (h0 : 0 ∉ l) (m : List Byte) :
    cStr (l ++ m) = l ++ cStr m := by
  induction l with
  | nil => rfl
  | cons b l ih =>
      simp only [List.mem_cons, not_or] at h0
      have hb' : (b != 0) = true := bne_iff_ne.mpr (Ne.symm h0.1)
      simp only [cStr] at ih ⊢
      simp only [List.cons_append, List.takeWhile_cons, hb', if_true, ih h0.2]

/-- A payload with a zero byte is decoded from its bytes before the first zero one,
whatever follows it in memory. -/
theorem Packet.getPayloadData_of_zero_mem {DataT : Type} (S : Serializable DataT) (p : Packet)
    (h0 : 0 ∈ p.payload) (following : List Byte) :
    p.getPayloadData S following = (S.readFrom S.empty (cStr p.payload)).1 := by
  rw [Packet.getPayloadData, cStr_append_of_zero_mem h0]

/-- `WStrField` as a payload type, on the host `h`; `lengthData` is what the uninitialised
`length_data` of its `read_from` holds. `read_from` overwrites the value it starts from. -/
def wstrField (h : Host) (lengthData : ValueBytes) : Serializable WSTR where
  writeTo := writeTo h
  readFrom := fun _ s => readFrom h lengthData s
  getSize := getSize
  empty := []

/-- From a stream of a single byte, `read_from` sets the empty string on every host: the
second byte of the length is whatever `length_data` held, and the units it then asks for are
not there, so the buffer keeps its zeros. -/
theorem readFrom_single (h : Host) (lengthData : ValueBytes) (b : Byte) :
    readFrom h lengthData [b] = ([], []) := by
  rw [readFrom_eq]
  simp only [List.drop_succ_cons, List.drop_nil, List.take_nil, List.length_nil, Nat.sub_zero,
    List.nil_append, cString_units_replicate_zero]

theorem payload_setPayloadData_wstrField (h : Host) (lengthData : ValueBytes) (value : WSTR) :
    (Packet.setPayloadData (wstrField h lengthData) value).payload = writeTo h value :=
  List.take_of_length_le (Nat.le_of_eq (writeTo_length h value))

/-- On a little-endian host, the payload `set_payload_data` makes of a `WStrField` holding
1 to 255 code units decodes to the empty string, whatever follows it in memory: the high
byte of the length, second in the payload, is zero. -/
theorem getPayloadData_wstrField_short {h : Host} (hl : h.byteOrder = .little)
    (lengthData : ValueBytes) (value : WSTR) (h1 : 0 < value.length) (h2 : value.length < 256)
    (following : List Byte) :
    (Packet.setPayloadData (wstrField h lengthData) value).getPayloadData
      (wstrField h lengthData) following = [] := by
  have hhi : highByte (BitVec.ofNat 16 value.length) = 0 := by
    apply BitVec.eq_of_toNat_eq
    rw [highByte_length]
    show value.length / 256 % 256 = 0
    omega
  have hlo : (lowByte (BitVec.ofNat 16 value.length) != 0) = true := by
    apply bne_iff_ne.mpr
    intro h0
    have := congrArg BitVec.toNat h0
    simp at this
    omega
  have hp : (Packet.setPayloadData (wstrField h lengthData) value).payload =
      lowByte (BitVec.ofNat 16 value.length) :: 0 :: value.flatMap leBytes := by
    rw [payload_setPayloadData_wstrField, writeTo_little hl, ← hhi]
    rfl
  rw [Packet.getPayloadData_of_zero_mem _ _ (by rw [hp]; simp) following, hp]
  simp only [cStr, List.takeWhile_cons, hlo, if_true, bne_self_eq_false, Bool.false_eq_true,
    if_false]
  exact congrArg Prod.fst (readFrom_single h lengthData _)

theorem getPayloadData_wstrField_short_sample :
    (⟨.little, true⟩ : Host).byteOrder = .little ∧ 0 < ([0x41] : WSTR).length ∧
      ([0x41] : WSTR).length < 256 ∧
      (Packet.setPayloadData (wstrField ⟨.little, true⟩ ⟨0, 0⟩) [0x41]).getPayloadData
        (wstrField ⟨.little, true⟩ ⟨0, 0⟩) [] = [] :=
  ⟨rfl, by decide, by decide,
    getPayloadData_wstrField_short rfl ⟨0, 0⟩ [0x41] (by decide) (by decide) []⟩

/-- A `WStrField` holding `A` on a little-endian host makes the payload `01 00 41 00`, from
which its `read_from` restores `A`; `get_payload_data` decodes it to the empty string,
whatever `length_data` held and whatever follows the payload in memory. -/
theorem getPayloadData_wstrField_A (lengthData : ValueBytes) (following : List Byte) :
    (Packet.setPayloadData (wstrField ⟨.little, true⟩ lengthData) [0x41]).payload =
        [0x01, 0x00, 0x41, 0x00] ∧
      readFrom ⟨.little, true⟩ lengthData ([0x01, 0x00, 0x41, 0x00] ++ following) =
        ([0x41], following) ∧
      (Packet.setPayloadData (wstrField ⟨.little, true⟩ lengthData) [0x41]).getPayloadData
        (wstrField ⟨.little, true⟩ lengthData) following = [] := by
  have hp : (Packet.setPayloadData (wstrField ⟨.little, true⟩ lengthData) [0x41]).payload =
      [0x01, 0x00, 0x41, 0x00] := by
    rw [payload_setPayloadData_wstrField]
    rfl
  refine ⟨hp, readFrom_leBytes _ lengthData 1 [0x41] rfl following, ?_⟩
  rw [Packet.getPayloadData_of_zero_mem _ _ (by rw [hp]; decide) following, hp]
  exact congrArg Prod.fst (readFrom_single _ lengthData 0x01)

/-! ## Any `WStrField` payload -/

/-- On a little-endian host, `read_from` of the bytes `write_to` emits for a string of at most
65535 code units, none of them U+0000, read as a C string that may run on into the bytes after
them, sets the units whose bytes come before the first zero byte, the last byte counting as
before it. -/
theorem readFrom_cStr_writeTo {h : Host} (hl : h.byteOrder = .little) (lengthData : ValueBytes)
    (value : WSTR) (hs : value.length ≤ 65535) (h0 : 0 ∉ value) (following : List Byte) :
    (readFrom h lengthData (cStr (writeTo h value ++ following))).1 =
      value.take (((cStr (writeTo h value)).length - 1) / 2) := by
  by_cases hz : 0 ∈ writeTo h value
  · rw [cStr_append_of_zero_mem hz]
    calc (readFrom h lengthData (cStr (writeTo h value))).1
        = (readFrom h lengthData ((writeTo h value).take (cStr (writeTo h value)).length)).1 := by
          rw [← cStr_eq_take]
      _ = _ := readFrom_take_writeTo hl lengthData value hs h0 (getElem?_length_cStr hz)
  · have hc : cStr (writeTo h value) = writeTo h value := by
      simpa [cStr] using cStr_append_of_not_mem hz []
    rw [cStr_append_of_not_mem hz, hc, writeTo_length, readFrom_writeTo_little_eq hl,
      Nat.mod_eq_of_lt (by omega), List.take_length, cString_of_not_mem h0, getSize,
      show (2 + value.length * 2 - 1) / 2 = value.length by omega, List.take_length]

/-- On a little-endian host, `get_payload_data` of the payload `set_payload_data` makes of a
`WStrField` holding at most 65535 code units, none of them U+0000, gives the units whose bytes
come before the payload's first zero byte (the last byte counting as before it), whatever
`length_data` held and whatever follows the payload in memory. It gives the whole string
exactly when no zero byte comes earlier. -/
theorem getPayloadData_wstrField_eq_take {h : Host} (hl : h.byteOrder = .little)
    (lengthData : ValueBytes) (value : WSTR) (hs : value.length ≤ 65535) (h0 : 0 ∉ value)
    (following : List Byte) :
    (Packet.setPayloadData (wstrField h lengthData) value).getPayloadData
        (wstrField h lengthData) following =
      value.take (((cStr (writeTo h value)).length - 1) / 2) := by
  rw [Packet.getPayloadData, payload_setPayloadData_wstrField]
  exact readFrom_cStr_writeTo hl lengthData value hs h0 following

/-- 257 units, so that both bytes of the length are `01`: 200 times U+4E01, whose bytes are
`01 4E`, then `A`, whose high byte is zero, then 56 more U+4E01. -/
def sampleWide : WSTR := List.replicate 200 0x4E01 ++ [0x41] ++ List.replicate 56 0x4E01

theorem getPayloadData_wstrField_eq_take_sample :
    (⟨.little, true⟩ : Host).byteOrder = .little ∧ sampleWide.length ≤ 65535 ∧
      (0 : CodeUnit) ∉ sampleWide ∧
      (Packet.setPayloadData (wstrField ⟨.little, true⟩ ⟨0, 0⟩) sampleWide).getPayloadData
          (wstrField ⟨.little, true⟩ ⟨0, 0⟩) [] =
        sampleWide.take (((cStr (writeTo ⟨.little, true⟩ sampleWide)).length - 1) / 2) ∧
      sampleWide.take (((cStr (writeTo ⟨.little, true⟩ sampleWide)).length - 1) / 2) =
        List.replicate 200 0x4E01 ++ [0x41] := by
  have hlen : sampleWide.length = 257 := by
    simp only [sampleWide, List.length_append, List.length_replicate, List.length_singleton]
  have h0 : (0 : CodeUnit) ∉ sampleWide := by
    simp only [sampleWide, List.mem_append, List.mem_replicate, List.mem_singleton]
    decide
  have hu : 0 ∉ (List.replicate 200 (0x4E01 : CodeUnit)).flatMap leBytes := fun hm => by
    obtain ⟨u, hu, hz⟩ := List.mem_flatMap.mp hm
    rw [List.eq_of_mem_replicate hu] at hz
    exact absurd hz (by decide)
  have hpre : 0 ∉ [1, 1] ++ (List.replicate 200 (0x4E01 : CodeUnit)).flatMap leBytes ++ [0x41] := by
    simp only [List.mem_append, not_or]
    exact ⟨⟨by decide, hu⟩, by decide⟩
  have hw : writeTo ⟨.little, true⟩ sampleWide =
      ([1, 1] ++ (List.replicate 200 (0x4E01 : CodeUnit)).flatMap leBytes ++ [0x41]) ++
        0 :: (List.replicate 56 (0x4E01 : CodeUnit)).flatMap leBytes := by
    rw [writeTo_little rfl, hlen, sampleWide, List.flatMap_append, List.flatMap_append,
      show leBytes (BitVec.ofNat 16 257) = [1, 1] by decide,
      show [(0x41 : CodeUnit)].flatMap leBytes = [0x41, 0] by decide]
    simp only [List.append_assoc, List.cons_append, List.singleton_append, List.nil_append]
  have hk : (((cStr (writeTo ⟨.little, true⟩ sampleWide)).length - 1) / 2) =
      (List.replicate 200 (0x4E01 : CodeUnit) ++ [0x41]).length := by
    rw [hw, cStr_append_of_not_mem hpre, show cStr (0 :: _) = [] from rfl, List.append_nil]
    simp only [List.length_append, length_flatMap_of_two (f := leBytes) (fun _ => rfl),
      List.length_replicate, List.length_cons, List.length_nil]
  refine ⟨rfl, by rw [hlen]; decide, h0,
    getPayloadData_wstrField_eq_take rfl ⟨0, 0⟩ sampleWide (by rw [hlen]; decide) h0 [], ?_⟩
  rw [hk, sampleWide, List.take_left]

/-! ## Text through a packet -/

/-- Sent in a `Packet` on a little-endian host, a well-formed text set by
`set_value_from_string` may come back cut short but never altered: `get_value_string` never
throws on the value the receiver decodes, and gives a prefix of the text sent, whatever
`length_data` held and whatever follows the payload in memory. A cut inside a surrogate pair
leaves its high half at the end of the value, where the facet stops. -/
theorem getValueString_getPayloadData_prefix {h : Host} (hl : h.byteOrder = .little)
    (msvc : Bool) (lengthData : ValueBytes) (following : List Byte) {text : List Byte}
    (ht : WellFormedUtf8 text) (h0 : 0 ∉ text) (hs : text.length ≤ 65535) {value : WSTR}
    (hset : setValueFromString msvc text = some value) :
    ∃ received, getValueString ((Packet.setPayloadData (wstrField h lengthData) value).getPayloadData
      (wstrField h lengthData) following) = some received ∧ received <+: text := by
  obtain ⟨cps, hp, rfl⟩ := ht
  have hz : (0 : Nat) ∉ cps := fun hm =>
    h0 (List.mem_flatMap.mpr ⟨0, hm, by rw [utf8Bytes_zero]; exact List.mem_singleton_self 0⟩)
  have hv0 : 0 ∉ cps.flatMap utf16Units := fun hm => by
    obtain ⟨c, hc, hm⟩ := List.mem_flatMap.mp hm
    exact zero_not_mem_utf16Units (hp c hc) (fun hc0 => hz (hc0 ▸ hc)) hm
  obtain rfl : value = cps.flatMap utf16Units := by
    cases msvc <;> simp only [setValueFromString, fromBytes_flatMap hp, Bool.false_eq_true,
      if_true, if_false, Option.map_some', cString_of_not_mem hv0, Option.some.injEq] at hset <;>
      exact hset.symm
  have hlen := length_flatMap_utf16Units_le cps
  rw [Packet.getPayloadData, payload_setPayloadData_wstrField]
  show ∃ received, getValueString (readFrom h lengthData
    (cStr (writeTo h (cps.flatMap utf16Units) ++ following))).1 = some received ∧ _
  rw [readFrom_cStr_writeTo hl lengthData _ (by omega) hv0 following]
  exact toBytes_take hp _

/-- 255 times U+4E01, then U+10400: 769 bytes of UTF-8 and 257 units of UTF-16, the last two
a surrogate pair whose low half `DC00` has a zero low byte. -/
def sampleText : List Nat := List.replicate 255 0x4E01 ++ [0x10400]

theorem scalar_sampleText : ∀ c ∈ sampleText, Scalar c := fun c hc => by
  rcases List.mem_append.mp hc with h | h
  · rw [List.eq_of_mem_replicate h]; decide
  · rw [List.mem_singleton.mp h]; decide

theorem getValueString_getPayloadData_prefix_sample :
    (⟨.little, false⟩ : Host).byteOrder = .little ∧ WellFormedUtf8 (sampleText.flatMap utf8Bytes) ∧
      0 ∉ sampleText.flatMap utf8Bytes ∧ (sampleText.flatMap utf8Bytes).length ≤ 65535 ∧
      setValueFromString false (sampleText.flatMap utf8Bytes) =
        some (sampleText.flatMap utf16Units) ∧
      (∃ received, getValueString ((Packet.setPayloadData (wstrField ⟨.little, false⟩ ⟨0, 0⟩)
          (sampleText.flatMap utf16Units)).getPayloadData (wstrField ⟨.little, false⟩ ⟨0, 0⟩) []) =
        some received ∧ received <+: sampleText.flatMap utf8Bytes) ∧
      getValueString ((Packet.setPayloadData (wstrField ⟨.little, false⟩ ⟨0, 0⟩)
          (sampleText.flatMap utf16Units)).getPayloadData (wstrField ⟨.little, false⟩ ⟨0, 0⟩) []) =
        some ((List.replicate 255 0x4E01).flatMap utf8Bytes) := by
  have ht : WellFormedUtf8 (sampleText.flatMap utf8Bytes) := ⟨_, scalar_sampleText, rfl⟩
  have h0 : 0 ∉ sampleText.flatMap utf8Bytes := fun hm => by
    obtain ⟨c, hc, hz⟩ := List.mem_flatMap.mp hm
    exact zero_not_mem_utf8Bytes (scalar_sampleText c hc)
      (fun h => by rw [h] at hc; exact absurd hc (by decide)) hz
  have hs : (sampleText.flatMap utf8Bytes).length ≤ 65535 :=
    Nat.le_trans (length_flatMap_utf8Bytes_le _) (by
      simp only [sampleText, List.length_append, List.length_replicate, List.length_singleton]
      decide)
  have hset : setValueFromString false (sampleText.flatMap utf8Bytes) =
      some (sampleText.flatMap utf16Units) := fromBytes_flatMap scalar_sampleText
  refine ⟨rfl, ht, h0, hs, hset,
    getValueString_getPayloadData_prefix rfl false ⟨0, 0⟩ [] ht h0 hs hset, ?_⟩
  -- The cut falls on the zero low byte of `DC00`: the receiver gets 256 units, ending in `D801`.
  have hu : (List.replicate 255 0x4E01).flatMap utf16Units =
      List.replicate 255 (0x4E01 : CodeUnit) := by
    rw [flatMap_utf16Units_of_lt fun c hc => by rw [List.eq_of_mem_replicate hc]; decide,
      List.map_replicate]
    rfl
  have hv : sampleText.flatMap utf16Units =
      (List.replicate 255 (0x4E01 : CodeUnit) ++ [0xD801]) ++ [0xDC00] := by
    rw [sampleText, List.flatMap_append, hu, List.append_assoc]
    rfl
  have hlen : (sampleText.flatMap utf16Units).length = 257 := by
    rw [hv]
    simp only [List.length_append, List.length_replicate, List.length_singleton]
  have hv0 : (0 : CodeUnit) ∉ sampleText.flatMap utf16Units := by
    rw [hv]
    simp only [List.mem_append, List.mem_replicate, List.mem_singleton]
    decide
  have hb : 0 ∉ (List.replicate 255 (0x4E01 : CodeUnit)).flatMap leBytes := fun hm => by
    obtain ⟨u, hu, hz⟩ := List.mem_flatMap.mp hm
    rw [List.eq_of_mem_replicate hu] at hz
    exact absurd hz (by decide)
  have hpre : 0 ∉ [1, 1] ++ (List.replicate 255 (0x4E01 : CodeUnit)).flatMap leBytes ++
      [1, 0xD8] := by
    simp only [List.mem_append, not_or]
    exact ⟨⟨by decide, hb⟩, by decide⟩
  have hw : writeTo ⟨.little, false⟩ (sampleText.flatMap utf16Units) =
      ([1, 1] ++ (List.replicate 255 (0x4E01 : CodeUnit)).flatMap leBytes ++ [1, 0xD8]) ++
        [0, 0xDC] := by
    rw [writeTo_little rfl, hlen, hv, List.flatMap_append, List.flatMap_append,
      show leBytes (BitVec.ofNat 16 257) = [1, 1] by decide,
      show [(0xD801 : CodeUnit)].flatMap leBytes = [1, 0xD8] by decide,
      show [(0xDC00 : CodeUnit)].flatMap leBytes = [0, 0xDC] by decide]
    simp only [List.append_assoc, List.cons_append, List.singleton_append, List.nil_append]
  have hk : (((cStr (writeTo ⟨.little, false⟩ (sampleText.flatMap utf16Units))).length - 1) / 2) =
      (List.replicate 255 (0x4E01 : CodeUnit) ++ [0xD801]).length := by
    rw [hw, cStr_append_of_not_mem hpre, show cStr [0, 0xDC] = [] from rfl, List.append_nil]
    simp only [List.length_append, length_flatMap_of_two (f := leBytes) (fun _ => rfl),
      List.length_replicate, List.length_cons, List.length_nil]
  rw [Packet.getPayloadData, payload_setPayloadData_wstrField]
  show getValueString (readFrom ⟨.little, false⟩ ⟨0, 0⟩
    (cStr (writeTo ⟨.little, false⟩ (sampleText.flatMap utf16Units) ++ []))).1 = _
  rw [readFrom_cStr_writeTo rfl ⟨0, 0⟩ _ (by rw [hlen]; decide) hv0 [], hk, hv, List.take_left,
    ← hu, getValueString, toBytes, utf16Reader.decode_flatMap_append utf16Units
      (fun _ rest hc => readUtf16_utf16Units hc rest)
      (fun c hc => by rw [List.eq_of_mem_replicate hc]; decide),
    utf16Reader.decode_of_read_stop (show utf16Reader.read [0xD801] = .stop from rfl)]
  simp only [Option.map_some', List.append_nil]

end Libki.Protocol
