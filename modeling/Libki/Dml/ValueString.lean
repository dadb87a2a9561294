import Libki.Dml.WStrField
import Libki.Util.Codecvt

/-! # A wide-string field's value as text

`WStrField::get_value_string` gives the field's value in UTF-8 and `set_value_from_string`
sets it from UTF-8, both through `std::wstring_convert` and the `codecvt_utf8_utf16` facet of
`Util/Codecvt`. Compiled by MSVC (`_MSC_VER >= 1900`) the facet works on `int16_t`, and
`set_value_from_string` assigns the converted string through a `const char16_t *`: the value
keeps only the units before the first U+0000. -/

namespace Libki.Dml

/-- `WStrField::get_value_string`: the value in UTF-8, or none where the conversion throws
`std::range_error`. Both branches of the source convert the whole value. -/
def getValueString (value : WSTR) : Option (List Byte) := toBytes value

/-- `WStrField::set_value_from_string`: the new value, or none where the conversion throws
`std::range_error` and the value stays as it was. `msvc` is the `_MSC_VER >= 1900` branch. -/
def setValueFromString (msvc : Bool) (value : List Byte) : Option WSTR :=
  if msvc then (fromBytes value).map cString else fromBytes value

/-- The UTF-16 of the scalar values before U+0000 is the part of their UTF-16 a C string keeps. -/
theorem cString_flatMap {cps : List Nat} (hp : ∀ c ∈ cps, Scalar c) :
    cString (cps.flatMap utf16Units) = (cps.takeWhile (· != 0)).flatMap utf16Units :=
  takeWhile_flatMap utf16Units_zero (fun _ => zero_not_mem_utf16Units) hp

theorem takeWhile_flatMap_utf8Bytes {cps : List Nat} (hp : ∀ c ∈ cps, Scalar c) :
    (cps.flatMap utf8Bytes).takeWhile (· != 0) = (cps.takeWhile (· != 0)).flatMap utf8Bytes :=
  takeWhile_flatMap utf8Bytes_zero (fun _ => zero_not_mem_utf8Bytes) hp

theorem forall_mem_takeWhile {cps : List Nat} (hp : ∀ c ∈ cps, Scalar c) :
    ∀ c ∈ cps.takeWhile (· != 0), Scalar c :=
  fun c hc => hp c ((List.takeWhile_sublist _).subset hc)

/-- From a well-formed value, `get_value_string` gives well-formed UTF-8, from which
`set_value_from_string` restores the value; on MSVC it restores only the units before the
first U+0000. -/
theorem setValueFromString_getValueString (msvc : Bool) {value : WSTR}
    (hv : WellFormedUtf16 value) :
    ∃ text, getValueString value = some text ∧ WellFormedUtf8 text ∧
      setValueFromString msvc text = some (if msvc then cString value else value) := by
  obtain ⟨cps, hp, rfl⟩ := hv
  refine ⟨cps.flatMap utf8Bytes, toBytes_flatMap hp, ⟨cps, hp, rfl⟩, ?_⟩
  cases msvc <;> simp [setValueFromString, fromBytes_flatMap hp]

theorem setValueFromString_getValueString_sample :
    WellFormedUtf16 [0x41, 0xD83D, 0xDE00] ∧
      ∃ text, getValueString [0x41, 0xD83D, 0xDE00] = some text ∧ WellFormedUtf8 text ∧
        setValueFromString true text =
          some (if true then cString [0x41, 0xD83D, 0xDE00] else [0x41, 0xD83D, 0xDE00]) :=
  have hv : WellFormedUtf16 [0x41, 0xD83D, 0xDE00] := ⟨[0x41, 0x1F600], by decide, rfl⟩
  ⟨hv, setValueFromString_getValueString true hv⟩

/-- From well-formed UTF-8, `set_value_from_string` sets a well-formed value, from which
`get_value_string` gives back the text; on MSVC it gives back only the text before the first
zero byte. -/
theorem getValueString_setValueFromString (msvc : Bool) {text : List Byte}
    (ht : WellFormedUtf8 text) :
    ∃ value, setValueFromString msvc text = some value ∧ WellFormedUtf16 value ∧
      getValueString value = some (if msvc then text.takeWhile (· != 0) else text) := by
  obtain ⟨cps, hp, rfl⟩ := ht
  cases msvc
  · exact ⟨cps.flatMap utf16Units, fromBytes_flatMap hp, ⟨cps, hp, rfl⟩, toBytes_flatMap hp⟩
  · refine ⟨(cps.takeWhile (· != 0)).flatMap utf16Units, ?_, ⟨_, forall_mem_takeWhile hp, rfl⟩, ?_⟩
    · simp [setValueFromString, fromBytes_flatMap hp, cString_flatMap hp]
    · rw [getValueString, toBytes_flatMap (forall_mem_takeWhile hp), if_pos rfl,
        takeWhile_flatMap_utf8Bytes hp]

theorem getValueString_setValueFromString_sample :
    WellFormedUtf8 [0x41, 0x00, 0xC3, 0xA9] ∧
      ∃ value, setValueFromString true [0x41, 0x00, 0xC3, 0xA9] = some value ∧
        WellFormedUtf16 value ∧
        getValueString value = some (if true then ([0x41, 0x00, 0xC3, 0xA9] : List Byte).takeWhile
          (· != 0) else [0x41, 0x00, 0xC3, 0xA9]) :=
  have ht : WellFormedUtf8 [0x41, 0x00, 0xC3, 0xA9] := ⟨[0x41, 0, 0xE9], by decide, rfl⟩
  ⟨ht, getValueString_setValueFromString true ht⟩

/-- `get_value_string` returns exactly on a value that is the UTF-16 of scalar values, alone
or followed by one high surrogate, and then gives the UTF-8 of those scalar values: always
well-formed UTF-8, with the trailing high surrogate dropped. On any other value, one with a
low surrogate that follows no high one or a high surrogate followed by anything but a low
one, it throws. -/
theorem getValueString_eq_some_iff {value : WSTR} {text : List Byte} :
    getValueString value = some text ↔ ∃ cps : List Nat, (∀ c ∈ cps, Scalar c) ∧
      text = cps.flatMap utf8Bytes ∧ (value = cps.flatMap utf16Units ∨
        ∃ u, isHighSurrogate u.toNat ∧ value = cps.flatMap utf16Units ++ [u]) := by
  constructor
  · intro h
    obtain ⟨cps, hd, rfl⟩ := Option.map_eq_some'.mp h
    obtain ⟨hp, t, rfl, ht⟩ := utf16Reader.decode_eq_some utf16Units readUtf16_eq_point hd
    refine ⟨cps, hp, rfl, ?_⟩
    rcases readUtf16_eq_stop.mp ht with rfl | ⟨u, hu, rfl⟩
    · exact .inl (List.append_nil _)
    · exact .inr ⟨u, hu, rfl⟩
  · rintro ⟨cps, hp, rfl, hv⟩
    obtain ⟨t, rfl, ht⟩ : ∃ t, value = cps.flatMap utf16Units ++ t ∧ readUtf16 t = .stop := by
      rcases hv with rfl | ⟨u, hu, rfl⟩
      · exact ⟨[], (List.append_nil _).symm, rfl⟩
      · exact ⟨[u], rfl, readUtf16_eq_stop.mpr (.inr ⟨u, hu, rfl⟩)⟩
    rw [getValueString, toBytes, utf16Reader.decode_flatMap_append utf16Units
      (fun _ rest hc => readUtf16_utf16Units hc rest) hp, utf16Reader.decode_of_read_stop ht]
    simp

/-! ## Over the wire -/

/-- On a little-endian host, a text set by `set_value_from_string`, written by `write_to` and
read back by `read_from`, comes back from `get_value_string` up to its first zero byte, and
the stream is left just after the field. Both branches of the source agree here: the wire
keeps the units before the first U+0000. A text of at most 65535 bytes has at most 65535
units, so its length fits the 16-bit prefix. -/
theorem getValueString_readFrom_writeTo {h : Host} (hl : h.byteOrder = .little) (msvc : Bool)
    (lengthData : ValueBytes) {text : List Byte} (ht : WellFormedUtf8 text)
    (hs : text.length ≤ 65535) (rest : List Byte) :
    ∃ value, setValueFromString msvc text = some value ∧
      (readFrom h lengthData (writeTo h value ++ rest)).2 = rest ∧
      getValueString (readFrom h lengthData (writeTo h value ++ rest)).1 =
        some (text.takeWhile (· != 0)) := by
  obtain ⟨cps, hp, rfl⟩ := ht
  have hus := fromBytes_flatMap hp
  have hcut := cString_flatMap hp
  have hle := length_flatMap_utf16Units_le cps
  generalize cps.flatMap utf16Units = us at hus hcut hle
  have hvalue : cString (if msvc then cString us else us) = cString us := by
    split
    · exact cString_of_not_mem (zero_not_mem_cString us)
    · rfl
  have hlen : (if msvc then cString us else us).length ≤ 65535 := by
    have := length_cString_le us
    split <;> omega
  refine ⟨if msvc then cString us else us, by cases msvc <;> simp [setValueFromString, hus], ?_⟩
  rw [readFrom_writeTo_little_eq hl, Nat.mod_eq_of_lt (by omega), List.take_length,
    List.drop_length, hvalue, hcut]
  exact ⟨rfl, by rw [getValueString, toBytes_flatMap (forall_mem_takeWhile hp),
    takeWhile_flatMap_utf8Bytes hp]⟩

theorem getValueString_readFrom_writeTo_sample :
    (⟨.little, false⟩ : Host).byteOrder = .little ∧ WellFormedUtf8 [0x41, 0x00, 0xC3, 0xA9] ∧
      ([0x41, 0x00, 0xC3, 0xA9] : List Byte).length ≤ 65535 ∧
      ∃ value, setValueFromString false [0x41, 0x00, 0xC3, 0xA9] = some value ∧
        (readFrom ⟨.little, false⟩ ⟨0, 0⟩ (writeTo ⟨.little, false⟩ value ++ [7])).2 = [7] ∧
        getValueString (readFrom ⟨.little, false⟩ ⟨0, 0⟩ (writeTo ⟨.little, false⟩ value ++ [7])).1 =
          some (([0x41, 0x00, 0xC3, 0xA9] : List Byte).takeWhile (· != 0)) :=
  have ht : WellFormedUtf8 [0x41, 0x00, 0xC3, 0xA9] := ⟨[0x41, 0, 0xE9], by decide, rfl⟩
  ⟨rfl, ht, by decide, getValueString_readFrom_writeTo rfl false ⟨0, 0⟩ ht (by decide) [7]⟩

/-! ## On a big-endian host -/

/-- ASCII other than NUL: one byte per code point, each its own UTF-8. -/
theorem ascii_flatMap {text : List Byte} (hascii : ∀ b ∈ text, 0 < b.toNat ∧ b.toNat < 0x80) :
    (text.map BitVec.toNat).flatMap utf8Bytes = text := by
  induction text with
  | nil => rfl
  | cons b text ih =>
      rw [List.map_cons, List.flatMap_cons, utf8Bytes_one (hascii b (List.mem_cons_self b text)).2,
        ofNat_toNat_eq, ih fun b' h => hascii b' (List.mem_cons_of_mem b h), List.singleton_append]

theorem flatMap_utf16Units_of_lt {cps : List Nat} (h : ∀ c ∈ cps, c < 0x10000) :
    cps.flatMap utf16Units = cps.map (BitVec.ofNat 16) := by
  induction cps with
  | nil => rfl
  | cons c cps ih =>
      rw [List.flatMap_cons, List.map_cons, utf16Units_one (h c (List.mem_cons_self c cps)),
        ih fun c' hc => h c' (List.mem_cons_of_mem c hc), List.singleton_append]

theorem le_length_flatMap {α : Type} {f : Nat → List α} {k : Nat} {cps : List Nat}
    (h : ∀ c ∈ cps, k ≤ (f c).length) : k * cps.length ≤ (cps.flatMap f).length := by
  induction cps with
  | nil => exact Nat.le_refl 0
  | cons c cps ih =>
      have := h c (List.mem_cons_self c cps)
      have := ih fun c' hc => h c' (List.mem_cons_of_mem c hc)
      rw [List.flatMap_cons, List.length_append, List.length_cons, Nat.mul_succ]
      omega

theorem two_le_length_utf8Bytes {c : Nat} (h : 0x80 ≤ c) : 2 ≤ (utf8Bytes c).length := by
  unfold utf8Bytes
  repeat' split
  all_goals simp only [List.length_cons, List.length_nil]; omega

/-- The unit of a byte, with its two bytes exchanged, holds the byte in its high half. -/
theorem swapBytes_ofNat {c : Nat} (h : c < 256) :
    swapBytes (BitVec.ofNat 16 c) = BitVec.ofNat 16 (c * 256) := by
  apply BitVec.eq_of_toNat_eq
  simp only [swapBytes, toNat_ofBytes, toNat_lowByte, toNat_highByte, BitVec.toNat_ofNat]
  omega

/-- The units of ASCII characters other than NUL, with their bytes exchanged, are the code
points `c * 256`, from `0x100` to `0x7F00`. -/
theorem map_swapBytes_ascii {cps : List Nat} (h : ∀ c ∈ cps, 0 < c ∧ c < 0x80) :
    (cps.map (BitVec.ofNat 16)).map swapBytes = (cps.map (· * 256)).flatMap utf16Units := by
  rw [flatMap_utf16Units_of_lt fun c hc => by
      obtain ⟨c', hc', rfl⟩ := List.mem_map.mp hc
      have := h c' hc'
      omega,
    List.map_map, List.map_map]
  exact List.map_congr_left fun c hc => swapBytes_ofNat (by have := h c hc; omega)

/-- Those units hold no U+0000, and `get_value_string` gives two or more bytes for each. -/
theorem getValueString_swapBytes_ascii {cps : List Nat} (h : ∀ c ∈ cps, 0 < c ∧ c < 0x80) :
    cString ((cps.map (BitVec.ofNat 16)).map swapBytes) = (cps.map (BitVec.ofNat 16)).map swapBytes ∧
      ∃ bs, getValueString ((cps.map (BitVec.ofNat 16)).map swapBytes) = some bs ∧
        2 * cps.length ≤ bs.length := by
  have hsw : ∀ c ∈ cps.map (· * 256), Scalar c ∧ c ≠ 0 ∧ 0x80 ≤ c := fun c hc => by
    obtain ⟨c', hc', rfl⟩ := List.mem_map.mp hc
    have := h c' hc'
    exact ⟨.inl (by omega), by omega, by omega⟩
  rw [map_swapBytes_ascii h]
  refine ⟨cString_of_not_mem fun hm => ?_, _, toBytes_flatMap fun c hc => (hsw c hc).1, ?_⟩
  · obtain ⟨c, hc, hz⟩ := List.mem_flatMap.mp hm
    exact zero_not_mem_utf16Units (hsw c hc).1 (hsw c hc).2.1 hz
  · have := le_length_flatMap (f := utf8Bytes) (k := 2) fun c hc =>
      two_le_length_utf8Bytes (hsw c hc).2.2
    rwa [List.length_map] at this

/-- On a big-endian host, no nonempty ASCII text without NUL survives the wire. Set by
`set_value_from_string`, written by `write_to` and read back by `read_from` on any host, the
field's value gives by `get_value_string` something else. Each unit comes back with its bytes
exchanged, so each character comes back as a code point of two or more UTF-8 bytes. -/
theorem getValueString_readFrom_writeTo_big_ne {h : Host} (hb : h.byteOrder = .big) (h' : Host)
    (msvc : Bool) (lengthData : ValueBytes) {text : List Byte}
    (hascii : ∀ b ∈ text, 0 < b.toNat ∧ b.toNat < 0x80) (hne : text ≠ [])
    (hs : text.length < 32768) (rest : List Byte) :
    ∃ value, setValueFromString msvc text = some value ∧
      getValueString (readFrom h' lengthData (writeTo h value ++ rest)).1 ≠ some text := by
  have hcps : ∀ c ∈ text.map BitVec.toNat, 0 < c ∧ c < 0x80 := fun c hc => by
    obtain ⟨b, hb', rfl⟩ := List.mem_map.mp hc
    exact hascii b hb'
  have hlen : (text.map BitVec.toNat).length = text.length := List.length_map _ _
  have htext := ascii_flatMap hascii
  generalize text.map BitVec.toNat = cps at hcps hlen htext
  subst htext
  have hp : ∀ c ∈ cps, Scalar c := fun c hc => .inl (by have := hcps c hc; omega)
  have h0 : 0 ∉ cps.map (BitVec.ofNat 16) := fun hm => by
    obtain ⟨c, hc, hz⟩ := List.mem_map.mp hm
    exact ofNat_ne_zero (hcps c hc).1 (by have := hcps c hc; omega) hz
  refine ⟨cps.map (BitVec.ofNat 16), by
    cases msvc <;> simp [setValueFromString, fromBytes_flatMap hp, cString_of_not_mem h0,
      flatMap_utf16Units_of_lt fun c hc => by have := hcps c hc; omega], ?_⟩
  have hc : ¬(h.charIsSigned = true ∧ 128 ≤ (cps.map (BitVec.ofNat 16)).length / 256 % 256) :=
    fun ⟨_, h128⟩ => by rw [List.length_map] at h128; omega
  obtain ⟨hcut, bs, hbs, hlong⟩ := getValueString_swapBytes_ascii hcps
  rw [writeTo_big_eq_swap hb _ hc, List.append_assoc, readFrom_leBytes h' lengthData _ _
    (by rw [List.length_map, List.length_map, BitVec.toNat_ofNat]; omega), hcut, hbs]
  have hpos := List.length_pos.mpr fun hnil : cps = [] => hne (by rw [hnil]; rfl)
  intro heq
  rw [Option.some.inj heq] at hlong
  omega

theorem getValueString_readFrom_writeTo_big_ne_sample :
    (⟨.big, false⟩ : Host).byteOrder = .big ∧
      (∀ b ∈ ([0x41] : List Byte), 0 < b.toNat ∧ b.toNat < 0x80) ∧ ([0x41] : List Byte) ≠ [] ∧
      ([0x41] : List Byte).length < 32768 ∧
      ∃ value, setValueFromString false [0x41] = some value ∧
        getValueString (readFrom ⟨.big, false⟩ ⟨0, 0⟩ (writeTo ⟨.big, false⟩ value ++ [])).1 ≠
          some [0x41] :=
  have hascii : ∀ b ∈ ([0x41] : List Byte), 0 < b.toNat ∧ b.toNat < 0x80 := by decide
  ⟨rfl, hascii, by decide, by decide, getValueString_readFrom_writeTo_big_ne rfl ⟨.big, false⟩ false
    ⟨0, 0⟩ hascii (by decide) (by decide) []⟩

end Libki.Dml
