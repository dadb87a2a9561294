import Libki.Util.ValueBytes

/-! # `std::codecvt_utf8_utf16` and `std::wstring_convert`

`WStrField::get_value_string` and `set_value_from_string` convert between the field's UTF-16
value and UTF-8 through `std::wstring_convert<std::codecvt_utf8_utf16<char16_t>, char16_t>`.
The facet is libstdc++'s (`codecvt.cc`). Its `do_in` runs `utf16_in`, which reads one code
point at a time with `read_utf8_code_point` and writes it with `write_utf16_code_point`; its
`do_out` runs `utf16_out`, which reads a unit, or a high surrogate and the low one after it,
and writes the code point with `write_utf8_code_point`.

Each pass of either loop finds one of three things (`ReadResult`). A code point: it is
written and the loop goes on. A place where the loop stops and keeps what it has converted:
the end of the input, an input that ends inside a UTF-8 sequence (`partial`), or a high
surrogate that ends the input (`utf16_out` returns `ok` there). An ill-formed sequence: the
facet returns `error` and `wstring_convert` throws `std::range_error`. `read_utf8_code_point`
does not refuse the three bytes of a surrogate: `ED A0 80` is read as U+D800 and written as
the one unit `0xD800`, so `from_bytes` can set a lone surrogate.

The facet runs with its default modes: no byte-order mark is read or written, and the largest
code point is `0x10FFFF`. Every sequence that passes the tests of either loop is within it, so
the `Maxcode` tests never fail and are left out. `wstring_convert` gives the facet room for
more than four bytes or units per input element, so the facet never stops for want of room. -/

namespace Libki

/-! ## Unicode scalar values and their encodings -/

/-- A Unicode scalar value: a code point up to `0x10FFFF` that is no surrogate. -/
def Scalar (c : Nat) : Prop := c < 0xD800 ∨ (0xE000 ≤ c ∧ c < 0x110000)

instance (c : Nat) : Decidable (Scalar c) := inferInstanceAs (Decidable (_ ∨ _))

theorem Scalar.lt {c : Nat} (hc : Scalar c) : c < 0x110000 := by
  unfold Scalar at hc
  omega

/-- `write_utf16_code_point`: one unit up to `0xFFFF`, a surrogate pair above. -/
def utf16Units (c : Nat) : List (BitVec 16) :=
  if c < 0x10000 then [BitVec.ofNat 16 c]
  else [BitVec.ofNat 16 (0xD800 + (c - 0x10000) / 0x400),
    BitVec.ofNat 16 (0xDC00 + (c - 0x10000) % 0x400)]

/-- `write_utf8_code_point`. -/
def utf8Bytes (c : Nat) : List Byte :=
  if c < 0x80 then [BitVec.ofNat 8 c]
  else if c < 0x800 then [BitVec.ofNat 8 (0xC0 + c / 0x40), BitVec.ofNat 8 (0x80 + c % 0x40)]
  else if c < 0x10000 then
    [BitVec.ofNat 8 (0xE0 + c / 0x1000), BitVec.ofNat 8 (0x80 + c / 0x40 % 0x40),
      BitVec.ofNat 8 (0x80 + c % 0x40)]
  else
    [BitVec.ofNat 8 (0xF0 + c / 0x40000), BitVec.ofNat 8 (0x80 + c / 0x1000 % 0x40),
      BitVec.ofNat 8 (0x80 + c / 0x40 % 0x40), BitVec.ofNat 8 (0x80 + c % 0x40)]

theorem utf16Units_ne_nil (c : Nat) : utf16Units c ≠ [] := by
  unfold utf16Units
  split <;> exact List.cons_ne_nil _ _

theorem utf8Bytes_ne_nil (c : Nat) : utf8Bytes c ≠ [] := by
  unfold utf8Bytes
  repeat' split
  all_goals exact List.cons_ne_nil _ _

/-- No code point takes more UTF-16 units than UTF-8 bytes. -/
theorem length_utf16Units_le (c : Nat) : (utf16Units c).length ≤ (utf8Bytes c).length := by
  unfold utf16Units utf8Bytes
  repeat' split
  all_goals simp only [List.length_cons, List.length_nil]; omega

/-- No code point takes more than four UTF-8 bytes. -/
theorem length_flatMap_utf8Bytes_le (cps : List Nat) :
    (cps.flatMap utf8Bytes).length ≤ 4 * cps.length := by
  induction cps with
  | nil => exact Nat.le_refl 0
  | cons c cps ih =>
      have : (utf8Bytes c).length ≤ 4 := by
        unfold utf8Bytes
        repeat' split
        all_goals simp only [List.length_cons, List.length_nil]; omega
      simp only [List.flatMap_cons, List.length_append, List.length_cons]
      omega

theorem length_flatMap_utf16Units_le (cps : List Nat) :
    (cps.flatMap utf16Units).length ≤ (cps.flatMap utf8Bytes).length := by
  induction cps with
  | nil => exact Nat.le_refl 0
  | cons c cps ih =>
      have := length_utf16Units_le c
      simp only [List.flatMap_cons, List.length_append]
      omega

/-- UTF-16 that encodes Unicode scalar values: every surrogate is one of a pair. -/
def WellFormedUtf16 (us : List (BitVec 16)) : Prop :=
  ∃ cps : List Nat, (∀ c ∈ cps, Scalar c) ∧ cps.flatMap utf16Units = us

/-- UTF-8 that encodes Unicode scalar values. -/
def WellFormedUtf8 (bs : List Byte) : Prop :=
  ∃ cps : List Nat, (∀ c ∈ cps, Scalar c) ∧ cps.flatMap utf8Bytes = bs

/-! ## The facet's loop -/

/-- What one pass of the facet's loop finds at the front of the input. -/
inductive ReadResult (α : Type) where
  /-- A code point, and the input after it. -/
  | point (c : Nat) (rest : List α)
  /-- The loop stops here and keeps what it has converted. -/
  | stop
  /-- An ill-formed sequence: the facet returns `error`. -/
  | error

/-- One pass of a `codecvt` facet's loop. At the end of the input the loop stops. -/
structure CodePointReader (α : Type) where
  read : List α → ReadResult α
  read_nil : read [] = .stop
  read_length : ∀ {l c r}, read l = .point c r → r.length < l.length

namespace CodePointReader

variable {α : Type} (R : CodePointReader α)

/-- The facet's loop as `wstring_convert` sees it: the code points read until the input is
used up or the loop stops, or none when the facet returns `error`. -/
def decode : List α → Option (List Nat)
  | [] => some []
  | a :: l =>
      match _h : R.read (a :: l) with
      | .point c r => (decode r).map (c :: ·)
      | .stop => some []
      | .error => none
termination_by l => l.length
decreasing_by exact R.read_length _h

@[simp] theorem decode_nil : R.decode [] = some [] := by
  rw [decode]

theorem decode_cons {a : α} {l : List α} :
    R.decode (a :: l) = match R.read (a :: l) with
      | .point c r => (R.decode r).map (c :: ·)
      | .stop => some []
      | .error => none := by
  rw [decode]
  split <;> rename_i h <;> simp [h]

theorem decode_of_read_point {l r : List α} {c : Nat} (h : R.read l = .point c r) :
    R.decode l = (R.decode r).map (c :: ·) := by
  match l, h with
  | [], h => exact absurd (R.read_length h) (Nat.not_lt_zero _)
  | a :: l, h => rw [decode_cons, h]

theorem decode_of_read_stop {l : List α} (h : R.read l = .stop) : R.decode l = some [] := by
  match l, h with
  | [], _ => exact R.decode_nil
  | a :: l, h => rw [decode_cons, h]

section Encoding

variable {P : Nat → Prop} (enc : Nat → List α)

/-- A reader that reads back every code point its encoder writes decodes an encoding, and
then what follows it. -/
theorem decode_flatMap_append (hread : ∀ c rest, P c → R.read (enc c ++ rest) = .point c rest)
    {cps : List Nat} (hp : ∀ c ∈ cps, P c) (t : List α) :
    R.decode (cps.flatMap enc ++ t) = (R.decode t).map (cps ++ ·) := by
  induction cps with
  | nil => simp
  | cons c cps ih =>
      rw [List.flatMap_cons, List.append_assoc,
        R.decode_of_read_point (hread c _ (hp c (List.mem_cons_self c cps))),
        ih fun c' h => hp c' (List.mem_cons_of_mem c h), Option.map_map]
      rfl

theorem decode_flatMap (hread : ∀ c rest, P c → R.read (enc c ++ rest) = .point c rest)
    {cps : List Nat} (hp : ∀ c ∈ cps, P c) : R.decode (cps.flatMap enc) = some cps := by
  simpa using R.decode_flatMap_append enc hread hp []

/-- A reader that reads only what its encoder writes returns the code points of an encoding
that makes up the front of its input, up to a place where it stops. -/
theorem decode_eq_some (hread : ∀ {l c r}, R.read l = .point c r → P c ∧ l = enc c ++ r)
    {l : List α} {cps : List Nat} (h : R.decode l = some cps) :
    (∀ c ∈ cps, P c) ∧ ∃ t, l = cps.flatMap enc ++ t ∧ R.read t = .stop := by
  induction l using decode.induct R generalizing cps with
  | case1 =>
      obtain rfl := Option.some.inj (R.decode_nil.symm.trans h)
      exact ⟨(fun _ h => nomatch h), [], rfl, R.read_nil⟩
  | case2 a l c r hrd ih =>
      rw [decode_cons, hrd] at h
      obtain ⟨cps', hd, rfl⟩ := Option.map_eq_some'.mp h
      obtain ⟨hc, hl⟩ := hread hrd
      obtain ⟨hps, t, rfl, ht⟩ := ih hd
      refine ⟨fun c' h' => ?_, t, by rw [hl, List.flatMap_cons, List.append_assoc], ht⟩
      rcases List.mem_cons.mp h' with rfl | h'
      · exact hc
      · exact hps c' h'
  | case3 a l hrd =>
      rw [decode_cons, hrd] at h
      obtain rfl := Option.some.inj h
      exact ⟨(fun _ h => nomatch h), a :: l, rfl, hrd⟩
  | case4 a l hrd => rw [decode_cons, hrd] at h; cases h

/-- A reader that stops on every proper prefix of an encoding decodes every prefix of an
encoding, to a prefix of its code points. -/
theorem decode_take (hread : ∀ c rest, P c → R.read (enc c ++ rest) = .point c rest)
    (hcut : ∀ c k, P c → k < (enc c).length → R.read ((enc c).take k) = .stop)
    {cps : List Nat} (hp : ∀ c ∈ cps, P c) (k : Nat) :
    ∃ cps', R.decode ((cps.flatMap enc).take k) = some cps' ∧ cps' <+: cps := by
  induction cps generalizing k with
  | nil => exact ⟨[], by simp, List.nil_prefix⟩
  | cons c cps ih =>
      have hc := hp c (List.mem_cons_self c cps)
      rw [List.flatMap_cons, List.take_append_eq_append_take]
      by_cases hk : (enc c).length ≤ k
      · obtain ⟨cps', hd, hpre⟩ :=
          ih (fun c' h => hp c' (List.mem_cons_of_mem c h)) (k - (enc c).length)
        rw [List.take_of_length_le hk, R.decode_of_read_point (hread c _ hc), hd]
        exact ⟨c :: cps', rfl, (List.prefix_cons_inj c).mpr hpre⟩
      · rw [Nat.sub_eq_zero_of_le (by omega), List.take_zero, List.append_nil,
          R.decode_of_read_stop (hcut c k hc (by omega))]
        exact ⟨[], rfl, List.nil_prefix⟩

end Encoding

end CodePointReader

theorem toNat_ofNat_of_lt {w n : Nat} (h : n < 2 ^ w) : (BitVec.ofNat w n).toNat = n := by
  rw [BitVec.toNat_ofNat, Nat.mod_eq_of_lt h]

theorem ofNat_toNat_eq {w : Nat} (b : BitVec w) : BitVec.ofNat w b.toNat = b := by
  rw [BitVec.ofNat_toNat, BitVec.setWidth_eq]

/-! ## UTF-16 -/

/-- `is_high_surrogate`. -/
def isHighSurrogate (c : Nat) : Prop := 0xD800 ≤ c ∧ c ≤ 0xDBFF

/-- `is_low_surrogate`. -/
def isLowSurrogate (c : Nat) : Prop := 0xDC00 ≤ c ∧ c ≤ 0xDFFF

instance (c : Nat) : Decidable (isHighSurrogate c) := inferInstanceAs (Decidable (_ ∧ _))

instance (c : Nat) : Decidable (isLowSurrogate c) := inferInstanceAs (Decidable (_ ∧ _))

/-- `surrogate_pair_to_code_point`: `(high << 10) + low - 0x35FDC00`. -/
def surrogatePairToCodePoint (high low : Nat) : Nat := high * 0x400 + low - 0x35FDC00

/-- One pass of `utf16_out`'s loop: a unit that is no surrogate, or a high surrogate and the
low one after it. A high surrogate that ends the input stops the loop, which returns `ok`;
a high surrogate before anything else, or a low surrogate first, is an `error`. -/
def readUtf16 : List (BitVec 16) → ReadResult (BitVec 16)
  | [] => .stop
  | c :: rest =>
      if isHighSurrogate c.toNat then
        match rest with
        | [] => .stop
        | c2 :: rest =>
            if isLowSurrogate c2.toNat then
              .point (surrogatePairToCodePoint c.toNat c2.toNat) rest
            else .error
      else if isLowSurrogate c.toNat then .error
      else .point c.toNat rest

/-! A code point above `0xFFFF` is read as its two halves of ten bits, one in each surrogate. -/

theorem utf16Units_one {c : Nat} (h : c < 0x10000) : utf16Units c = [BitVec.ofNat 16 c] := by
  rw [utf16Units, if_pos h]

theorem utf16Units_pair {hi lo : Nat} (hhi : hi < 0x400) (hlo : lo < 0x400) :
    utf16Units (0x10000 + hi * 0x400 + lo) =
      [BitVec.ofNat 16 (0xD800 + hi), BitVec.ofNat 16 (0xDC00 + lo)] := by
  rw [utf16Units, if_neg (by omega)]
  have h1 : (0x10000 + hi * 0x400 + lo - 0x10000) / 0x400 = hi := by omega
  have h2 : (0x10000 + hi * 0x400 + lo - 0x10000) % 0x400 = lo := by omega
  rw [h1, h2]

theorem exists_pair {c : Nat} (h : 0x10000 ≤ c) :
    ∃ hi lo, lo < 0x400 ∧ c = 0x10000 + hi * 0x400 + lo :=
  ⟨(c - 0x10000) / 0x400, (c - 0x10000) % 0x400, Nat.mod_lt _ (by decide), by omega⟩

theorem surrogatePairToCodePoint_eq (hi lo : Nat) :
    surrogatePairToCodePoint (0xD800 + hi) (0xDC00 + lo) = 0x10000 + hi * 0x400 + lo := by
  unfold surrogatePairToCodePoint
  omega

theorem readUtf16_pair {hi lo : Nat} (hhi : hi < 0x400) (hlo : lo < 0x400)
    (rest : List (BitVec 16)) :
    readUtf16 ([BitVec.ofNat 16 (0xD800 + hi), BitVec.ofNat 16 (0xDC00 + lo)] ++ rest) =
      .point (0x10000 + hi * 0x400 + lo) rest := by
  simp only [List.cons_append, List.nil_append, readUtf16, isHighSurrogate, isLowSurrogate,
    toNat_ofNat_of_lt (show 0xD800 + hi < 2 ^ 16 by omega),
    toNat_ofNat_of_lt (show 0xDC00 + lo < 2 ^ 16 by omega)]
  rw [if_pos (by omega), if_pos (by omega), surrogatePairToCodePoint_eq]

theorem readUtf16_utf16Units {c : Nat} (hc : Scalar c) (rest : List (BitVec 16)) :
    readUtf16 (utf16Units c ++ rest) = .point c rest := by
  unfold Scalar at hc
  rcases Nat.lt_or_ge c 0x10000 with h1 | h1
  · simp only [utf16Units_one h1, List.singleton_append, readUtf16, isHighSurrogate,
      isLowSurrogate, toNat_ofNat_of_lt (show c < 2 ^ 16 by omega)]
    rw [if_neg (by omega), if_neg (by omega)]
  · obtain ⟨hi, lo, hlo, rfl⟩ := exists_pair h1
    rw [utf16Units_pair (by omega) hlo, readUtf16_pair (by omega) hlo]

/-- `utf16_out` reads only the UTF-16 of scalar values. -/
theorem readUtf16_eq_point {l : List (BitVec 16)} {c : Nat} {r : List (BitVec 16)}
    (h : readUtf16 l = .point c r) : Scalar c ∧ l = utf16Units c ++ r := by
  match l with
  | [] => cases h
  | u :: rest =>
      have hu := u.isLt
      simp only [readUtf16] at h
      by_cases hh : isHighSurrogate u.toNat
      · rw [if_pos hh] at h
        match rest, h with
        | [], h => cases h
        | u2 :: rest, h =>
            by_cases hl : isLowSurrogate u2.toNat
            · simp only [if_pos hl, ReadResult.point.injEq] at h
              obtain ⟨rfl, rfl⟩ := h
              unfold isHighSurrogate at hh
              unfold isLowSurrogate at hl
              obtain ⟨hi, hhi⟩ := Nat.exists_eq_add_of_le hh.1
              obtain ⟨lo, hlo⟩ := Nat.exists_eq_add_of_le hl.1
              rw [hhi, hlo, surrogatePairToCodePoint_eq]
              refine ⟨by unfold Scalar; omega, ?_⟩
              rw [utf16Units_pair (by omega) (by omega), ← hhi, ← hlo, ofNat_toNat_eq,
                ofNat_toNat_eq, List.cons_append, List.cons_append, List.nil_append]
            · simp only [if_neg hl, reduceCtorEq] at h
      · rw [if_neg hh] at h
        by_cases hl : isLowSurrogate u.toNat
        · simp only [if_pos hl, reduceCtorEq] at h
        · simp only [if_neg hl, ReadResult.point.injEq] at h
          obtain ⟨rfl, rfl⟩ := h
          unfold isHighSurrogate at hh
          unfold isLowSurrogate at hl
          refine ⟨by unfold Scalar; omega, ?_⟩
          rw [utf16Units_one (by omega), ofNat_toNat_eq, List.singleton_append]

/-- `utf16_out` stops short of the end only at a high surrogate that ends the input. -/
theorem readUtf16_eq_stop {l : List (BitVec 16)} :
    readUtf16 l = .stop ↔ l = [] ∨ ∃ u, isHighSurrogate u.toNat ∧ l = [u] := by
  match l with
  | [] => simp [readUtf16]
  | u :: rest =>
      simp only [List.cons_ne_nil, false_or, List.cons.injEq]
      by_cases hh : isHighSurrogate u.toNat
      · cases rest with
        | nil => simp [readUtf16, hh]
        | cons u2 rest =>
            have : readUtf16 (u :: u2 :: rest) ≠ .stop := by
              simp only [readUtf16, if_pos hh]
              split <;> simp
            simp [this]
      · have : readUtf16 (u :: rest) ≠ .stop := by
          simp only [readUtf16, if_neg hh]
          split <;> simp
        simp only [this, false_iff, not_exists, not_and]
        rintro _ hu rfl -
        exact hh hu

/-- A surrogate pair cut after its high half stops `utf16_out`. -/
theorem readUtf16_take {c : Nat} (hc : Scalar c) (k : Nat) (hk : k < (utf16Units c).length) :
    readUtf16 ((utf16Units c).take k) = .stop := by
  rcases Nat.eq_zero_or_pos k with rfl | hk0
  · rfl
  have h1 : 0x10000 ≤ c := by
    refine Nat.le_of_not_lt fun h1 => ?_
    rw [utf16Units_one h1, List.length_singleton] at hk
    omega
  obtain ⟨hi, lo, hlo, rfl⟩ := exists_pair h1
  have hhi : hi < 0x400 := by have := hc.lt; omega
  rw [utf16Units_pair hhi hlo] at hk ⊢
  obtain rfl : k = 1 := by simp only [List.length_cons, List.length_nil] at hk; omega
  refine readUtf16_eq_stop.mpr (.inr ⟨_, ?_, rfl⟩)
  rw [toNat_ofNat_of_lt (by omega)]
  unfold isHighSurrogate
  omega

/-- `codecvt_utf8_utf16::do_out` reads UTF-16. -/
def utf16Reader : CodePointReader (BitVec 16) where
  read := readUtf16
  read_nil := rfl
  read_length {_ c _} h := by
    obtain ⟨-, rfl⟩ := readUtf16_eq_point h
    have := List.length_pos.mpr (utf16Units_ne_nil c)
    simp only [List.length_append]
    omega

/-! ## UTF-8 -/

/-- A continuation byte, `%x80-BF`: `(c & 0xC0) == 0x80`. -/
def isTail (b : Byte) : Prop := 0x80 ≤ b.toNat ∧ b.toNat < 0xC0

instance (b : Byte) : Decidable (isTail b) := inferInstanceAs (Decidable (_ ∧ _))

/-- `read_utf8_code_point`, as `utf16_in` sees it: an input that ends inside a sequence gives
`incomplete_mb_character`, on which the loop stops (`partial`), and an invalid sequence gives
`invalid_mb_sequence`, on which it returns `error`. The tests run in the source's order, so a
cut sequence whose bytes already fail a test is an error. -/
def readUtf8 : List Byte → ReadResult Byte
  | [] => .stop
  | c1 :: rest =>
      if c1.toNat < 0x80 then .point c1.toNat rest
      else if c1.toNat < 0xC2 then .error
      else if c1.toNat < 0xE0 then
        match rest with
        | [] => .stop
        | c2 :: rest =>
            if isTail c2 then .point (c1.toNat * 0x40 + c2.toNat - 0x3080) rest else .error
      else if c1.toNat < 0xF0 then
        match rest with
        | [] => .stop
        | c2 :: rest =>
            if isTail c2 ∧ ¬(c1.toNat = 0xE0 ∧ c2.toNat < 0xA0) then
              match rest with
              | [] => .stop
              | c3 :: rest =>
                  if isTail c3 then
                    .point (c1.toNat * 0x1000 + c2.toNat * 0x40 + c3.toNat - 0xE2080) rest
                  else .error
            else .error
      else if c1.toNat < 0xF5 then
        match rest with
        | [] => .stop
        | c2 :: rest =>
            if isTail c2 ∧ ¬(c1.toNat = 0xF0 ∧ c2.toNat < 0x90) ∧
                ¬(c1.toNat = 0xF4 ∧ 0x90 ≤ c2.toNat) then
              match rest with
              | [] => .stop
              | c3 :: rest =>
                  if isTail c3 then
                    match rest with
                    | [] => .stop
                    | c4 :: rest =>
                        if isTail c4 then
                          .point (c1.toNat * 0x40000 + c2.toNat * 0x1000 + c3.toNat * 0x40 +
                            c4.toNat - 0x3C82080) rest
                        else .error
                  else .error
            else .error
      else .error

/-! ### Six-bit groups

A code point of two, three or four UTF-8 bytes is read as its groups of six bits, so that the
shifts and masks of both directions become sums of bounded groups. -/

theorem digits_three {b d e : Nat} (hd : d < 0x40) (he : e < 0x40) :
    (b * 0x1000 + d * 0x40 + e) / 0x1000 = b ∧ (b * 0x1000 + d * 0x40 + e) / 0x40 % 0x40 = d ∧
      (b * 0x1000 + d * 0x40 + e) % 0x40 = e := by
  omega

theorem digits_four {a b d e : Nat} (hb : b < 0x40) (hd : d < 0x40) (he : e < 0x40) :
    (a * 0x40000 + b * 0x1000 + d * 0x40 + e) / 0x40000 = a ∧
      (a * 0x40000 + b * 0x1000 + d * 0x40 + e) / 0x1000 % 0x40 = b ∧
      (a * 0x40000 + b * 0x1000 + d * 0x40 + e) / 0x40 % 0x40 = d ∧
      (a * 0x40000 + b * 0x1000 + d * 0x40 + e) % 0x40 = e := by
  omega

theorem exists_digits_two (c : Nat) : ∃ d e, e < 0x40 ∧ c = d * 0x40 + e :=
  ⟨c / 0x40, c % 0x40, Nat.mod_lt _ (by decide), by omega⟩

theorem exists_digits_three (c : Nat) :
    ∃ b d e, d < 0x40 ∧ e < 0x40 ∧ c = b * 0x1000 + d * 0x40 + e :=
  ⟨c / 0x1000, c / 0x40 % 0x40, c % 0x40, Nat.mod_lt _ (by decide), Nat.mod_lt _ (by decide),
    by omega⟩

theorem exists_digits_four (c : Nat) :
    ∃ a b d e, b < 0x40 ∧ d < 0x40 ∧ e < 0x40 ∧ c = a * 0x40000 + b * 0x1000 + d * 0x40 + e :=
  ⟨c / 0x40000, c / 0x1000 % 0x40, c / 0x40 % 0x40, c % 0x40, Nat.mod_lt _ (by decide),
    Nat.mod_lt _ (by decide), Nat.mod_lt _ (by decide), by omega⟩

/-! ### The bytes of each length -/

theorem utf8Bytes_one {c : Nat} (h : c < 0x80) : utf8Bytes c = [BitVec.ofNat 8 c] := by
  rw [utf8Bytes, if_pos h]

theorem utf8Bytes_two {d e : Nat} (hd : 2 ≤ d ∧ d < 0x20) (he : e < 0x40) :
    utf8Bytes (d * 0x40 + e) = [BitVec.ofNat 8 (0xC0 + d), BitVec.ofNat 8 (0x80 + e)] := by
  rw [utf8Bytes, if_neg (by omega), if_pos (by omega)]
  have h1 : (d * 0x40 + e) / 0x40 = d := by omega
  have h2 : (d * 0x40 + e) % 0x40 = e := by omega
  rw [h1, h2]

theorem utf8Bytes_three {b d e : Nat} (hb : b < 0x10) (hd : d < 0x40) (he : e < 0x40)
    (hlo : b = 0 → 0x20 ≤ d) :
    utf8Bytes (b * 0x1000 + d * 0x40 + e) =
      [BitVec.ofNat 8 (0xE0 + b), BitVec.ofNat 8 (0x80 + d), BitVec.ofNat 8 (0x80 + e)] := by
  rw [utf8Bytes, if_neg (by omega), if_neg (by omega), if_pos (by omega)]
  obtain ⟨h1, h2, h3⟩ := digits_three (b := b) hd he
  rw [h1, h2, h3]

theorem utf8Bytes_four {a b d e : Nat} (ha : a < 5) (hb : b < 0x40) (hd : d < 0x40)
    (he : e < 0x40) (hlo : a = 0 → 0x10 ≤ b) :
    utf8Bytes (a * 0x40000 + b * 0x1000 + d * 0x40 + e) =
      [BitVec.ofNat 8 (0xF0 + a), BitVec.ofNat 8 (0x80 + b), BitVec.ofNat 8 (0x80 + d),
        BitVec.ofNat 8 (0x80 + e)] := by
  rw [utf8Bytes, if_neg (by omega), if_neg (by omega), if_neg (by omega)]
  obtain ⟨h1, h2, h3, h4⟩ := digits_four (a := a) hb hd he
  rw [h1, h2, h3, h4]

/-! ### Reading them back -/

theorem readUtf8_two {d e : Nat} (hd : 2 ≤ d ∧ d < 0x20) (he : e < 0x40) (rest : List Byte) :
    readUtf8 ([BitVec.ofNat 8 (0xC0 + d), BitVec.ofNat 8 (0x80 + e)] ++ rest) =
      .point (d * 0x40 + e) rest := by
  simp only [List.cons_append, List.nil_append, readUtf8, isTail,
    toNat_ofNat_of_lt (show 0xC0 + d < 2 ^ 8 by omega),
    toNat_ofNat_of_lt (show 0x80 + e < 2 ^ 8 by omega)]
  rw [if_neg (by omega), if_neg (by omega), if_pos (by omega), if_pos (by omega)]
  simp only [ReadResult.point.injEq, and_true]
  omega

/-- The three bytes of every code point from `0x800` to `0xFFFF` are read back, those of the
surrogates included. -/
theorem readUtf8_three {b d e : Nat} (hb : b < 0x10) (hd : d < 0x40) (he : e < 0x40)
    (hlo : b = 0 → 0x20 ≤ d) (rest : List Byte) :
    readUtf8 ([BitVec.ofNat 8 (0xE0 + b), BitVec.ofNat 8 (0x80 + d), BitVec.ofNat 8 (0x80 + e)] ++
      rest) = .point (b * 0x1000 + d * 0x40 + e) rest := by
  simp only [List.cons_append, List.nil_append, readUtf8, isTail,
    toNat_ofNat_of_lt (show 0xE0 + b < 2 ^ 8 by omega),
    toNat_ofNat_of_lt (show 0x80 + d < 2 ^ 8 by omega),
    toNat_ofNat_of_lt (show 0x80 + e < 2 ^ 8 by omega)]
  rw [if_neg (by omega), if_neg (by omega), if_neg (by omega), if_pos (by omega),
    if_pos (by omega), if_pos (by omega)]
  simp only [ReadResult.point.injEq, and_true]
  omega

theorem readUtf8_four {a b d e : Nat} (ha : a < 5) (hb : b < 0x40) (hd : d < 0x40)
    (he : e < 0x40) (hlo : a = 0 → 0x10 ≤ b) (hhi : a = 4 → b < 0x10) (rest : List Byte) :
    readUtf8 ([BitVec.ofNat 8 (0xF0 + a), BitVec.ofNat 8 (0x80 + b), BitVec.ofNat 8 (0x80 + d),
      BitVec.ofNat 8 (0x80 + e)] ++ rest) =
        .point (a * 0x40000 + b * 0x1000 + d * 0x40 + e) rest := by
  simp only [List.cons_append, List.nil_append, readUtf8, isTail,
    toNat_ofNat_of_lt (show 0xF0 + a < 2 ^ 8 by omega),
    toNat_ofNat_of_lt (show 0x80 + b < 2 ^ 8 by omega),
    toNat_ofNat_of_lt (show 0x80 + d < 2 ^ 8 by omega),
    toNat_ofNat_of_lt (show 0x80 + e < 2 ^ 8 by omega)]
  rw [if_neg (by omega), if_neg (by omega), if_neg (by omega), if_neg (by omega),
    if_pos (by omega), if_pos (by omega), if_pos (by omega), if_pos (by omega)]
  simp only [ReadResult.point.injEq, and_true]
  omega

/-- `read_utf8_code_point` reads back the bytes of every code point up to `0x10FFFF`. -/
theorem readUtf8_utf8Bytes {c : Nat} (hc : c < 0x110000) (rest : List Byte) :
    readUtf8 (utf8Bytes c ++ rest) = .point c rest := by
  rcases Nat.lt_or_ge c 0x80 with h1 | h1
  · simp only [utf8Bytes_one h1, List.singleton_append, readUtf8,
      toNat_ofNat_of_lt (show c < 2 ^ 8 by omega), if_pos h1]
  rcases Nat.lt_or_ge c 0x800 with h2 | h2
  · obtain ⟨d, e, he, rfl⟩ := exists_digits_two c
    rw [utf8Bytes_two ⟨by omega, by omega⟩ he, readUtf8_two ⟨by omega, by omega⟩ he]
  rcases Nat.lt_or_ge c 0x10000 with h3 | h3
  · obtain ⟨b, d, e, hd, he, rfl⟩ := exists_digits_three c
    rw [utf8Bytes_three (by omega) hd he (by omega), readUtf8_three (by omega) hd he (by omega)]
  · obtain ⟨a, b, d, e, hb, hd, he, rfl⟩ := exists_digits_four c
    rw [utf8Bytes_four (by omega) hb hd he (by omega),
      readUtf8_four (by omega) hb hd he (by omega) (by omega)]

/-! ### Only what the encoder writes is read -/

theorem utf8Bytes_of_two {c1 c2 : Byte} (h1 : 0xC2 ≤ c1.toNat ∧ c1.toNat < 0xE0)
    (h2 : isTail c2) :
    c1.toNat * 0x40 + c2.toNat - 0x3080 < 0x110000 ∧
      utf8Bytes (c1.toNat * 0x40 + c2.toNat - 0x3080) = [c1, c2] := by
  unfold isTail at h2
  obtain ⟨d, hd⟩ := Nat.exists_eq_add_of_le (show 0xC0 ≤ c1.toNat by omega)
  obtain ⟨e, he⟩ := Nat.exists_eq_add_of_le h2.1
  rw [show c1.toNat * 0x40 + c2.toNat - 0x3080 = d * 0x40 + e by omega]
  refine ⟨by omega, ?_⟩
  rw [utf8Bytes_two (by omega) (by omega), ← hd, ← he, ofNat_toNat_eq, ofNat_toNat_eq]

theorem utf8Bytes_of_three {c1 c2 c3 : Byte} (h1 : 0xE0 ≤ c1.toNat ∧ c1.toNat < 0xF0)
    (h2 : isTail c2 ∧ ¬(c1.toNat = 0xE0 ∧ c2.toNat < 0xA0)) (h3 : isTail c3) :
    c1.toNat * 0x1000 + c2.toNat * 0x40 + c3.toNat - 0xE2080 < 0x110000 ∧
      utf8Bytes (c1.toNat * 0x1000 + c2.toNat * 0x40 + c3.toNat - 0xE2080) = [c1, c2, c3] := by
  unfold isTail at h2 h3
  obtain ⟨b, hb⟩ := Nat.exists_eq_add_of_le h1.1
  obtain ⟨d, hd⟩ := Nat.exists_eq_add_of_le h2.1.1
  obtain ⟨e, he⟩ := Nat.exists_eq_add_of_le h3.1
  rw [show c1.toNat * 0x1000 + c2.toNat * 0x40 + c3.toNat - 0xE2080 = b * 0x1000 + d * 0x40 + e
    by omega]
  refine ⟨by omega, ?_⟩
  rw [utf8Bytes_three (by omega) (by omega) (by omega) (by omega), ← hb, ← hd, ← he,
    ofNat_toNat_eq, ofNat_toNat_eq, ofNat_toNat_eq]

theorem utf8Bytes_of_four {c1 c2 c3 c4 : Byte} (h1 : 0xF0 ≤ c1.toNat ∧ c1.toNat < 0xF5)
    (h2 : isTail c2 ∧ ¬(c1.toNat = 0xF0 ∧ c2.toNat < 0x90) ∧ ¬(c1.toNat = 0xF4 ∧ 0x90 ≤ c2.toNat))
    (h3 : isTail c3) (h4 : isTail c4) :
    c1.toNat * 0x40000 + c2.toNat * 0x1000 + c3.toNat * 0x40 + c4.toNat - 0x3C82080 < 0x110000 ∧
      utf8Bytes (c1.toNat * 0x40000 + c2.toNat * 0x1000 + c3.toNat * 0x40 + c4.toNat -
        0x3C82080) = [c1, c2, c3, c4] := by
  unfold isTail at h2 h3 h4
  obtain ⟨a, ha⟩ := Nat.exists_eq_add_of_le h1.1
  obtain ⟨b, hb⟩ := Nat.exists_eq_add_of_le h2.1.1
  obtain ⟨d, hd⟩ := Nat.exists_eq_add_of_le h3.1
  obtain ⟨e, he⟩ := Nat.exists_eq_add_of_le h4.1
  rw [show c1.toNat * 0x40000 + c2.toNat * 0x1000 + c3.toNat * 0x40 + c4.toNat - 0x3C82080 =
    a * 0x40000 + b * 0x1000 + d * 0x40 + e by omega]
  refine ⟨by omega, ?_⟩
  rw [utf8Bytes_four (by omega) (by omega) (by omega) (by omega) (by omega), ← ha, ← hb, ← hd,
    ← he, ofNat_toNat_eq, ofNat_toNat_eq, ofNat_toNat_eq, ofNat_toNat_eq]

/-- `read_utf8_code_point` reads only the bytes `write_utf8_code_point` writes for a code
point up to `0x10FFFF`, a surrogate or not. -/
theorem readUtf8_eq_point {l : List Byte} {c : Nat} {r : List Byte}
    (h : readUtf8 l = .point c r) : c < 0x110000 ∧ l = utf8Bytes c ++ r := by
  match l with
  | [] => cases h
  | c1 :: rest =>
      simp only [readUtf8] at h
      by_cases h1 : c1.toNat < 0x80
      · simp only [if_pos h1, ReadResult.point.injEq] at h
        obtain ⟨rfl, rfl⟩ := h
        refine ⟨by omega, ?_⟩
        rw [utf8Bytes_one h1, ofNat_toNat_eq, List.singleton_append]
      by_cases hc : c1.toNat < 0xC2
      · simp only [if_neg h1, if_pos hc, reduceCtorEq] at h
      by_cases h2 : c1.toNat < 0xE0
      · simp only [if_neg h1, if_neg hc, if_pos h2] at h
        match rest, h with
        | [], h => cases h
        | c2 :: rest, h =>
            by_cases ht : isTail c2
            · simp only [if_pos ht, ReadResult.point.injEq] at h
              obtain ⟨rfl, rfl⟩ := h
              obtain ⟨hs, he⟩ := utf8Bytes_of_two ⟨by omega, h2⟩ ht
              exact ⟨hs, by rw [he]; rfl⟩
            · simp only [if_neg ht, reduceCtorEq] at h
      by_cases h3 : c1.toNat < 0xF0
      · simp only [if_neg h1, if_neg hc, if_neg h2, if_pos h3] at h
        match rest, h with
        | [], h => cases h
        | c2 :: rest, h =>
            by_cases ht : isTail c2 ∧ ¬(c1.toNat = 0xE0 ∧ c2.toNat < 0xA0)
            · simp only [if_pos ht] at h
              match rest, h with
              | [], h => cases h
              | c3 :: rest, h =>
                  by_cases ht3 : isTail c3
                  · simp only [if_pos ht3, ReadResult.point.injEq] at h
                    obtain ⟨rfl, rfl⟩ := h
                    obtain ⟨hs, he⟩ := utf8Bytes_of_three ⟨by omega, h3⟩ ht ht3
                    exact ⟨hs, by rw [he]; rfl⟩
                  · simp only [if_neg ht3, reduceCtorEq] at h
            · simp only [if_neg ht, reduceCtorEq] at h
      by_cases h4 : c1.toNat < 0xF5
      · simp only [if_neg h1, if_neg hc, if_neg h2, if_neg h3, if_pos h4] at h
        match rest, h with
        | [], h => cases h
        | c2 :: rest, h =>
            by_cases ht : isTail c2 ∧ ¬(c1.toNat = 0xF0 ∧ c2.toNat < 0x90) ∧
                ¬(c1.toNat = 0xF4 ∧ 0x90 ≤ c2.toNat)
            · simp only [if_pos ht] at h
              match rest, h with
              | [], h => cases h
              | c3 :: rest, h =>
                  by_cases ht3 : isTail c3
                  · simp only [if_pos ht3] at h
                    match rest, h with
                    | [], h => cases h
                    | c4 :: rest, h =>
                        by_cases ht4 : isTail c4
                        · simp only [if_pos ht4, ReadResult.point.injEq] at h
                          obtain ⟨rfl, rfl⟩ := h
                          obtain ⟨hs, he⟩ := utf8Bytes_of_four ⟨by omega, h4⟩ ht ht3 ht4
                          exact ⟨hs, by rw [he]; rfl⟩
                        · simp only [if_neg ht4, reduceCtorEq] at h
                  · simp only [if_neg ht3, reduceCtorEq] at h
            · simp only [if_neg ht, reduceCtorEq] at h
      simp only [if_neg h1, if_neg hc, if_neg h2, if_neg h3, if_neg h4, reduceCtorEq] at h

/-- `codecvt_utf8_utf16::do_in` reads UTF-8. -/
def utf8Reader : CodePointReader Byte where
  read := readUtf8
  read_nil := rfl
  read_length {_ c _} h := by
    obtain ⟨-, rfl⟩ := readUtf8_eq_point h
    have := List.length_pos.mpr (utf8Bytes_ne_nil c)
    simp only [List.length_append]
    omega

/-! ## `wstring_convert` -/

/-- `wstring_convert::to_bytes`: the UTF-8 of what `utf16_out` converts, or none where it
throws `std::range_error`. -/
def toBytes (us : List (BitVec 16)) : Option (List Byte) :=
  (utf16Reader.decode us).map (·.flatMap utf8Bytes)

/-- `wstring_convert::from_bytes`: the UTF-16 of what `utf16_in` converts, or none where it
throws `std::range_error`. -/
def fromBytes (bs : List Byte) : Option (List (BitVec 16)) :=
  (utf8Reader.decode bs).map (·.flatMap utf16Units)

theorem toBytes_flatMap {cps : List Nat} (hp : ∀ c ∈ cps, Scalar c) :
    toBytes (cps.flatMap utf16Units) = some (cps.flatMap utf8Bytes) := by
  rw [toBytes, utf16Reader.decode_flatMap utf16Units
    (fun _ rest hc => readUtf16_utf16Units hc rest) hp]
  rfl

theorem fromBytes_flatMap {cps : List Nat} (hp : ∀ c ∈ cps, Scalar c) :
    fromBytes (cps.flatMap utf8Bytes) = some (cps.flatMap utf16Units) := by
  rw [fromBytes, utf8Reader.decode_flatMap utf8Bytes
    (fun _ rest (hc : Scalar _) => readUtf8_utf8Bytes hc.lt rest) hp]
  rfl

/-- `to_bytes` of the first units of well-formed UTF-16 never throws, and gives a prefix of
the UTF-8 of the whole: a cut inside a surrogate pair leaves its high half at the end, where
`utf16_out` stops. -/
theorem toBytes_take {cps : List Nat} (hp : ∀ c ∈ cps, Scalar c) (k : Nat) :
    ∃ bs, toBytes ((cps.flatMap utf16Units).take k) = some bs ∧
      bs <+: cps.flatMap utf8Bytes := by
  obtain ⟨cps', hd, t, rfl⟩ := utf16Reader.decode_take utf16Units
    (fun _ rest hc => readUtf16_utf16Units hc rest) (fun _ k hc hk => readUtf16_take hc k hk) hp k
  exact ⟨cps'.flatMap utf8Bytes, by rw [toBytes, hd]; rfl, t.flatMap utf8Bytes,
    (List.flatMap_append _ _ _).symm⟩

/-! ## U+0000

`get_value_string` and `set_value_from_string` cut a string at its first zero unit. Both
encodings write U+0000 as one zero and no zero for any other scalar value, so the cut commutes
with the conversion. -/

/-- What comes before the first zero of an encoding is the encoding of what comes before
U+0000. -/
theorem takeWhile_flatMap {α : Type} [Zero α] [DecidableEq α] {enc : Nat → List α}
    (h0 : enc 0 = [0]) (hne : ∀ c, Scalar c → c ≠ 0 → 0 ∉ enc c) {cps : List Nat}
    (hp : ∀ c ∈ cps, Scalar c) :
    (cps.flatMap enc).takeWhile (· != 0) = (cps.takeWhile (· != 0)).flatMap enc := by
  induction cps with
  | nil => rfl
  | cons c cps ih =>
      have ih := ih fun c' h => hp c' (List.mem_cons_of_mem c h)
      by_cases hc : c = 0
      · subst hc
        simp [h0]
      · have hall : ∀ x ∈ enc c, (x != 0) = true := fun x hx =>
          bne_iff_ne.mpr fun hx0 => hne c (hp c (List.mem_cons_self c cps)) hc (hx0 ▸ hx)
        rw [List.flatMap_cons, List.takeWhile_append_of_pos hall, ih]
        simp [List.takeWhile_cons, hc]

theorem utf16Units_zero : utf16Units 0 = [0] := rfl

theorem utf8Bytes_zero : utf8Bytes 0 = [0] := rfl

theorem ofNat_ne_zero {w n : Nat} (h0 : 0 < n) (h : n < 2 ^ w) : BitVec.ofNat w n ≠ 0 := fun h' =>
  by simpa [toNat_ofNat_of_lt h, Nat.pos_iff_ne_zero.mp h0] using congrArg BitVec.toNat h'

theorem zero_not_mem_utf16Units {c : Nat} (hc : Scalar c) (h0 : c ≠ 0) : 0 ∉ utf16Units c := by
  unfold Scalar at hc
  rcases Nat.lt_or_ge c 0x10000 with h1 | h1
  · rw [utf16Units_one h1, List.mem_singleton]
    exact (ofNat_ne_zero (by omega) (by omega)).symm
  · obtain ⟨hi, lo, hlo, rfl⟩ := exists_pair h1
    rw [utf16Units_pair (by omega) hlo]
    simp only [List.mem_cons, List.mem_singleton, List.not_mem_nil, or_false, not_or]
    exact ⟨(ofNat_ne_zero (by omega) (by omega)).symm, (ofNat_ne_zero (by omega) (by omega)).symm⟩

theorem zero_not_mem_utf8Bytes {c : Nat} (hc : Scalar c) (h0 : c ≠ 0) : 0 ∉ utf8Bytes c := by
  unfold Scalar at hc
  rcases Nat.lt_or_ge c 0x80 with h1 | h1
  · rw [utf8Bytes_one h1, List.mem_singleton]
    exact (ofNat_ne_zero (by omega) (by omega)).symm
  rcases Nat.lt_or_ge c 0x800 with h2 | h2
  · obtain ⟨d, e, he, rfl⟩ := exists_digits_two c
    rw [utf8Bytes_two ⟨by omega, by omega⟩ he]
    simp only [List.mem_cons, List.mem_singleton, List.not_mem_nil, or_false, not_or]
    exact ⟨(ofNat_ne_zero (by omega) (by omega)).symm, (ofNat_ne_zero (by omega) (by omega)).symm⟩
  rcases Nat.lt_or_ge c 0x10000 with h3 | h3
  · obtain ⟨b, d, e, hd, he, rfl⟩ := exists_digits_three c
    rw [utf8Bytes_three (by omega) hd he (by omega)]
    simp only [List.mem_cons, List.mem_singleton, List.not_mem_nil, or_false, not_or]
    exact ⟨(ofNat_ne_zero (by omega) (by omega)).symm, (ofNat_ne_zero (by omega) (by omega)).symm,
      (ofNat_ne_zero (by omega) (by omega)).symm⟩
  · obtain ⟨a, b, d, e, hb, hd, he, rfl⟩ := exists_digits_four c
    rw [utf8Bytes_four (by omega) hb hd he (by omega)]
    simp only [List.mem_cons, List.mem_singleton, List.not_mem_nil, or_false, not_or]
    exact ⟨(ofNat_ne_zero (by omega) (by omega)).symm, (ofNat_ne_zero (by omega) (by omega)).symm,
      (ofNat_ne_zero (by omega) (by omega)).symm, (ofNat_ne_zero (by omega) (by omega)).symm⟩

end Libki
