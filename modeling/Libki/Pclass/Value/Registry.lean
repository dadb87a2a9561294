import Libki.Pclass.Value.Equations

/-! # The caster registry over a run

The abstract registry is `Runtime.entry`: the caster, if any, from one type to another.
Only `declare` changes it; every other call can only create casters, allocate storage and
hand back fresh owning values (`Runtime.Produces`). A `Value` keeps a pointer into the
shared registry, not a copy of it, and `ValueCaster::get` never replaces a caster, so a
value made before a declaration sees that declaration. -/

namespace Libki.Pclass

variable {Datum : Type}

namespace Runtime

/-- The caster registered from `src` to `dest`, if any. -/
def entry (rt : Runtime Datum) (src dest : TypeHash) : Option Caster :=
  (rt.casterLookup src).bind fun a => (rt.casters a).casts dest

/-- Every entry of `s_caster_lookup` points to an allocated `ValueCaster` of its own
source type, whose casters all convert from that type. -/
structure WellFormed (rt : Runtime Datum) : Prop where
  lookup_lt : ∀ {s a}, rt.casterLookup s = some a → a < rt.casterCount
  lookup_src : ∀ {s a}, rt.casterLookup s = some a → (rt.casters a).srcType = s
  casts_eq : ∀ {s a d c}, rt.casterLookup s = some a → (rt.casters a).casts d = some c →
    c = ⟨s, d⟩

/-- A value whose caster pointer is the registry's caster of its type, and whose storage
is allocated. -/
def Live (rt : Runtime Datum) (v : Value) : Prop :=
  rt.casterLookup v.typeHash = some v.caster ∧ v.valuePtr < rt.next

/-- `rt'` keeps every registry entry and every allocated cell of `rt`. -/
structure Extends (rt rt' : Runtime Datum) : Prop where
  lookup : ∀ {s a}, rt.casterLookup s = some a → rt'.casterLookup s = some a
  memory : ∀ {p}, p < rt.next → rt'.memory p = rt.memory p
  next_le : rt.next ≤ rt'.next

/-- What every call but a declaration does: it may create casters and allocate storage,
and it registers no conversion. -/
structure Grows (rt rt' : Runtime Datum) extends Extends rt rt' : Prop where
  wellFormed : rt'.WellFormed
  entry : rt'.entry = rt.entry

/-- What every call that may make a value does: the runtime grows, a returned value is
fresh, owning and live, and a call that raises changes nothing. -/
structure Produces (rt : Runtime Datum) (r : Except Error Value × Runtime Datum) : Prop where
  grows : rt.Grows r.2
  ok : ∀ {v}, r.1 = .ok v → r.2.Live v ∧ v.ptrIsOwned = true ∧ rt.next ≤ v.valuePtr
  error : ∀ {e}, r.1 = .error e → r.2 = rt

theorem init_wellFormed (memory : Nat → Datum) (next : Nat) : (init memory next).WellFormed :=
  ⟨by simp [init], by simp [init], by simp [init]⟩

@[simp] theorem init_entry (memory : Nat → Datum) (next : Nat) (s d : TypeHash) :
    (init memory next).entry s d = none := rfl

/-- The invariant, one registry entry at a time. -/
theorem WellFormed.of_lookup {rt : Runtime Datum}
    (h : ∀ {s a}, rt.casterLookup s = some a → a < rt.casterCount ∧
      (rt.casters a).srcType = s ∧ ∀ {d c}, (rt.casters a).casts d = some c → c = ⟨s, d⟩) :
    rt.WellFormed :=
  ⟨fun h' => (h h').1, fun h' => (h h').2.1, fun h' hc => (h h').2.2 hc⟩

theorem WellFormed.entry_eq {rt : Runtime Datum} (hw : rt.WellFormed) {s d : TypeHash}
    {c : Caster} (h : rt.entry s d = some c) : c = ⟨s, d⟩ := by
  simp only [entry, Option.bind_eq_some] at h
  obtain ⟨a, ha, hc⟩ := h
  exact hw.casts_eq ha hc

theorem Extends.refl (rt : Runtime Datum) : rt.Extends rt := ⟨id, fun _ => rfl, Nat.le_refl _⟩

theorem Extends.trans {rt rt' rt'' : Runtime Datum} (h : rt.Extends rt')
    (h' : rt'.Extends rt'') : rt.Extends rt'' :=
  ⟨h'.lookup ∘ h.lookup, fun hp => (h'.memory (Nat.lt_of_lt_of_le hp h.next_le)).trans
    (h.memory hp), Nat.le_trans h.next_le h'.next_le⟩

theorem Extends.live {rt rt' : Runtime Datum} (h : rt.Extends rt') {v : Value}
    (hv : rt.Live v) : rt'.Live v :=
  ⟨h.lookup hv.1, Nat.lt_of_lt_of_le hv.2 h.next_le⟩

theorem Grows.refl {rt : Runtime Datum} (hw : rt.WellFormed) : rt.Grows rt :=
  ⟨Extends.refl rt, hw, rfl⟩

theorem Grows.trans {rt rt' rt'' : Runtime Datum} (h : rt.Grows rt') (h' : rt'.Grows rt'') :
    rt.Grows rt'' :=
  ⟨h.toExtends.trans h'.toExtends, h'.wellFormed, h'.entry.trans h.entry⟩

/-! ## Allocation and lazy creation -/

@[simp] theorem alloc_casterLookup (rt : Runtime Datum) (x : Datum) :
    (rt.alloc x).casterLookup = rt.casterLookup := rfl

@[simp] theorem alloc_casters (rt : Runtime Datum) (x : Datum) :
    (rt.alloc x).casters = rt.casters := rfl

@[simp] theorem alloc_casterCount (rt : Runtime Datum) (x : Datum) :
    (rt.alloc x).casterCount = rt.casterCount := rfl

@[simp] theorem alloc_next (rt : Runtime Datum) (x : Datum) :
    (rt.alloc x).next = rt.next + 1 := rfl

@[simp] theorem alloc_memory_next (rt : Runtime Datum) (x : Datum) :
    (rt.alloc x).memory rt.next = x := by simp [alloc]

theorem alloc_grows {rt : Runtime Datum} (hw : rt.WellFormed) (x : Datum) :
    rt.Grows (rt.alloc x) :=
  ⟨⟨id, fun hp => by simp [alloc, Function.update_noteq (Nat.ne_of_lt hp)], by simp⟩,
    ⟨hw.lookup_lt, hw.lookup_src, hw.casts_eq⟩, rfl⟩

end Runtime

open Runtime

namespace ValueCaster

theorem get_of_some {rt : Runtime Datum} {s a : TypeHash} (h : rt.casterLookup s = some a) :
    get rt s = (a, rt) := by
  simp [get, h]

@[simp] theorem get_lookup (rt : Runtime Datum) (s : TypeHash) :
    (get rt s).2.casterLookup s = some (get rt s).1 := by
  unfold get
  split <;> simp_all

@[simp] theorem get_memory (rt : Runtime Datum) (s : TypeHash) :
    (get rt s).2.memory = rt.memory := by
  unfold get
  split <;> rfl

@[simp] theorem get_next (rt : Runtime Datum) (s : TypeHash) :
    (get rt s).2.next = rt.next := by
  unfold get
  split <;> rfl

theorem get_grows {rt : Runtime Datum} (hw : rt.WellFormed) (s : TypeHash) :
    rt.Grows (get rt s).2 := by
  cases h : rt.casterLookup s with
  | some a => simpa only [get_of_some h] using Grows.refl hw
  | none =>
      have hne : ∀ {s' a}, rt.casterLookup s' = some a → s' ≠ s ∧ a ≠ rt.casterCount :=
        fun h' => ⟨by rintro rfl; simp [h] at h', Nat.ne_of_lt (hw.lookup_lt h')⟩
      simp only [get, h]
      refine ⟨⟨fun h' => ?_, fun _ => rfl, Nat.le_refl _⟩,
        WellFormed.of_lookup fun {s' a} h' => ?_, ?_⟩
      · simp [Function.update_noteq (hne h').1, h']
      · by_cases hs : s' = s
        · subst hs; simp at h'; subst h'; simp
        · simp only [Function.update_noteq hs] at h'
          simp only [Function.update_noteq (hne h').2]
          exact ⟨Nat.lt_succ_of_lt (hw.lookup_lt h'), hw.lookup_src h', hw.casts_eq h'⟩
      · funext s' d
        by_cases hs : s' = s
        · subst hs; simp [entry, h]
        · cases h' : rt.casterLookup s' with
          | none => simp [entry, Function.update_noteq hs, h']
          | some a => simp [entry, Function.update_noteq hs, h', Function.update_noteq (hne h').2]

theorem declare_spec {rt : Runtime Datum} (hw : rt.WellFormed) (s d : TypeHash) :
    (declare rt s d).WellFormed ∧ rt.Extends (declare rt s d) ∧
      ∀ s' d', (declare rt s d).entry s' d' =
        if (s == s' && d == d') = true then some ⟨s', d'⟩ else rt.entry s' d' := by
  have hg := get_grows hw s
  have hw' := hg.wellFormed
  have hl := get_lookup rt s
  have hsame : ∀ {s' a}, (get rt s).2.casterLookup s' = some a → (a = (get rt s).1 ↔ s' = s) :=
    fun {s' a} h' => ⟨by rintro rfl; rw [← hw'.lookup_src h', hw'.lookup_src hl],
      by rintro rfl; simpa [hl] using h'.symm⟩
  refine ⟨WellFormed.of_lookup fun {s' a} h' => ?_,
    hg.toExtends.trans ⟨id, fun _ => rfl, Nat.le_refl _⟩, fun s' d' => ?_⟩
  · by_cases ha : a = (get rt s).1
    · subst ha
      obtain rfl := (hsame h').1 rfl
      refine ⟨hw'.lookup_lt h', by simpa [declare, addCaster] using hw'.lookup_src hl,
        fun {d' c} hc => ?_⟩
      simp only [declare, addCaster, Function.update_same, Function.update_apply] at hc
      split at hc
      · cases hc; subst_vars; rfl
      · exact hw'.casts_eq h' hc
    · simp only [declare, Function.update_noteq ha]
      exact ⟨hw'.lookup_lt h', hw'.lookup_src h', hw'.casts_eq h'⟩
  · rw [← hg.entry]
    cases h' : (get rt s).2.casterLookup s' with
    | none =>
        have hs : s' ≠ s := by rintro rfl; simp [hl] at h'
        simp [entry, declare, h', Ne.symm hs]
    | some a =>
        by_cases hs : s' = s
        · subst hs
          obtain rfl : a = (get rt s').1 := by simpa [hl] using h'.symm
          by_cases hd : d' = d
          · simp [entry, declare, addCaster, h', hd]
          · simp [entry, declare, addCaster, h', Ne.symm hd, Function.update_noteq hd]
        · have ha : a ≠ (get rt s).1 := fun h => hs ((hsame h').1 h)
          simp [entry, declare, h', Ne.symm hs, Function.update_noteq ha]

end ValueCaster

/-! ## Calls that make values -/

theorem Runtime.produces_error {rt : Runtime Datum} (hw : rt.WellFormed) (e : Error) :
    rt.Produces (.error e, rt) :=
  ⟨Grows.refl hw, by simp, fun _ => rfl⟩

theorem Value.makeValue_produces {rt : Runtime Datum} (hw : rt.WellFormed) (t : TypeHash)
    (x : Datum) : rt.Produces (.ok (Value.makeValue rt t x).1, (Value.makeValue rt t x).2) := by
  refine ⟨(alloc_grows hw x).trans (ValueCaster.get_grows (alloc_grows hw x).wellFormed t),
    fun {v} h => ?_, by simp⟩
  obtain rfl : v = _ := (Except.ok.inj h).symm
  exact ⟨⟨ValueCaster.get_lookup _ t, by simp [Value.makeValue]⟩, rfl, Nat.le_refl _⟩

theorem Value.makeReference_grows {rt : Runtime Datum} (hw : rt.WellFormed) (t : TypeHash)
    (p : Nat) : rt.Grows (Value.makeReference rt t p).2 :=
  ValueCaster.get_grows hw t

/-- A call that may make a value either raises before it changes anything, or ends in
`make_value` on the runtime it was given. -/
def Runtime.MakesValue (rt : Runtime Datum) (r : Except Error Value × Runtime Datum) : Prop :=
  (∃ e, r = (.error e, rt)) ∨
    ∃ d x, r = (.ok (Value.makeValue rt d x).1, (Value.makeValue rt d x).2)

theorem Runtime.MakesValue.produces {rt : Runtime Datum} {r : Except Error Value × Runtime Datum}
    (h : rt.MakesValue r) (hw : rt.WellFormed) : rt.Produces r := by
  rcases h with ⟨e, rfl⟩ | ⟨d, x, rfl⟩
  · exact produces_error hw e
  · exact Value.makeValue_produces hw d x

/-- A value a call returns is an owning one, stored in the first free cell. -/
theorem Runtime.MakesValue.ok_fresh {rt : Runtime Datum} {r : Except Error Value × Runtime Datum}
    (h : rt.MakesValue r) {v : Value} (hv : r.1 = .ok v) :
    v.ptrIsOwned = true ∧ v.valuePtr = rt.next := by
  rcases h with ⟨e, rfl⟩ | ⟨d, x, rfl⟩
  · cases hv
  · obtain rfl := (Except.ok.inj hv).symm
    exact ⟨rfl, rfl⟩

theorem Runtime.MakesValue.next_le {rt : Runtime Datum} {r : Except Error Value × Runtime Datum}
    (h : rt.MakesValue r) : rt.next ≤ r.2.next := by
  rcases h with ⟨e, rfl⟩ | ⟨d, x, rfl⟩
  · exact Nat.le_refl _
  · simp [Value.makeValue]

variable (convert : TypeHash → TypeHash → Datum → Datum)

theorem Caster.cast_makesValue (rt : Runtime Datum) (c : Caster) (v : Value) :
    rt.MakesValue (c.cast convert rt v) := by
  unfold Caster.cast
  split
  · exact .inl ⟨_, rfl⟩
  · exact .inr ⟨_, _, rfl⟩

theorem ValueCaster.castValue_makesValue (rt : Runtime Datum) (a : Nat) (d : TypeHash)
    (v : Value) : rt.MakesValue (ValueCaster.castValue convert rt a d v) := by
  unfold ValueCaster.castValue
  split
  · exact Caster.cast_makesValue convert rt _ v
  · exact .inl ⟨_, rfl⟩

theorem Value.as_makesValue (rt : Runtime Datum) (v : Value) (t : TypeHash) :
    rt.MakesValue (v.as convert rt t) := by
  unfold Value.as
  split
  · exact ValueCaster.castValue_makesValue convert rt _ t v
  · exact .inr ⟨_, _, rfl⟩

theorem ValueCaster.castTypeInfo_makesValue (rt : Runtime Datum) (d s : TypeHash) (v : Value) :
    rt.MakesValue (ValueCaster.castTypeInfo convert rt d s v) := by
  unfold ValueCaster.castTypeInfo
  split
  · exact ValueCaster.castValue_makesValue convert rt _ d v
  · exact .inl ⟨_, rfl⟩

theorem Value.dereference_makesValue (rt : Runtime Datum) (v : Value) (t : TypeHash) :
    rt.MakesValue (v.dereference rt t) := by
  unfold Value.dereference
  split
  · exact .inl ⟨_, rfl⟩
  · exact .inr ⟨_, _, rfl⟩

@[simp] theorem Value.makeValue_memory (rt : Runtime Datum) (t : TypeHash) (x : Datum) :
    (Value.makeValue rt t x).2.memory (Value.makeValue rt t x).1.valuePtr = x := by
  simp [Value.makeValue]

/-- The caster of a registered source type converts a value of that type exactly when the
registry has an entry for the destination, and raises `cast_error` otherwise. -/
theorem ValueCaster.castValue_of_lookup {rt : Runtime Datum} (hw : rt.WellFormed)
    {s a : TypeHash} (h : rt.casterLookup s = some a) {v : Value} (hv : v.typeHash = s)
    (t : TypeHash) :
    ValueCaster.castValue convert rt a t v =
      if (rt.entry s t).isSome then
        (.ok (Value.makeValue rt t (convert s t (rt.memory v.valuePtr))).1,
          (Value.makeValue rt t (convert s t (rt.memory v.valuePtr))).2)
      else (.error (.castError s t), rt) := by
  unfold ValueCaster.castValue
  cases hc : (rt.casters a).casts t with
  | none => simp [entry, h, hc, hw.lookup_src h]
  | some c =>
      obtain rfl := hw.casts_eq h hc
      simp [entry, h, hc, Caster.cast, Value.get, Value.is, hv]

/-- `cast<SrcT, DestT>` is `declare<SrcT, DestT>` followed by the lookup by hash. -/
theorem ValueCaster.cast_eq_castTypeInfo (rt : Runtime Datum) (s d : TypeHash) (v : Value) :
    ValueCaster.cast convert rt s d v =
      ValueCaster.castTypeInfo convert (ValueCaster.declare rt s d) d s v := by
  have hl : (ValueCaster.declare rt s d).casterLookup s = some (ValueCaster.get rt s).1 := by
    simp [ValueCaster.declare]
  simp [ValueCaster.cast, ValueCaster.castTypeInfo, hl, ValueCaster.get_of_some hl]

end Libki.Pclass
