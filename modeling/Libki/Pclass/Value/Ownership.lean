import Libki.Pclass.Value.Registry

/-! # Ownership of a value over any sequence of calls

`release<T>` is the only call that changes a value: on an owning value of type `T` it gives
up ownership, and the value becomes a reference. Every other call, and every call that
raises, leaves the value as it was, and `dereference` and `as` return new owning values.
So ownership is released at most once, whatever the calls and the types they ask for. -/

namespace Libki.Pclass

variable {Datum : Type} (convert : TypeHash → TypeHash → Datum → Datum)

/-- A call on one value. -/
inductive ValueOp where
  | is (t : TypeHash)
  | isReference
  | get (t : TypeHash)
  | getConst (t : TypeHash)
  | release (t : TypeHash)
  | dereference (t : TypeHash)
  | as (t : TypeHash)
  deriving DecidableEq

/-- What a call returns: a flag, a pointer to the held storage, or a new value. -/
inductive ValueResult where
  | flag (b : Bool)
  | pointer (p : Nat)
  | value (v : Value)
  deriving DecidableEq

/-- Whether the call is a `release`. -/
def ValueOp.isRelease : ValueOp → Bool
  | .release _ => true
  | _ => false

/-- One call on `v`: what it returns, `v` after it, and the runtime after it. -/
def ValueOp.apply : ValueOp → Value → Runtime Datum →
    Except Error ValueResult × Value × Runtime Datum
  | .is t, v, rt => (.ok (.flag (v.is t)), v, rt)
  | .isReference, v, rt => (.ok (.flag v.isReference), v, rt)
  | .get t, v, rt => ((v.get t).map .pointer, v, rt)
  | .getConst t, v, rt => ((v.get t).map .pointer, v, rt)
  | .release t, v, rt =>
      match v.release t with
      | .ok r => (.ok (.pointer r.1), r.2, rt)
      | .error e => (.error e, v, rt)
  | .dereference t, v, rt => let r := v.dereference rt t; (r.1.map .value, v, r.2)
  | .as t, v, rt => let r := v.as convert rt t; (r.1.map .value, v, r.2)

/-- A call of a sequence: the call, the value and the first free address before it, what
it returned, and the value after it. -/
structure Call where
  op : ValueOp
  before : Value
  next : Nat
  result : Except Error ValueResult
  after : Value

/-- Whether the call is a `release` that succeeded. -/
def Call.releases (c : Call) : Bool := c.op.isRelease && c.result.isOk

/-- The calls of `ops` on `v`, one after the other. -/
def calls : List ValueOp → Value → Runtime Datum → List Call
  | [], _, _ => []
  | op :: ops, v, rt =>
      let r := op.apply convert v rt
      ⟨op, v, rt.next, r.1, r.2.1⟩ :: calls ops r.2.1 r.2.2

/-- What one call does to its value `v`, given the first free address `next`. -/
structure CallSpec (v : Value) (next : Nat) (op : ValueOp) (result : Except Error ValueResult)
    (after : Value) : Prop where
  /-- Only a successful `release` of the held type changes the value, and only by giving
  up ownership. -/
  keeps : after = v ∨ (op = .release v.typeHash ∧ v.isReference = false ∧
    after = { v with ptrIsOwned := false } ∧ result = .ok (.pointer v.valuePtr))
  released : op.isRelease = true → result.isOk = true → after ≠ v
  error : result.isOk = false → after = v
  value : ∀ w, result = .ok (.value w) → w.isReference = false ∧ next ≤ w.valuePtr

theorem CallSpec.releases_iff {v : Value} {next : Nat} {op : ValueOp}
    {result : Except Error ValueResult} {after : Value} (h : CallSpec v next op result after) :
    (op.isRelease && result.isOk) = true ↔ after ≠ v := by
  constructor
  · intro hr
    simp only [Bool.and_eq_true] at hr
    exact h.released hr.1 hr.2
  · intro hne
    rcases h.keeps with h' | ⟨rfl, -, -, rfl⟩
    · exact absurd h' hne
    · rfl

theorem CallSpec.of_error (v : Value) (next : Nat) (op : ValueOp) (e : Error) :
    CallSpec v next op (.error e) v :=
  ⟨.inl rfl, fun _ h => by simp [Except.isOk, Except.toBool] at h, fun _ => rfl, by simp⟩

/-- A call other than `release` leaves its value as it was. -/
theorem CallSpec.of_keeps {v : Value} {next : Nat} {op : ValueOp}
    {result : Except Error ValueResult} (hop : op.isRelease = false)
    (hval : ∀ w, result = .ok (.value w) → w.isReference = false ∧ next ≤ w.valuePtr) :
    CallSpec v next op result v :=
  ⟨.inl rfl, fun h => absurd h (by simp [hop]), fun _ => rfl, hval⟩

/-- A value a call makes is owning, and its storage is the first free cell. -/
theorem makesValue_value {rt : Runtime Datum} {r : Except Error Value × Runtime Datum}
    (h : rt.MakesValue r) (w : Value) (hw : r.1.map ValueResult.value = .ok (.value w)) :
    w.isReference = false ∧ rt.next ≤ w.valuePtr := by
  cases hr : r.1 with
  | error e => simp [hr, Except.map] at hw
  | ok w' =>
      simp only [hr, Except.map, Except.ok.injEq, ValueResult.value.injEq] at hw
      subst hw
      obtain ⟨ho, hp⟩ := h.ok_fresh hr
      exact ⟨by simp [Value.isReference, ho], Nat.le_of_eq hp.symm⟩

/-- `release<t>` succeeds only on an owning value of type `t`, and leaves a reference. -/
theorem Value.release_eq_ok {v : Value} {t : TypeHash} {r : Nat × Value}
    (h : v.release t = .ok r) :
    v.isReference = false ∧ v.typeHash = t ∧ r = (v.valuePtr, { v with ptrIsOwned := false }) := by
  unfold Value.release at h
  split at h
  · cases h
  · split at h
    · cases h
    · cases h
      simp_all [Value.is]

theorem ValueOp.apply_spec (op : ValueOp) (v : Value) (rt : Runtime Datum) :
    CallSpec v rt.next op (op.apply convert v rt).1 (op.apply convert v rt).2.1 ∧
      rt.next ≤ (op.apply convert v rt).2.2.next := by
  cases op with
  | is t | isReference => exact ⟨CallSpec.of_keeps rfl (by simp [apply]), Nat.le_refl _⟩
  | get t | getConst t =>
      refine ⟨CallSpec.of_keeps rfl fun w hw => ?_, Nat.le_refl _⟩
      simp only [apply, Value.get] at hw
      split at hw <;> simp [Except.map] at hw
  | release t =>
      simp only [apply]
      cases hr : v.release t with
      | error e => exact ⟨CallSpec.of_error v rt.next _ _, Nat.le_refl _⟩
      | ok r =>
          obtain ⟨hv, rfl, rfl⟩ := Value.release_eq_ok hr
          have hne : { v with ptrIsOwned := false } ≠ v := fun h => by
            have := congrArg Value.ptrIsOwned h
            simp_all [Value.isReference]
          exact ⟨⟨.inr ⟨rfl, hv, rfl, rfl⟩, fun _ _ => hne,
            fun h => by simp [Except.isOk, Except.toBool] at h, by simp⟩, Nat.le_refl _⟩
  | dereference t =>
      have h := Value.dereference_makesValue rt v t
      exact ⟨CallSpec.of_keeps rfl (makesValue_value h), h.next_le⟩
  | as t =>
      have h := Value.as_makesValue convert rt v t
      exact ⟨CallSpec.of_keeps rfl (makesValue_value h), h.next_le⟩

/-- What a call leaves of its value: the same pointer and type, and a reference stays a
reference. -/
theorem CallSpec.after_fields {v : Value} {next : Nat} {op : ValueOp}
    {result : Except Error ValueResult} {after : Value} (h : CallSpec v next op result after) :
    after.valuePtr = v.valuePtr ∧ after.typeHash = v.typeHash ∧
      (v.isReference = true → after.isReference = true) := by
  rcases h.keeps with rfl | ⟨-, hr, rfl, -⟩
  · exact ⟨rfl, rfl, id⟩
  · exact ⟨rfl, rfl, fun h => by simp [h] at hr⟩

/-- A call that releases had an owning value of its own type, and leaves a reference. -/
theorem CallSpec.of_releases {v : Value} {next : Nat} {op : ValueOp}
    {result : Except Error ValueResult} {after : Value} (h : CallSpec v next op result after)
    (hr : (op.isRelease && result.isOk) = true) :
    v.isReference = false ∧ after.isReference = true ∧ op = .release v.typeHash := by
  rcases h.keeps with h' | ⟨hop, hv, rfl, -⟩
  · exact absurd h' (h.releases_iff.mp hr)
  · exact ⟨hv, rfl, hop⟩

theorem CallSpec.isReference_ne_iff {v : Value} {next : Nat} {op : ValueOp}
    {result : Except Error ValueResult} {after : Value} (h : CallSpec v next op result after) :
    after.isReference ≠ v.isReference ↔ (op.isRelease && result.isOk) = true := by
  constructor
  · intro hne
    exact h.releases_iff.mpr (fun h' => hne (by rw [h']))
  · intro hr
    obtain ⟨h1, h2, -⟩ := h.of_releases hr
    rw [h1, h2]
    decide

/-- A call that returns a new value leaves its own value as it was. -/
theorem CallSpec.keeps_of_value {v : Value} {next : Nat} {op : ValueOp}
    {result : Except Error ValueResult} {after : Value} (h : CallSpec v next op result after)
    {w : Value} (hw : result = .ok (.value w)) : after = v := by
  rcases h.keeps with h' | ⟨-, -, -, h'⟩
  · exact h'
  · rw [hw] at h'; cases h'

/-! ## Any sequence of calls -/

theorem calls_spec (ops : List ValueOp) (v : Value) (rt : Runtime Datum) :
    ∀ c ∈ calls convert ops v rt, CallSpec c.before c.next c.op c.result c.after ∧
      rt.next ≤ c.next ∧ c.before.valuePtr = v.valuePtr ∧ c.before.typeHash = v.typeHash := by
  induction ops generalizing v rt with
  | nil => simp [calls]
  | cons op ops ih =>
      obtain ⟨hs, hn⟩ := op.apply_spec convert v rt
      obtain ⟨hp, ht, -⟩ := hs.after_fields
      intro c hc
      simp only [calls, List.mem_cons] at hc
      rcases hc with rfl | hc
      · exact ⟨hs, Nat.le_refl _, rfl, rfl⟩
      · obtain ⟨hc, hcn, hcp, hct⟩ := ih _ _ c hc
        exact ⟨hc, Nat.le_trans hn hcn, hcp.trans hp, hct.trans ht⟩

theorem calls_releases_length (ops : List ValueOp) (v : Value) (rt : Runtime Datum) :
    ((calls convert ops v rt).filter Call.releases).length ≤ if v.isReference then 0 else 1 := by
  induction ops generalizing v rt with
  | nil => simp [calls]
  | cons op ops ih =>
      obtain ⟨hs, -⟩ := op.apply_spec convert v rt
      have hrest := ih (op.apply convert v rt).2.1 (op.apply convert v rt).2.2
      simp only [calls, List.filter_cons, Call.releases]
      split
      · rename_i hr
        obtain ⟨hv, ha, -⟩ := hs.of_releases hr
        simp only [ha, if_true] at hrest
        simp only [List.length_cons, hv, Bool.false_eq_true, if_false]
        omega
      · rename_i hr
        have h : (op.apply convert v rt).2.1 = v := of_not_not (mt hs.releases_iff.mpr hr)
        rwa [h] at hrest ⊢

/-- A call of the sequence that releases found the value owning from the start. -/
theorem calls_owning_of_releases (ops : List ValueOp) (v : Value) (rt : Runtime Datum)
    {c : Call} (hc : c ∈ calls convert ops v rt) (hr : c.releases = true) :
    v.isReference = false := by
  have hlen := calls_releases_length convert ops v rt
  by_contra hv
  simp only [Bool.not_eq_false] at hv
  simp only [hv, if_true, Nat.le_zero, List.length_eq_zero, List.filter_eq_nil_iff] at hlen
  exact absurd hr (by simpa using hlen c hc)

/-- Whatever calls are made on a value, with whatever types: its pointer and type never
change; it stops owning its storage exactly at a successful `release`, which needs an
owning value (one made by `make_value`) and its own type, so at most one `release`
succeeds; a call that raises leaves it as it was; and `dereference` and `as` return new
owning values in fresh cells and leave it as it was. -/
theorem Value.calls_ownership (ops : List ValueOp) (v : Value) (rt : Runtime Datum) :
    let cs := calls convert ops v rt
    (∀ c ∈ cs, c.after.valuePtr = v.valuePtr ∧ c.after.typeHash = v.typeHash) ∧
    (∀ c ∈ cs, c.after.isReference ≠ c.before.isReference ↔ c.releases = true) ∧
    (∀ c ∈ cs, c.releases = true → c.before.isReference = false ∧
      c.after.isReference = true ∧ c.op = .release v.typeHash ∧ v.isReference = false) ∧
    (cs.filter Call.releases).length ≤ 1 ∧
    (∀ c ∈ cs, c.result.isOk = false → c.after = c.before) ∧
    (∀ c ∈ cs, ∀ w, c.result = .ok (.value w) →
      w.isReference = false ∧ rt.next ≤ c.next ∧ c.next ≤ w.valuePtr ∧ c.after = c.before) := by
  have hspec := calls_spec convert ops v rt
  refine ⟨fun c hc => ?_, fun c hc => (hspec c hc).1.isReference_ne_iff, fun c hc hr => ?_, ?_,
    fun c hc => (hspec c hc).1.error, fun c hc w hw => ?_⟩
  · obtain ⟨hs, -, hp, ht⟩ := hspec c hc
    obtain ⟨hp', ht', -⟩ := hs.after_fields
    exact ⟨hp'.trans hp, ht'.trans ht⟩
  · obtain ⟨hs, -, -, ht⟩ := hspec c hc
    obtain ⟨h1, h2, hop⟩ := hs.of_releases hr
    exact ⟨h1, h2, ht ▸ hop, calls_owning_of_releases convert ops v rt hc hr⟩
  · have hlen := calls_releases_length convert ops v rt
    split at hlen <;> omega
  · obtain ⟨hs, hn, -, -⟩ := hspec c hc
    exact ⟨(hs.value w hw).1, hn, (hs.value w hw).2, hs.keeps_of_value hw⟩

end Libki.Pclass
