import Libki.Pclass.Value.Registry

/-! # Runs of declarations, casts and value creations

A run is any sequence of the calls that touch the registry. It starts from a process
whose `s_caster_lookup` has not been created, and keeps every value its calls return.
Whatever the order of the calls, the registry holds exactly the casters declared so far,
and every value ever made still points at the registry's caster of its own type. -/

namespace Libki.Pclass

open Runtime

variable {Datum : Type} (convert : TypeHash → TypeHash → Datum → Datum)

/-- A call of a run. The values passed to a call may be any values at all. -/
inductive Op (Datum : Type) where
  | declare (src dest : TypeHash)
  | cast (src dest : TypeHash) (v : Value)
  | castTypeInfo (dest src : TypeHash) (v : Value)
  | makeValue (t : TypeHash) (x : Datum)
  | makeReference (t : TypeHash) (ptr : Nat)
  | as (v : Value) (t : TypeHash)
  | dereference (v : Value) (t : TypeHash)

/-- Whether the call declares the caster from `src` to `dest`: `declare<src, dest>` does,
and so does `cast<src, dest>`, before it casts. -/
def Op.declares : Op Datum → TypeHash → TypeHash → Bool
  | .declare s d, src, dest => s == src && d == dest
  | .cast s d _, src, dest => s == src && d == dest
  | _, _, _ => false

/-- The runtime, and every value the run has made so far. -/
abbrev RunState (Datum : Type) := Runtime Datum × List Value

/-- A call's runtime, and its value if it returned one. -/
def keep (r : Except Error Value × Runtime Datum) (vs : List Value) : RunState Datum :=
  (r.2, match r.1 with | .ok v => vs ++ [v] | .error _ => vs)

/-- One call. `make_reference` takes a live object, so only storage that is already
allocated can be referred to. -/
def Op.step : Op Datum → RunState Datum → RunState Datum
  | .declare s d, (rt, vs) => (ValueCaster.declare rt s d, vs)
  | .cast s d v, (rt, vs) => keep (ValueCaster.cast convert rt s d v) vs
  | .castTypeInfo d s v, (rt, vs) => keep (ValueCaster.castTypeInfo convert rt d s v) vs
  | .makeValue t x, (rt, vs) =>
      keep (.ok (Value.makeValue rt t x).1, (Value.makeValue rt t x).2) vs
  | .makeReference t p, (rt, vs) =>
      if p < rt.next then keep (.ok (Value.makeReference rt t p).1,
        (Value.makeReference rt t p).2) vs else (rt, vs)
  | .as v t, (rt, vs) => keep (v.as convert rt t) vs
  | .dereference v t, (rt, vs) => keep (v.dereference rt t) vs

/-- The calls in order. -/
def run : List (Op Datum) → RunState Datum → RunState Datum
  | [], s => s
  | op :: ops, s => run ops (op.step convert s)

/-- The invariant of a run: the registry is well formed and every value made is live. -/
def RunInv (s : RunState Datum) : Prop :=
  s.1.WellFormed ∧ ∀ v ∈ s.2, s.1.Live v

/-! ## One call -/

theorem keep_inv {rt : Runtime Datum} {vs : List Value} {r : Except Error Value × Runtime Datum}
    (hi : RunInv (rt, vs)) (hp : rt.Produces r) :
    RunInv (keep r vs) ∧ rt.Extends (keep r vs).1 ∧ (keep r vs).1.entry = rt.entry := by
  refine ⟨⟨hp.grows.wellFormed, fun v hv => ?_⟩, hp.grows.toExtends, hp.grows.entry⟩
  unfold keep at hv
  split at hv
  · rcases List.mem_append.mp hv with hv | hv
    · exact hp.grows.toExtends.live (hi.2 v hv)
    · obtain rfl := List.mem_singleton.mp hv
      exact (hp.ok ‹_›).1
  · exact hp.grows.toExtends.live (hi.2 v hv)

theorem Op.step_inv (op : Op Datum) {s : RunState Datum} (hi : RunInv s) :
    RunInv (op.step convert s) ∧ s.1.Extends (op.step convert s).1 ∧
      ∀ src dest, (op.step convert s).1.entry src dest =
        if op.declares src dest then some ⟨src, dest⟩ else s.1.entry src dest := by
  obtain ⟨rt, vs⟩ := s
  have hw := hi.1
  have hkeep : ∀ {r}, rt.Produces r → RunInv (keep r vs) ∧ rt.Extends (keep r vs).1 ∧
      ∀ src dest, (keep r vs).1.entry src dest = rt.entry src dest :=
    fun hp => let h := keep_inv hi hp; ⟨h.1, h.2.1, fun _ _ => by rw [h.2.2]⟩
  cases op with
  | declare s d =>
      obtain ⟨hw', hx, he⟩ := ValueCaster.declare_spec hw s d
      exact ⟨⟨hw', fun v hv => hx.live (hi.2 v hv)⟩, hx, he⟩
  | cast s d v =>
      obtain ⟨hw', hx, he⟩ := ValueCaster.declare_spec hw s d
      have hi' : RunInv (ValueCaster.declare rt s d, vs) := ⟨hw', fun v hv => hx.live (hi.2 v hv)⟩
      obtain ⟨hi'', hx', he'⟩ := keep_inv hi'
        ((ValueCaster.castTypeInfo_makesValue convert _ d s v).produces hw')
      simp only [Op.step, ValueCaster.cast_eq_castTypeInfo]
      exact ⟨hi'', hx.trans hx', fun src dest => by rw [he', he]; rfl⟩
  | castTypeInfo d s v =>
      exact hkeep ((ValueCaster.castTypeInfo_makesValue convert rt d s v).produces hw)
  | makeValue t x => exact hkeep (Value.makeValue_produces hw t x)
  | makeReference t p =>
      simp only [Op.step]
      split
      · rename_i hp
        have hg := Value.makeReference_grows hw t p
        refine ⟨⟨hg.wellFormed, fun v hv => ?_⟩, hg.toExtends, fun _ _ => by
          simp [keep, Op.declares, hg.entry]⟩
        rcases List.mem_append.mp hv with hv | hv
        · exact hg.toExtends.live (hi.2 v hv)
        · obtain rfl := List.mem_singleton.mp hv
          exact ⟨ValueCaster.get_lookup rt t, by simpa [keep, Value.makeReference] using hp⟩
      · exact ⟨hi, Extends.refl rt, fun _ _ => by simp [Op.declares]⟩
  | as v t => exact hkeep ((Value.as_makesValue convert rt v t).produces hw)
  | dereference v t => exact hkeep ((Value.dereference_makesValue rt v t).produces hw)

/-! ## A whole run -/

theorem run_inv (ops : List (Op Datum)) {s : RunState Datum} (hi : RunInv s) :
    RunInv (run convert ops s) ∧ s.1.Extends (run convert ops s).1 ∧
      ∀ src dest, (run convert ops s).1.entry src dest =
        if ops.any (·.declares src dest) then some ⟨src, dest⟩ else s.1.entry src dest := by
  induction ops generalizing s with
  | nil => exact ⟨hi, Extends.refl _, fun _ _ => by simp [run]⟩
  | cons op ops ih =>
      obtain ⟨hi₁, hx₁, he₁⟩ := op.step_inv convert hi
      obtain ⟨hi₂, hx₂, he₂⟩ := ih hi₁
      refine ⟨hi₂, hx₁.trans hx₂, fun src dest => ?_⟩
      simp only [run, List.any_cons, he₂, he₁]
      by_cases h : op.declares src dest <;> simp [h]

/-- A run of two lists of calls is the run of the second from where the first ends. -/
theorem run_append (ops more : List (Op Datum)) (s : RunState Datum) :
    run convert (ops ++ more) s = run convert more (run convert ops s) := by
  induction ops generalizing s with
  | nil => rfl
  | cons op ops ih => exact ih _

theorem init_runInv (memory : Nat → Datum) (next : Nat) : RunInv (init memory next, []) :=
  ⟨init_wellFormed memory next, by simp⟩

/-- A registered caster survives every later call. -/
theorem run_entry_mono (more : List (Op Datum)) {s : RunState Datum} (hi : RunInv s)
    {src dest : TypeHash} {c : Caster} (hc : s.1.entry src dest = some c) :
    (run convert more s).1.entry src dest = some c := by
  obtain rfl := hi.1.entry_eq hc
  rw [(run_inv convert more hi).2.2, hc]
  split <;> rfl

/-- After any run, the caster a value made in it points at converts it to `t` exactly when
`declare` or `cast` of that pair has run, and raises `cast_error` otherwise. -/
theorem ValueCaster.castValue_run_eq (ops : List (Op Datum)) (memory : Nat → Datum)
    (next : Nat) {v : Value} (hv : v ∈ (run convert ops (init memory next, [])).2) (t : TypeHash) :
    let rt := (run convert ops (init memory next, [])).1
    ValueCaster.castValue convert rt v.caster t v =
      if ops.any (·.declares v.typeHash t) then
        (.ok (Value.makeValue rt t (convert v.typeHash t (rt.memory v.valuePtr))).1,
          (Value.makeValue rt t (convert v.typeHash t (rt.memory v.valuePtr))).2)
      else (.error (.castError v.typeHash t), rt) := by
  obtain ⟨hi, -, he⟩ := run_inv convert ops (init_runInv memory next)
  dsimp only
  rw [ValueCaster.castValue_of_lookup convert hi.1 (hi.2 v hv).1 rfl, he]
  by_cases hd : ops.any (·.declares v.typeHash t) <;> simp [hd]

/-- After any run, `as<t>` of a value made in it, for a type `t` other than its own, is
`make_value<t>` of the conversion when `declare` or `cast` of that pair has run, and raises
`cast_error` leaving the runtime as it was otherwise. -/
theorem Value.as_run_eq (ops : List (Op Datum)) (memory : Nat → Datum) (next : Nat)
    {v : Value} (hv : v ∈ (run convert ops (init memory next, [])).2) {t : TypeHash}
    (ht : t ≠ v.typeHash) :
    let rt := (run convert ops (init memory next, [])).1
    v.as convert rt t =
      if ops.any (·.declares v.typeHash t) then
        (.ok (Value.makeValue rt t (convert v.typeHash t (rt.memory v.valuePtr))).1,
          (Value.makeValue rt t (convert v.typeHash t (rt.memory v.valuePtr))).2)
      else (.error (.castError v.typeHash t), rt) := by
  dsimp only
  rw [Value.as, if_pos (by simp [Value.is, Ne.symm ht])]
  exact ValueCaster.castValue_run_eq convert ops memory next hv t

/-- After any run, a value made at any point of it converts to another type `t` exactly
when `declare` or `cast` of that pair has run. `as<t>` then returns a fresh owning value of
`t` holding the conversion and leaves the value's storage as it was; otherwise it raises
`cast_error` and changes nothing. No later call removes or replaces a registered caster. -/
theorem Value.as_after_run (ops : List (Op Datum)) (memory : Nat → Datum) (next : Nat)
    {v : Value} (hv : v ∈ (run convert ops (init memory next, [])).2) {t : TypeHash}
    (ht : t ≠ v.typeHash) :
    let rt := (run convert ops (init memory next, [])).1
    (ops.any (·.declares v.typeHash t) = true →
      ∃ r rt', v.as convert rt t = (.ok r, rt') ∧ r.is t = true ∧ r.isReference = false ∧
        rt'.memory r.valuePtr = convert v.typeHash t (rt.memory v.valuePtr) ∧
        rt'.memory v.valuePtr = rt.memory v.valuePtr) ∧
    (ops.any (·.declares v.typeHash t) = false →
      v.as convert rt t = (.error (.castError v.typeHash t), rt)) ∧
    (∀ (more : List (Op Datum)) src dest c, rt.entry src dest = some c →
      (run convert more (run convert ops (init memory next, []))).1.entry src dest = some c) := by
  have has := Value.as_run_eq convert ops memory next hv ht
  obtain ⟨hi, -, -⟩ := run_inv convert ops (init_runInv memory next)
  have hlive := hi.2 v hv
  refine ⟨fun hd => ?_, fun hd => by simpa [hd] using has,
    fun more _ _ _ hc => run_entry_mono convert more hi hc⟩
  have hw := hi.1
  generalize (run convert ops (init memory next, [])).1 = rt at hw hlive has ⊢
  let x := convert v.typeHash t (rt.memory v.valuePtr)
  refine ⟨(Value.makeValue rt t x).1, (Value.makeValue rt t x).2, by simp [has, hd, x],
    by simp [Value.makeValue, Value.is], by simp [Value.makeValue, Value.isReference],
    Value.makeValue_memory rt t x, (Value.makeValue_produces hw t x).grows.memory hlive.2⟩

/-- A conversion that adds one, for runs on natural numbers. -/
def sampleConvert : TypeHash → TypeHash → Nat → Nat := fun _ _ x => x + 1

/-- A value of type 7 made before the caster from 7 to 8 is declared. -/
def sampleOps : List (Op Nat) := [.makeValue 7 5, .declare 7 8]

theorem as_after_run_sample :
    let s := run sampleConvert sampleOps (init (fun _ => 0) 0, [])
    ∃ r rt', (⟨0, true, 7, 0⟩ : Value).as sampleConvert s.1 8 = (.ok r, rt') ∧
      r.is 8 = true ∧ r.isReference = false ∧
      rt'.memory r.valuePtr = sampleConvert 7 8 (s.1.memory 0) ∧
      rt'.memory 0 = s.1.memory 0 :=
  (Value.as_after_run sampleConvert sampleOps (fun _ => 0) 0
    (by decide : (⟨0, true, 7, 0⟩ : Value) ∈ (run sampleConvert sampleOps
      (init (fun _ => 0) 0, [])).2) (by decide)).1 (by decide)

/-- The lookup by runtime type and the value's own `as` agree for every other destination
type. For the value's own type, `as` returns a copy, while the lookup needs a declared
caster from the type to itself. -/
theorem ValueCaster.castTypeInfo_after_run (ops : List (Op Datum)) (memory : Nat → Datum)
    (next : Nat) {v : Value} (hv : v ∈ (run convert ops (init memory next, [])).2) :
    let rt := (run convert ops (init memory next, [])).1
    (∀ t, t ≠ v.typeHash →
      ValueCaster.castTypeInfo convert rt t v.typeHash v = v.as convert rt t) ∧
    v.as convert rt v.typeHash =
      (.ok (Value.makeValue rt v.typeHash (rt.memory v.valuePtr)).1,
        (Value.makeValue rt v.typeHash (rt.memory v.valuePtr)).2) ∧
    ValueCaster.castTypeInfo convert rt v.typeHash v.typeHash v =
      if ops.any (·.declares v.typeHash v.typeHash) then
        (.ok (Value.makeValue rt v.typeHash
            (convert v.typeHash v.typeHash (rt.memory v.valuePtr))).1,
          (Value.makeValue rt v.typeHash
            (convert v.typeHash v.typeHash (rt.memory v.valuePtr))).2)
      else (.error (.castError v.typeHash v.typeHash), rt) := by
  have hlive := ((run_inv convert ops (init_runInv memory next)).1.2 v hv).1
  have hcast := ValueCaster.castValue_run_eq convert ops memory next hv
  dsimp only at hcast ⊢
  refine ⟨fun t ht => ?_, by simp [Value.as, Value.is], ?_⟩
  · simp [ValueCaster.castTypeInfo, hlive, Value.as, Value.is, Ne.symm ht]
  · rw [ValueCaster.castTypeInfo, hlive]
    exact hcast v.typeHash

theorem castTypeInfo_after_run_sample :
    let s := run sampleConvert sampleOps (init (fun _ => 0) 0, [])
    (⟨0, true, 7, 0⟩ : Value) ∈ s.2 ∧
      ValueCaster.castTypeInfo sampleConvert s.1 8 7 ⟨0, true, 7, 0⟩ =
        (⟨0, true, 7, 0⟩ : Value).as sampleConvert s.1 8 :=
  have hv : (⟨0, true, 7, 0⟩ : Value) ∈ (run sampleConvert sampleOps
      (init (fun _ => 0) 0, [])).2 := by decide
  ⟨hv, (ValueCaster.castTypeInfo_after_run sampleConvert sampleOps (fun _ => 0) 0 hv).1 8
    (by decide)⟩

/-- With no caster from a type to itself, the lookup by runtime type raises `cast_error`
where `as` returns a copy. -/
theorem castTypeInfo_self_ne_as :
    let s := run sampleConvert [.makeValue 7 5] (init (fun _ => 0) 0, [])
    (⟨0, true, 7, 0⟩ : Value) ∈ s.2 ∧
      (ValueCaster.castTypeInfo sampleConvert s.1 7 7 ⟨0, true, 7, 0⟩).1 =
        .error (.castError 7 7) ∧
      (((⟨0, true, 7, 0⟩ : Value).as sampleConvert s.1 7).1 = .ok ⟨1, true, 7, 0⟩) := by
  exact ⟨by decide, rfl, rfl⟩

end Libki.Pclass
