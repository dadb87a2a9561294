import Libki.Pclass.Value.Run
import Libki.Pclass.Caster.Integral

/-! # Casters declared for an integral type

`caster_declarer<T>::declare()` of an integral type `T` names a caster from `T` to every
integral type, `T` itself included, to the bit integers `bi<N>` and `bui<N>` of widths 1 to 7
and 24, to `float` and `double`, and to `std::string` and `nlohmann::json`. The
specializations `value_caster<T, std::string>` and `value_caster<T, nlohmann::json>` override
only `cast` and leave `value_caster_impl`'s `cast_value` pure, so `add_caster`'s `new` of them
cannot compile and `caster_declarer<T>::declare()` cannot be instantiated. `casterDeclarer`
records the list it names; the results about conversions assume only the declarations
`ValueCaster::declare<A, D>()` between integral types, which compile, each registering the
default `value_caster<A, D>` and its `static_cast<D>` (`Caster/Integral`).

Converting twice through the registry, by `as<B>()` and then `as<C>()` on its result, ends
where the direct `as<C>()` ends whenever the two casts compose. The intermediate value is a
fresh owning value of `B` whose caster is the registry's, so the second conversion finds the
declared caster from `B` to `C`. -/

namespace Libki.Pclass

open Runtime

/-- The destination types `caster_declarer` names for an integral source. -/
inductive DeclaredType where
  | integral (t : IntegralType)
  | bitInteger (n : Nat) (isUnsigned : Bool)
  | float
  | double
  | string
  | json
  deriving DecidableEq, Repr

variable {Datum : Type} (hash : DeclaredType → TypeHash)

/-- `bit_integer_declarer<T, n>::declare()` from the source type `src`: the declarations for
the widths below `n` first, then `bi<n>` and `bui<n>`. -/
def bitIntegerDeclarer (src : TypeHash) : Nat → List (Op Datum)
  | 0 => []
  | n + 1 => bitIntegerDeclarer src n ++
      [.declare src (hash (.bitInteger (n + 1) false)),
        .declare src (hash (.bitInteger (n + 1) true))]

/-- The declarations `caster_declarer<T>::declare()` names for an integral type `T`, in its
order. The function cannot be instantiated: its declarations to `std::string` and
`nlohmann::json` need objects of abstract classes. -/
def casterDeclarer (t : IntegralType) : List (Op Datum) :=
  let src := hash (.integral t)
  [.declare src (hash (.integral .bool))] ++ bitIntegerDeclarer hash src 7 ++
    [.declare src (hash (.integral .int8)), .declare src (hash (.integral .int16)),
      .declare src (hash (.bitInteger 24 false)), .declare src (hash (.integral .int32)),
      .declare src (hash (.integral .int64)), .declare src (hash (.integral .uint8)),
      .declare src (hash (.integral .uint16)), .declare src (hash (.bitInteger 24 true)),
      .declare src (hash (.integral .uint32)), .declare src (hash (.integral .uint64)),
      .declare src (hash .float), .declare src (hash .double), .declare src (hash .string),
      .declare src (hash .json)]

/-- `caster_declarer<T>` declares the caster from `T` to every integral type. -/
theorem declare_mem_casterDeclarer (s d : IntegralType) :
    (Op.declare (hash (.integral s)) (hash (.integral d)) : Op Datum) ∈ casterDeclarer hash s := by
  cases d <;> simp [casterDeclarer]

section Conversions

variable {convert : TypeHash → TypeHash → Int → Int}
  (hconv : ∀ s d x, convert (hash (.integral s)) (hash (.integral d)) x = valueCaster s d x)
include hconv

/-- After any run that declares the caster from the integral type of a value made in it to
another integral type `D`, `as<D>()` returns a fresh owning value of `D` holding
`static_cast<D>` of the value. -/
theorem Value.as_integral_run_eq {A D : IntegralType}
    (hne : hash (.integral D) ≠ hash (.integral A)) (ops : List (Op Int)) (memory : Nat → Int)
    (next : Nat) {v : Value} (hv : v ∈ (run convert ops (init memory next, [])).2)
    (hA : v.typeHash = hash (.integral A))
    (hd : ops.any (·.declares (hash (.integral A)) (hash (.integral D))) = true) :
    let rt := (run convert ops (init memory next, [])).1
    v.as convert rt (hash (.integral D)) =
      (.ok (Value.makeValue rt (hash (.integral D)) (staticCast D (rt.memory v.valuePtr))).1,
        (Value.makeValue rt (hash (.integral D)) (staticCast D (rt.memory v.valuePtr))).2) := by
  have has := Value.as_run_eq convert ops memory next hv (hA ▸ hne)
  dsimp only at has ⊢
  rw [has, hA, if_pos hd, hconv]
  rfl

/-- After any run that declares the casters from the integral type `A` to `B`, from `B` to
`C` and from `A` to `C` (by `declare` or `cast`), a value of `A` made at any point of the run
converts by `as<B>()` to a value holding `static_cast<B>` of it, which converts by `as<C>()`
to a value holding what the direct `as<C>()` gives, `static_cast<C>` of the first value. This
holds when `B` can hold the value, when `B` and `C` are integer types and `B` is at least as
wide as `C`, or when both are `bool`. -/
theorem Value.as_as_after_run {A B C : IntegralType}
    (hAB : hash (.integral B) ≠ hash (.integral A)) (hBC : hash (.integral C) ≠ hash (.integral B))
    (hAC : hash (.integral C) ≠ hash (.integral A)) (ops : List (Op Int))
    (hdecl : ops.any (·.declares (hash (.integral A)) (hash (.integral B))) = true ∧
      ops.any (·.declares (hash (.integral B)) (hash (.integral C))) = true ∧
      ops.any (·.declares (hash (.integral A)) (hash (.integral C))) = true)
    (memory : Nat → Int) (next : Nat) {v : Value}
    (hv : v ∈ (run convert ops (init memory next, [])).2) (hA : v.typeHash = hash (.integral A))
    (hkeep : B.InRange ((run convert ops (init memory next, [])).1.memory v.valuePtr) ∨
      (B ≠ .bool ∧ C ≠ .bool ∧ C.bits ≤ B.bits) ∨ (B = .bool ∧ C = .bool)) :
    let rt := (run convert ops (init memory next, [])).1
    ∃ r rt', v.as convert rt (hash (.integral B)) = (.ok r, rt') ∧
      rt'.memory r.valuePtr = staticCast B (rt.memory v.valuePtr) ∧
      ∃ r' rt'', r.as convert rt' (hash (.integral C)) = (.ok r', rt'') ∧
        rt''.memory r'.valuePtr = staticCast C (rt.memory v.valuePtr) ∧
        ∃ d rtd, v.as convert rt (hash (.integral C)) = (.ok d, rtd) ∧
          rtd.memory d.valuePtr = staticCast C (rt.memory v.valuePtr) := by
  intro rt
  have h1 := Value.as_integral_run_eq hash hconv hAB ops memory next hv hA hdecl.1
  have h3 := Value.as_integral_run_eq hash hconv hAC ops memory next hv hA hdecl.2.2
  dsimp only at h1 h3
  generalize hr : Value.makeValue rt (hash (.integral B)) (staticCast B (rt.memory v.valuePtr)) =
    r at h1
  -- The first conversion is one more call of the run, which keeps the value it returns.
  have hs : run convert (ops ++ [.as v (hash (.integral B))]) (init memory next, []) =
      (r.2, (run convert ops (init memory next, [])).2 ++ [r.1]) := by
    rw [run_append]
    show keep (v.as convert rt (hash (.integral B))) _ = _
    rw [h1]
    rfl
  have hmem : r.2.memory r.1.valuePtr = staticCast B (rt.memory v.valuePtr) := by
    rw [← hr, Value.makeValue_memory]
  have h2 := Value.as_integral_run_eq hash hconv hBC (ops ++ [.as v (hash (.integral B))]) memory
    next (by rw [hs]; exact List.mem_append_right _ (List.mem_singleton_self _))
    (by rw [← hr]; rfl) (by rw [List.any_append, hdecl.2.1, Bool.true_or])
  rw [hs] at h2
  refine ⟨r.1, r.2, h1, hmem, _, _, h2, ?_, _, _, h3, Value.makeValue_memory _ _ _⟩
  rw [Value.makeValue_memory, hmem]
  rcases hkeep with hx | ⟨hB, hC, hw⟩ | ⟨rfl, rfl⟩
  · rw [staticCast_of_inRange hx]
  · exact staticCast_staticCast_of_bits_le hB hC hw _
  · exact staticCast_of_inRange (staticCast_inRange .bool _)

end Conversions

/-- The integral types, in the order of `IntegralType`. -/
def IntegralType.all : List IntegralType :=
  [.bool, .int8, .int16, .int32, .int64, .uint8, .uint16, .uint32, .uint64]

/-- Distinct type hashes for the declared types. -/
def sampleHash : DeclaredType → TypeHash
  | .integral t => IntegralType.all.indexOf t
  | .bitInteger n u => 16 + 2 * n + (if u then 1 else 0)
  | .float => 9
  | .double => 10
  | .string => 11
  | .json => 12

/-- The registry's conversions on integers: `static_cast` to the destination when it is an
integral type. -/
def sampleIntegralConvert (_src dest : TypeHash) (x : Int) : Int :=
  match IntegralType.all.find? (fun t => sampleHash (.integral t) == dest) with
  | some t => staticCast t x
  | none => x

/-- `make_value<int64_t>(300)`, then the declarations from `int64_t` to `int32_t`, from
`int32_t` to `uint8_t` and from `int64_t` to `uint8_t`. -/
def sampleDeclarations : List (Op Int) :=
  [.makeValue (sampleHash (.integral .int64)) 300,
    .declare (sampleHash (.integral .int64)) (sampleHash (.integral .int32)),
    .declare (sampleHash (.integral .int32)) (sampleHash (.integral .uint8)),
    .declare (sampleHash (.integral .int64)) (sampleHash (.integral .uint8))]

theorem as_as_after_run_sample :
    (∀ s d x, sampleIntegralConvert (sampleHash (.integral s)) (sampleHash (.integral d)) x =
      valueCaster s d x) ∧
    sampleHash (.integral .int32) ≠ sampleHash (.integral .int64) ∧
    sampleHash (.integral .uint8) ≠ sampleHash (.integral .int32) ∧
    sampleHash (.integral .uint8) ≠ sampleHash (.integral .int64) ∧
    (sampleDeclarations.any
        (·.declares (sampleHash (.integral .int64)) (sampleHash (.integral .int32))) = true ∧
      sampleDeclarations.any
        (·.declares (sampleHash (.integral .int32)) (sampleHash (.integral .uint8))) = true ∧
      sampleDeclarations.any
        (·.declares (sampleHash (.integral .int64)) (sampleHash (.integral .uint8))) = true) ∧
    (⟨0, true, 4, 0⟩ : Value) ∈
      (run sampleIntegralConvert sampleDeclarations (init (fun _ => 0) 0, [])).2 ∧
    (⟨0, true, 4, 0⟩ : Value).typeHash = sampleHash (.integral .int64) ∧
    (IntegralType.int32.InRange
        ((run sampleIntegralConvert sampleDeclarations (init (fun _ => 0) 0, [])).1.memory 0) ∨
      (IntegralType.int32 ≠ .bool ∧ IntegralType.uint8 ≠ .bool ∧
        IntegralType.uint8.bits ≤ IntegralType.int32.bits) ∨
      (IntegralType.int32 = .bool ∧ IntegralType.uint8 = .bool)) ∧
    let rt := (run sampleIntegralConvert sampleDeclarations (init (fun _ => 0) 0, [])).1
    rt.memory 0 = 300 ∧ staticCast .uint8 300 = 44 ∧
    ∃ r rt', (⟨0, true, 4, 0⟩ : Value).as sampleIntegralConvert rt
        (sampleHash (.integral .int32)) = (.ok r, rt') ∧
      rt'.memory r.valuePtr = staticCast .int32 (rt.memory 0) ∧
      ∃ r' rt'', r.as sampleIntegralConvert rt' (sampleHash (.integral .uint8)) = (.ok r', rt'') ∧
        rt''.memory r'.valuePtr = staticCast .uint8 (rt.memory 0) ∧
        ∃ d rtd, (⟨0, true, 4, 0⟩ : Value).as sampleIntegralConvert rt
            (sampleHash (.integral .uint8)) = (.ok d, rtd) ∧
          rtd.memory d.valuePtr = staticCast .uint8 (rt.memory 0) :=
  have hconv : ∀ s d x, sampleIntegralConvert (sampleHash (.integral s))
      (sampleHash (.integral d)) x = valueCaster s d x := by
    intro s d x
    cases d <;> rfl
  have hdecl : sampleDeclarations.any
        (·.declares (sampleHash (.integral .int64)) (sampleHash (.integral .int32))) = true ∧
      sampleDeclarations.any
        (·.declares (sampleHash (.integral .int32)) (sampleHash (.integral .uint8))) = true ∧
      sampleDeclarations.any
        (·.declares (sampleHash (.integral .int64)) (sampleHash (.integral .uint8))) = true := by
    decide
  have hv : (⟨0, true, 4, 0⟩ : Value) ∈
      (run sampleIntegralConvert sampleDeclarations (init (fun _ => 0) 0, [])).2 := by decide
  have hkeep : IntegralType.int32.InRange
      ((run sampleIntegralConvert sampleDeclarations (init (fun _ => 0) 0, [])).1.memory 0) := by
    decide
  ⟨hconv, by decide, by decide, by decide, hdecl, hv, rfl, .inl hkeep, by decide, by decide,
    Value.as_as_after_run sampleHash hconv (by decide) (by decide) (by decide)
      sampleDeclarations hdecl (fun _ => 0) 0 hv rfl (.inl hkeep)⟩

end Libki.Pclass
