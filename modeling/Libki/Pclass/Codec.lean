import Libki.Util.BitStream

/-! # The binary codec of class-typed values

`IClassType::write_to` and `IClassType::read_from` walk an object's properties in
declaration order, and each property's type writes or reads its value: integral primitives
through `PrimitiveTypeWriter` and `PrimitiveTypeReader` with `bitsizeof<T>` bits, class-typed
values by recursion. The format carries no field tags, so a read is driven by the
destination object's own properties. -/

namespace Libki.Pclass

/-- A property of a `PropertyClass` with its declared type and its current value: an
integral primitive of `bitsizeof<T>` bits, or a class-typed object with its own
properties. -/
inductive Property where
  | integral (bitsize : Nat) (value : BitVec bitsize)
  | object (properties : List Property)

/-- The declared types of a property, at every nesting level. -/
inductive Layout where
  | integral (bitsize : Nat)
  | object (properties : List Layout)

mutual
/-- The layout that a property's declared type gives it. -/
def Property.layout : Property → Layout
  | .integral n _ => .integral n
  | .object ps => .object (Property.layouts ps)

/-- The layouts of a property list, in declaration order. -/
def Property.layouts : List Property → List Layout
  | [] => []
  | p :: ps => p.layout :: Property.layouts ps
end

variable (bs : BitStream)

/-! ## Writing -/

mutual
/-- `IProperty::write_value_to`: the property's type writes its value, through
`PrimitiveTypeWriter::write_to` for an integral primitive. -/
def Property.writeValueTo : Property → List Bool → List Bool
  | .integral n v, s => bs.write n v s
  | .object ps, s => IClassType.writeTo ps s

/-- `IClassType::write_to`: every property of the object, in declaration order. -/
def IClassType.writeTo : List Property → List Bool → List Bool
  | [], s => s
  | p :: ps, s => IClassType.writeTo ps (p.writeValueTo s)
end

/-! ## Reading -/

mutual
/-- `IProperty::read_value_from`: the property's type reads a new value into it, through
`PrimitiveTypeReader::read_from` for an integral primitive. -/
def Property.readValueFrom : Property → List Bool → Property × List Bool
  | .integral n _, s => let r := bs.read n s; (.integral n r.1, r.2)
  | .object ps, s => let r := IClassType.readFrom ps s; (.object r.1, r.2)

/-- `IClassType::read_from`: every property of the destination object, in declaration
order. -/
def IClassType.readFrom : List Property → List Bool → List Property × List Bool
  | [], s => ([], s)
  | p :: ps, s =>
      let r := p.readValueFrom s
      let rs := IClassType.readFrom ps r.2
      (r.1 :: rs.1, rs.2)
end

/-! ## A write appends, a read consumes what was written -/

mutual
theorem Property.writeValueTo_append : ∀ (p : Property) (s : List Bool),
    p.writeValueTo bs s = s ++ p.writeValueTo bs []
  | .integral n v, s => by simp [Property.writeValueTo, BitStream.write]
  | .object ps, s => IClassType.writeTo_append ps s

theorem IClassType.writeTo_append : ∀ (ps : List Property) (s : List Bool),
    IClassType.writeTo bs ps s = s ++ IClassType.writeTo bs ps []
  | [], s => by simp [IClassType.writeTo]
  | p :: ps, s => by
      simp only [IClassType.writeTo]
      rw [IClassType.writeTo_append ps, IClassType.writeTo_append ps (p.writeValueTo bs []),
        Property.writeValueTo_append p s, List.append_assoc]
end

mutual
theorem Property.readValueFrom_writeValueTo : ∀ (x y : Property), x.layout = y.layout →
    ∀ rest, y.readValueFrom bs (x.writeValueTo bs [] ++ rest) = (x, rest)
  | .integral n v, .integral m _, h, rest => by
      cases h
      simp [Property.readValueFrom, Property.writeValueTo, BitStream.write, bs.read_encode]
  | .object ps, .object qs, h, rest => by
      simp only [Property.layout, Layout.object.injEq] at h
      simp only [Property.readValueFrom, Property.writeValueTo,
        IClassType.readFrom_writeTo ps qs h rest]
  | .integral _ _, .object _, h, _ => by simp [Property.layout] at h
  | .object _, .integral _ _, h, _ => by simp [Property.layout] at h

theorem IClassType.readFrom_writeTo : ∀ (xs ys : List Property),
    Property.layouts xs = Property.layouts ys →
    ∀ rest, IClassType.readFrom bs ys (IClassType.writeTo bs xs [] ++ rest) = (xs, rest)
  | [], [], _, rest => by simp [IClassType.readFrom, IClassType.writeTo]
  | x :: xs, y :: ys, h, rest => by
      simp only [Property.layouts, List.cons.injEq] at h
      rw [IClassType.writeTo, IClassType.writeTo_append, List.append_assoc, IClassType.readFrom]
      simp only [Property.readValueFrom_writeValueTo x y h.1,
        IClassType.readFrom_writeTo xs ys h.2]
  | [], _ :: _, h, _ => by simp [Property.layouts] at h
  | _ :: _, [], h, _ => by simp [Property.layouts] at h
end

/-- Writing an object after any bits appends a block that a destination of the same
layout reads back whole: every property, nested ones included, gets the source's value,
and the cursor stops exactly at the end of the block. -/
theorem IClassType.readFrom_writeTo_roundTrip (x y : List Property)
    (h : Property.layouts x = Property.layouts y) (before rest : List Bool) :
    ∃ bits, IClassType.writeTo bs x before = before ++ bits ∧
      IClassType.readFrom bs y (bits ++ rest) = (x, rest) :=
  ⟨_, IClassType.writeTo_append bs x before, IClassType.readFrom_writeTo bs x y h rest⟩

/-- An object with a 24-bit integer and a nested object holding a flag and a byte. -/
def sampleObject : List Property :=
  [.integral 24 0x123456#24, .object [.integral 1 1#1, .integral 8 0xAB#8]]

/-- A destination of the same layout as `sampleObject`, holding zeros. -/
def sampleDestination : List Property :=
  [.integral 24 0#24, .object [.integral 1 0#1, .integral 8 0#8]]

theorem readFrom_writeTo_sample :
    Property.layouts sampleObject = Property.layouts sampleDestination ∧
      ∃ bits, IClassType.writeTo BitStream.lsbFirst sampleObject [true] = [true] ++ bits ∧
        IClassType.readFrom BitStream.lsbFirst sampleDestination (bits ++ [false]) =
          (sampleObject, [false]) :=
  ⟨rfl, IClassType.readFrom_writeTo_roundTrip BitStream.lsbFirst sampleObject
    sampleDestination rfl [true] [false]⟩

end Libki.Pclass
