import AvroCodec.Proofs.Rounding
import AvroCodec.Proofs.Wire

/-!
# Values of the types without parts

`Primitive.Holds` says which values a type has. Each of them can be written, and what was written is
read back as the same value: `Primitive.Encoded`.
-/

namespace AvroCodec.Primitive

open Binary Varint

/-- The values of a type without parts. A number of type `float` is one that 32 bits can hold. -/
inductive Holds : String → Value → Prop
  | boolean (b : Bool) : Holds "boolean" (.bool b)
  | int {n : Int} (hlo : -(limit : Int) ≤ n) (hhi : n < (limit : Int)) :
      Holds "int" (.int n)
  | long {n : Int} (hlo : -(limit : Int) ≤ n) (hhi : n < (limit : Int)) :
      Holds "long" (.int n)
  | float {bits : UInt64} {narrow : Nat} (hn : narrow < 2 ^ 32)
      (h : (Value.numberOf bits).Agrees (.ofBits .single narrow)) : Holds "float" (.float bits)
  | double {bits : UInt64} (h : Value.numberOf bits ≠ .nan) : Holds "double" (.float bits)
  | bytes {data : List UInt8} (h : data.length < limit) : Holds "bytes" (.bytes data)
  | string {s : String} (h : s.toUTF8.toList.length < limit) : Holds "string" (.str s)

/-- A value is written as these bytes, and read back from them. -/
structure Encoded (type : String) (x : Value) (bytes : List UInt8) : Prop where
  write_eq : write type x = .ok bytes
  reads : ∀ schema, Reads (read type schema) bytes x

theorem readInt_bytesOf {n : Int} (hlo : -(limit : Int) ≤ n) (hhi : n < (limit : Int)) :
    Reads readInt (bytesOf n) (.int n) := by
  intro rest
  rw [readInt, reads_bytesOf ((zigzag_lt_modulus_iff n).2 ⟨hlo, hhi⟩)]
  rfl

theorem writeInt_int {n : Int} (hlo : -(limit : Int) ≤ n) (hhi : n < (limit : Int)) :
    writeInt (.int n) = .ok (bytesOf n) :=
  encode_of_range hlo hhi

theorem not_length_littleEndian_append_lt (count n : Nat) (rest : List UInt8) :
    ¬ (Wire.littleEndian count n ++ rest).length < count := by
  simp [Wire.length_littleEndian]

theorem take_littleEndian_append (count n : Nat) (rest : List UInt8) :
    (Wire.littleEndian count n ++ rest).take count = Wire.littleEndian count n :=
  List.take_left' (Wire.length_littleEndian count n)

theorem drop_littleEndian_append (count n : Nat) (rest : List UInt8) :
    (Wire.littleEndian count n ++ rest).drop count = rest :=
  List.drop_left' (Wire.length_littleEndian count n)

theorem readFloat_littleEndian (n : Nat) : Reads readFloat (Wire.littleEndian 4 n)
    (.ofNumber ((Number.ofBits .single (Wire.ofLittleEndian (Wire.littleEndian 4 n))).convert .double)) := by
  intro rest
  rw [readFloat, if_neg (not_length_littleEndian_append_lt 4 n rest), take_littleEndian_append,
    drop_littleEndian_append]

theorem readDouble_littleEndian (n : Nat) : Reads readDouble (Wire.littleEndian 8 n)
    (.float (Wire.ofLittleEndian (Wire.littleEndian 8 n)).toUInt64) := by
  intro rest
  rw [readDouble, if_neg (not_length_littleEndian_append_lt 8 n rest), take_littleEndian_append,
    drop_littleEndian_append]

theorem toBits_numberOf {bits : UInt64} (h : Value.numberOf bits ≠ .nan) :
    ((Value.numberOf bits).toBits .double).toUInt64 = bits := by
  rw [Value.numberOf, Number.toBits_ofBits (by decide) bits.toNat_lt h]
  simp

theorem encoded_float {bits : UInt64} {narrow : Nat} (hn : narrow < 2 ^ 32)
    (h : (Value.numberOf bits).Agrees (.ofBits .single narrow)) :
    Encoded "float" (.float bits) (Wire.littleEndian 4 narrow) := by
  have hnarrow : (Value.numberOf bits).convert .single = .ofBits .single narrow :=
    Number.convert_of_agrees (by decide) (by decide) hn h
  have hwide : (Number.ofBits .single narrow).convert .double = Value.numberOf bits :=
    Number.convert_of_agrees (by decide) (by decide) bits.toNat_lt h.symm
  constructor
  · have hbits : (Number.ofBits .single narrow).toBits .single = narrow :=
      Number.toBits_ofBits (by decide) hn h.symm.ne_nan
    change Except.ok (Wire.littleEndian 4 (((Value.numberOf bits).convert .single).toBits .single)) = _
    rw [hnarrow, hbits]
  · intro schema
    have hread := readFloat_littleEndian narrow
    rw [Wire.ofLittleEndian_littleEndian 4 narrow hn, hwide, Value.ofNumber, toBits_numberOf h.ne_nan] at hread
    exact hread

theorem encoded_double (bits : UInt64) :
    Encoded "double" (.float bits) (Wire.littleEndian 8 bits.toNat) := by
  constructor
  · rfl
  · intro schema
    have hread := readDouble_littleEndian bits.toNat
    rw [Wire.ofLittleEndian_littleEndian 8 _ bits.toNat_lt, show bits.toNat.toUInt64 = bits by simp] at hread
    exact hread

theorem encoded_bytes {data : List UInt8} (h : data.length < limit) :
    Encoded "bytes" (.bytes data) (blockOf data) := by
  refine ⟨writeBlock_eq_ok_iff.2 ⟨h, rfl⟩, fun schema rest => ?_⟩
  change readBytes _ = _
  rw [readBytes, reads_blockOf h]
  rfl

theorem encoded_string {s : String} (h : s.toUTF8.toList.length < limit) :
    Encoded "string" (.str s) (textOf s) := by
  refine ⟨writeBlock_eq_ok_iff.2 ⟨h, rfl⟩, fun schema rest => ?_⟩
  change readString _ = _
  rw [readString, reads_textOf h]
  rfl

theorem encoded_boolean (b : Bool) : Encoded "boolean" (.bool b) [if b then 1 else 0] := by
  refine ⟨rfl, fun schema rest => ?_⟩
  cases b <;> rfl

theorem Holds.encoded {type : String} {x : Value} (h : Holds type x) :
    ∃ bytes, Encoded type x bytes := by
  cases h with
  | boolean b => exact ⟨_, encoded_boolean b⟩
  | int hlo hhi => exact ⟨_, writeInt_int hlo hhi, fun _ => readInt_bytesOf hlo hhi⟩
  | long hlo hhi => exact ⟨_, writeInt_int hlo hhi, fun _ => readInt_bytesOf hlo hhi⟩
  | float hn h => exact ⟨_, encoded_float hn h⟩
  | double => exact ⟨_, encoded_double _⟩
  | bytes h => exact ⟨_, encoded_bytes h⟩
  | string h => exact ⟨_, encoded_string h⟩

end AvroCodec.Primitive
