import AvroCodec.Proofs.Readable
import AvroCodec.Proofs.Refusal

/-!
# Reading what breaks off

The bytes of a value that break off are read if they break off unnoticed. Otherwise something is raised, or a
floating-point number is read where there is none.
-/

namespace AvroCodec

open Code Varint Decoder Primitive

theorem Primitive.readFixed_short {schema : Json} {size : Nat} {data : List UInt8}
    (hsize : sizeOf? schema = .ok size) (h : data.length ≤ size) :
    read "fixed" schema data = .ok (.bytes data, []) := by
  change readFixed schema data = _
  rw [readFixed, hsize]
  change Except.ok (Value.bytes (data.take size), data.drop size) = _
  rw [List.take_of_length_le h, List.drop_eq_nil_of_le h]

namespace Form

variable {env : String → Option Form} {known : String → Prop} {table : List (String × Routine)}

variable {x : Value} {bytes c : List UInt8} {root f : Form} {g : Bool} {field : Field Form}
  {before : List (Field Form × Value × List UInt8)} {branches : List Form}

theorem flatMap_nil {α : Type} (xs : List α) : (xs.flatMap fun _ => ([] : List UInt8)) = [] := by
  simp

theorem readParts_absent {parts : List (Field Form × Value)}
    (h : ∀ q ∈ parts, ReadBack env known table q.1.type [] [] q.2) :
    ReadParts env known table (parts.map fun q => (q.1, q.2, [])) [] := by
  induction parts with
  | nil => trivial
  | cons q parts ih =>
    refine ⟨?_, ih fun q hq => h q (List.mem_cons_of_mem _ hq)⟩
    rw [List.flatMap_map, flatMap_nil]
    exact h q List.mem_cons_self

theorem readParts_unnoticed {after : List (Field Form × Value)}
    (hbefore : ∀ q ∈ before, ∀ rest, ReadBack env known table q.1.type q.2.2 rest q.2.1)
    (h : ReadBack env known table field.type bytes [] x)
    (hafter : ∀ q ∈ after, ReadBack env known table q.1.type [] [] q.2) :
    ReadParts env known table (before ++ (field, x, bytes) :: after.map fun q => (q.1, q.2, [])) [] := by
  refine readParts_append.2 ⟨readParts_of_forall hbefore _, ?_, readParts_absent hafter⟩
  rw [List.flatMap_map, flatMap_nil]
  exact h

theorem Absent.readBack (htable : ReadsKnown env known table)
    (h : Absent env f x) : ReadBack env known table f [] [] x := by
  induction h with
  | null => exact readBack_null
  | fixed size =>
    intro g V p d K hd hp hK
    cases hd with
    | fixed hsize =>
      exact stores_primitive (readFixed_short hsize (Nat.zero_le _))
  | record parts _ ih =>
    have hread := readBack_record _ (readParts_absent ih)
    simpa only [List.map_map, List.flatMap_map, Function.comp_def, flatMap_nil] using hread
  | named hn _ ih => exact readBack_named htable hn ih

/-- What breaks off unnoticed is read. -/
theorem Unnoticed.readBack {f : Form} (htable : ReadsKnown env known table) (h : Unnoticed env f bytes x) :
    ReadBack env known table f bytes [] x := by
  induction h with
  | bytes h =>
    intro g V p d K hd hp hK
    cases hd
    refine stores_primitive ?_
    rw [List.append_nil]
    change readBytes _ = _
    rw [readBytes, h.readBlock_eq]
    rfl
  | string h =>
    intro g V p d K hd hp hK
    cases hd
    refine stores_primitive ?_
    rw [List.append_nil]
    change readString _ = _
    rw [readString, h.readText_eq]
    rfl
  | @fixed size data h =>
    intro g V p d K hd hp hK
    cases hd with
    | fixed hsize =>
      refine stores_primitive ?_
      rw [List.append_nil]
      exact readFixed_short hsize h.le
  | record before after hbefore _ hafter ih =>
    have hread := readBack_record _ (readParts_unnoticed
      (fun q hq => (hbefore q hq).readBack htable) ih fun q hq => (hafter q hq).readBack htable)
    simpa only [List.map_append, List.map_cons, List.map_map, List.flatMap_append, List.flatMap_cons,
      List.flatMap_map, Function.comp_def, flatMap_nil, List.append_nil] using hread
  | union hi hlim _ ih => exact readBack_union hi hlim ih
  | named hn _ ih => exact readBack_named htable hn ih

end Form

namespace Codec

variable {codec : Codec} {env : String → Option Form} {known : String → Prop} {f : Form} {v x y : Value}
  {bytes c s : List UInt8} {schemata : Schemata} {identifier : String} {store : Store}
  {registry : Schema.Registry} {recursive : String → Prop}

end Codec

end AvroCodec
