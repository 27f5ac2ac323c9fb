import AvroCodec.Proofs.Decoding
import AvroCodec.Proofs.Outcome

/-!
# Bytes that break off

Most readers fail when their bytes end too soon. Bytes, texts and values of a fixed size do not: what there
is of them is taken for all. `Form.Unnoticed` says which bytes break off in such a place with nothing after
it that would fail, and what value they are read as. Floating-point numbers are read without a check.
-/

namespace AvroCodec

/-- What a reader succeeds on it has read to the end, whatever comes after it. -/
def Steady {α : Type} (reader : List UInt8 → Except CodecError (α × List UInt8)) : Prop :=
  ∀ bytes x rest, reader bytes = .ok (x, rest) → ∃ front, bytes = front ++ rest ∧ Reads reader front x

theorem Steady.exists_error {α : Type} {reader : List UInt8 → Except CodecError (α × List UInt8)}
    (hsteady : Steady reader) {p q : List UInt8} {x : α} (h : Reads reader (p ++ q) x) (hq : q ≠ []) :
    ∃ e, reader p = .error e := by
  cases hp : reader p with
  | error e => exact ⟨e, rfl⟩
  | ok result =>
    obtain ⟨y, rest⟩ := result
    obtain ⟨front, rfl, hfront⟩ := hsteady p y rest hp
    have hall := h []
    rw [List.append_nil, List.append_assoc, hfront (rest ++ q)] at hall
    have hrest : rest ++ q = [] := (Prod.mk.inj (Except.ok.inj hall)).2
    exact absurd (List.append_eq_nil_iff.1 hrest).2 hq

/-- No result, for a reason of which something is known. -/
def Fails {α : Type} (E : CodecError → Prop) (x : Except CodecError α) : Prop := ∃ e, E e ∧ x = .error e

namespace Fails

variable {α β : Type} {E E' : CodecError → Prop} {x : Except CodecError α}

theorem imp (h : Fails E x) (hE : ∀ e, E e → E' e) : Fails E' x := by
  obtain ⟨e, he, hx⟩ := h
  exact ⟨e, hE e he, hx⟩

theorem bind (h : Fails E x) (f : α → Except CodecError β) : Fails E (x >>= f) := by
  obtain ⟨e, he, rfl⟩ := h
  exact ⟨e, he, rfl⟩

end Fails

namespace Varint

theorem exists_front_of_ungroup? {bytes rest : List UInt8} {n : Nat}
    (h : ungroup? bytes = some (n, rest)) :
    ∃ front, bytes = front ++ rest ∧ front ≠ [] ∧ ∀ rest, ungroup? (front ++ rest) = some (n, rest) := by
  induction bytes generalizing n with
  | nil => cases h
  | cons b bytes ih =>
    rw [ungroup?] at h
    split_ifs at h with hb
    · cases h
      refine ⟨[b], rfl, List.cons_ne_nil _ _, fun rest => ?_⟩
      rw [List.singleton_append, ungroup?, if_pos hb]
    · obtain ⟨⟨m, rest'⟩, hm, he⟩ := Option.map_eq_some_iff.1 h
      cases he
      obtain ⟨front, rfl, -, hfront⟩ := ih hm
      refine ⟨b :: front, rfl, List.cons_ne_nil _ _, fun rest => ?_⟩
      rw [List.cons_append, ungroup?, if_neg hb, hfront rest]
      rfl

theorem steady_decode : Steady decode := by
  intro bytes x rest h
  obtain ⟨n, hu, hlength, rfl⟩ := decode_eq_ok.1 h
  obtain ⟨front, rfl, -, hall⟩ := exists_front_of_ungroup? hu
  rw [List.length_append] at hlength
  exact ⟨front, rfl, fun rest' => decode_eq_ok.2 ⟨n, hall rest', by rw [List.length_append]; omega, rfl⟩⟩

end Varint

namespace Primitive

variable {bytes data p q : List UInt8} {s type : String} {x : Value}

/-- A number and fewer bytes than it says. -/
def ShortBlock (bytes data : List UInt8) : Prop :=
  ∃ (front : List UInt8) (n : Nat), Reads Varint.decode front (n : Int) ∧ bytes = front ++ data ∧
    data.length < n

theorem ShortBlock.readBlock_eq (h : ShortBlock bytes data) :
    readBlock bytes = .ok (data, []) := by
  obtain ⟨front, n, hfront, rfl, hlt⟩ := h
  rw [readBlock, hfront data]
  change Except.ok (data.take n, data.drop n) = _
  rw [List.take_of_length_le hlt.le, List.drop_eq_nil_of_le hlt.le]

theorem ShortBlock.readText_eq (h : ShortBlock bytes s.toUTF8.toList) :
    readText bytes = .ok (s, []) := by
  simp only [readText, h.readBlock_eq, bind, Except.bind, fromUTF8?_toUTF8_toList]
  rfl

end Primitive

namespace Form

/-- What is read for a form where no bytes are left. -/
inductive Absent (env : String → Option Form) : Form → Value → Prop
  | null : Absent env .null .null
  | fixed (size : Nat) : Absent env (.fixed size) (.bytes [])
  | record (parts : List (Field Form × Value)) (h : ∀ q ∈ parts, Absent env q.1.type q.2) :
      Absent env (.record (parts.map (·.1))) (.dict (Value.puts (parts.map fun q => (q.1.name, q.2))))
  | named {name : String} {f : Form} {x : Value} (hn : env name = some f) (h : Absent env f x) :
      Absent env (.named name) x

/-- Bytes that break off and are read all the same, and what they are read as. They break off inside
bytes, a text or a value of a fixed size. If this is in a field of a record, the fields after it must be
read from nothing. -/
inductive Unnoticed (env : String → Option Form) : Form → List UInt8 → Value → Prop
  | bytes {bytes data : List UInt8} (h : Primitive.ShortBlock bytes data) :
      Unnoticed env (.basic "bytes") bytes (.bytes data)
  | string {bytes : List UInt8} {s : String} (h : Primitive.ShortBlock bytes s.toUTF8.toList) :
      Unnoticed env (.basic "string") bytes (.str s)
  | fixed {size : Nat} {data : List UInt8} (h : data.length < size) :
      Unnoticed env (.fixed size) data (.bytes data)
  | record (before : List (Field Form × Value × List UInt8)) {field : Field Form} {bytes : List UInt8}
      {x : Value} (after : List (Field Form × Value))
      (hbefore : ∀ q ∈ before, Decodes env q.1.type q.2.2 q.2.1) (h : Unnoticed env field.type bytes x)
      (hafter : ∀ q ∈ after, Absent env q.1.type q.2) :
      Unnoticed env (.record (before.map (·.1) ++ field :: after.map (·.1)))
        (before.flatMap (·.2.2) ++ bytes)
        (.dict (Value.puts (before.map (fun q => (q.1.name, q.2.1)) ++
          (field.name, x) :: after.map fun q => (q.1.name, q.2))))
  | union {branches : List Form} {i : Nat} {f : Form} {x : Value} {bytes : List UInt8}
      (hi : branches[i]? = some f) (hlim : i < Varint.limit) (h : Unnoticed env f bytes x) :
      Unnoticed env (.union branches) (Varint.bytesOf i ++ bytes) x
  | named {name : String} {f : Form} {x : Value} {bytes : List UInt8} (hn : env name = some f)
      (h : Unnoticed env f bytes x) : Unnoticed env (.named name) bytes x

end Form

end AvroCodec
