import AvroCodec.Proofs.Frame
import AvroCodec.Proofs.Writer

/-!
# Values that do not fit

A value that does not fit a form may be written all the same. `Form.Misfit` says when: somewhere inside it
there are bytes that do not have the size of their type, or a union has no branch for what is there.

Nothing else is written that cannot be read. What code for a form writes from a value that has no misfit
stands for some value of the form.
-/

namespace AvroCodec

open Code

/-- What is written for a field. Its default takes the place of nothing. -/
def Field.given (field : Field Form) (x : Value) : Value :=
  match field.default with
  | none => x
  | some default => if x.isNull then (Default.value? default).getD .null else x

namespace Form

/-- Values that are written although they do not fit. What a record does not have counts as nothing. -/
inductive Misfit (env : String → Option Form) : Form → Value → Prop
  | size {n : Nat} {data : List UInt8} (h : data.length ≠ n) : Misfit env (.fixed n) (.bytes data)
  | bufferSize {n : Nat} {data : List UInt8} (h : data.length ≠ n) :
      Misfit env (.fixed n) (.buffer data)
  | item {f : Form} {v x : Value} {items : List Value} (hv : v.elements? = some items) (hx : x ∈ items)
      (h : Misfit env f x) : Misfit env (.array f) v
  | entry {f : Form} {entries : List (Value × Value)} {e : Value × Value} (he : e ∈ entries)
      (h : Misfit env f e.2) : Misfit env (.map f) (.map entries)
  | field {fields : List (Field Form)} {field : Field Form} {v : Value} (hf : field ∈ fields)
      (h : Misfit env field.type (field.given ((Value.find? field.name v.entries).getD .null))) :
      Misfit env (.record fields) v
  | unmatched {branches : List Form} {x : Value} (hx : ∀ items, x ≠ .tuple items)
      (h : ∀ f ∈ branches, ∀ k, HasGuard env f k → k.accepts x = false) :
      Misfit env (.union branches) x
  | branch {branches : List Form} {f : Form} {k : Guard} {x : Value} (hf : f ∈ branches)
      (hk : HasGuard env f k) (hx : k.accepts x = true) (h : Misfit env f x) :
      Misfit env (.union branches) x
  | untagged {branches : List Form} {tag payload : Value}
      (h : ∀ f ∈ branches, ∀ t, f.tag? = some t → Value.equals (.str t) tag = false) :
      Misfit env (.union branches) (.tuple [tag, payload])
  | tagged {branches : List Form} {f : Form} {tag payload : Value} (hf : f ∈ branches)
      (ht : ∀ t, f.tag? = some t → Value.equals (.str t) tag = true) (h : Misfit env f payload) :
      Misfit env (.union branches) (.tuple [tag, payload])
  | named {name : String} {f : Form} {x : Value} (hn : env name = some f) (h : Misfit env f x) :
      Misfit env (.named name) x

/-- What an effect adds stands for a value of the form. -/
def Sent (env : String → Option Form) (f : Form) (eff : Effect) : Prop :=
  ∃ bytes x, eff.Emits bytes ∧ Decodes env f bytes x

/-- Code that succeeds on a value without misfit adds what stands for a value of the form, and leaves
alone what is not at its place. -/
def Sends (env : String → Option Form) (f : Form) (path : List String) (host : Value) (w : Written) :
    Prop :=
  ∀ eff, w.result = .ok eff → ¬ Misfit env f (host.peek path) →
    Sent env f eff ∧ Value.Frame path host w.value

end Form

namespace Primitive

theorem exists_reads_of_writeInt {v : Value} {bytes : List UInt8} (h : writeInt v = .ok bytes) :
    ∃ x, Reads readInt bytes x := by
  unfold writeInt at h
  split at h
  · obtain ⟨hn, rfl⟩ := Varint.eq_bytesOf_of_encode h
    obtain ⟨hlo, hhi⟩ := (Varint.zigzag_lt_modulus_iff _).1 hn
    exact ⟨_, readInt_bytesOf hlo hhi⟩
  · cases h

/-- Whatever is written as a basic type can be read as one. -/
theorem exists_reads_of_write {type : String} {v : Value} {bytes : List UInt8}
    (hb : Gen.isBasic type = true) (h : write type v = .ok bytes) :
    ∃ x, ∀ schema, Reads (read type schema) bytes x := by
  rcases Form.mem_basicTypes hb with rfl | rfl | rfl | rfl | rfl | rfl | rfl
  · cases h
    refine ⟨.bool ((if v.truthy then 1 else 0 : UInt8) != 0), fun schema rest => rfl⟩
  · obtain ⟨x, hx⟩ := exists_reads_of_writeInt h
    exact ⟨x, fun _ => hx⟩
  · obtain ⟨x, hx⟩ := exists_reads_of_writeInt h
    exact ⟨x, fun _ => hx⟩
  · obtain ⟨y, -, hy⟩ := except_bind_eq_ok.1 h
    cases hy
    exact ⟨_, fun _ => readFloat_littleEndian _⟩
  · obtain ⟨n, rfl⟩ : ∃ n, bytes = Wire.littleEndian 8 n := by
      change writeDouble v = .ok bytes at h
      unfold writeDouble at h
      split at h
      · exact ⟨_, (Except.ok.inj h).symm⟩
      · obtain ⟨y, -, hy⟩ := except_bind_eq_ok.1 h
        exact ⟨_, (Except.ok.inj hy).symm⟩
    exact ⟨_, fun _ => readDouble_littleEndian n⟩
  · cases v with
    | bytes data =>
      obtain ⟨hlen, rfl⟩ := writeBlock_eq_ok_iff.1 h
      exact ⟨_, (encoded_bytes hlen).reads⟩
    | _ => cases h
  · cases v with
    | str s =>
      obtain ⟨hlen, rfl⟩ := writeBlock_eq_ok_iff.1 h
      exact ⟨_, (encoded_string hlen).reads⟩
    | _ => cases h

end Primitive

end AvroCodec
