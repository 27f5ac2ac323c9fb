import AvroCodec.Proofs.Dict
import AvroCodec.Proofs.Kind
import AvroCodec.Proofs.Primitive

/-!
# Values and their encodings

`Form.Conforms` says which values a form has, `Form.Encodes` which bytes a value is encoded by. Names
stand for the forms that `env` gives them. Every value of a form has an encoding.
-/

namespace AvroCodec

open Varint

/-- Parts with their number in front and zero behind, or only zero if there are none. -/
def counted (count : Nat) (parts : List UInt8) : List UInt8 :=
  if count = 0 then bytesOf 0 else bytesOf count ++ parts ++ bytesOf 0

namespace Form

/-- The values of a form. The values of a record are the dictionaries with its fields as keys. -/
inductive Conforms (env : String → Option Form) : Form → Value → Prop
  | null : Conforms env .null .null
  | basic {type : String} {x : Value} (h : Primitive.Holds type x) : Conforms env (.basic type) x
  | fixed (data : List UInt8) : Conforms env (.fixed data.length) (.bytes data)
  | enum {symbols : List String} {s : String} (hs : s ∈ symbols)
      (hlen : symbols.length ≤ limit) : Conforms env (.enum symbols) (.str s)
  | array {f : Form} {items : List Value} (hlen : items.length < limit)
      (h : ∀ x ∈ items, Conforms env f x) : Conforms env (.array f) (.list items)
  | map {f : Form} {entries : List (String × Value)} (hlen : entries.length < limit)
      (hkeys : (entries.map (·.1)).Nodup)
      (htext : ∀ e ∈ entries, e.1.toUTF8.toList.length < limit)
      (h : ∀ e ∈ entries, Conforms env f e.2) : Conforms env (.map f) (.dict entries)
  | record {fields : List (Field Form)} {entries : List (String × Value)}
      (hkeys : (entries.map (·.1)).Nodup)
      (hnames : ∀ key, key ∈ entries.map (·.1) ↔ key ∈ fields.map (·.name))
      (h : ∀ field ∈ fields, ∀ x, (field.name, x) ∈ entries → Conforms env field.type x) :
      Conforms env (.record fields) (.dict entries)
  | union {branches : List Form} {i : Nat} {f : Form} {x : Value} (hi : branches[i]? = some f)
      (hlim : i < limit) (h : Conforms env f x) : Conforms env (.union branches) x
  | named {name : String} {f : Form} {x : Value} (hn : env name = some f) (h : Conforms env f x) :
      Conforms env (.named name) x

/-- The encodings of values. A record is encoded by its fields, one after the other in the order of the
schema, and a branch of a union by its position and then the branch. -/
inductive Encodes (env : String → Option Form) : Form → Value → List UInt8 → Prop
  | null : Encodes env .null .null []
  | basic {type : String} {x : Value} {bytes : List UInt8} (hx : Primitive.Holds type x)
      (h : Primitive.Encoded type x bytes) : Encodes env (.basic type) x bytes
  | fixed (data : List UInt8) : Encodes env (.fixed data.length) (.bytes data) data
  | enum {symbols : List String} {s : String} {i : Nat} (hi : symbols.findIdx? (· == s) = some i)
      (hlim : i < limit) : Encodes env (.enum symbols) (.str s) (bytesOf i)
  | array {f : Form} (parts : List (Value × List UInt8)) (hlen : parts.length < limit)
      (h : ∀ q ∈ parts, Encodes env f q.1 q.2) :
      Encodes env (.array f) (.list (parts.map (·.1))) (counted parts.length (parts.flatMap (·.2)))
  | map {f : Form} (parts : List (String × Value × List UInt8)) (hlen : parts.length < limit)
      (hkeys : (parts.map (·.1)).Nodup)
      (htext : ∀ q ∈ parts, q.1.toUTF8.toList.length < limit)
      (h : ∀ q ∈ parts, Encodes env f q.2.1 q.2.2) :
      Encodes env (.map f) (.dict (parts.map fun q => (q.1, q.2.1)))
        (counted parts.length (parts.flatMap fun q => Primitive.textOf q.1 ++ q.2.2))
  | record (parts : List (Field Form × Value × List UInt8)) {entries : List (String × Value)}
      (hkeys : (entries.map (·.1)).Nodup)
      (hnames : ∀ e ∈ entries, e.1 ∈ parts.map (·.1.name))
      (hentries : ∀ q ∈ parts, (q.1.name, q.2.1) ∈ entries)
      (h : ∀ q ∈ parts, Encodes env q.1.type q.2.1 q.2.2) :
      Encodes env (.record (parts.map (·.1))) (.dict entries) (parts.flatMap (·.2.2))
  | union {branches : List Form} {i : Nat} {f : Form} {x : Value} {bytes : List UInt8}
      (hi : branches[i]? = some f) (hlim : i < limit) (h : Encodes env f x bytes) :
      Encodes env (.union branches) x (bytesOf i ++ bytes)
  | named {name : String} {f : Form} {x : Value} {bytes : List UInt8} (hn : env name = some f)
      (h : Encodes env f x bytes) : Encodes env (.named name) x bytes

end Form

theorem exists_mem_of_forall₂ {α β : Type} {P : α → β → Prop} {as : List α} {bs : List β} {b : β}
    (h : List.Forall₂ P as bs) (hb : b ∈ bs) : ∃ a ∈ as, P a b := by
  induction h with
  | nil => cases hb
  | cons hab _ ih =>
    rcases List.mem_cons.1 hb with rfl | hb
    · exact ⟨_, List.mem_cons_self, hab⟩
    · obtain ⟨a, ha, hab⟩ := ih hb
      exact ⟨a, List.mem_cons_of_mem _ ha, hab⟩

theorem exists_companions {α β : Type} {P : α → β → Prop} {xs : List α} (h : ∀ x ∈ xs, ∃ y, P x y) :
    ∃ parts : List (α × β), parts.map (·.1) = xs ∧ ∀ q ∈ parts, P q.1 q.2 := by
  induction xs with
  | nil => exact ⟨[], rfl, by simp⟩
  | cons x xs ih =>
    obtain ⟨y, hy⟩ := h x List.mem_cons_self
    obtain ⟨parts, hparts, hp⟩ := ih fun x hx => h x (List.mem_cons_of_mem _ hx)
    exact ⟨(x, y) :: parts, by simp [hparts], List.forall_mem_cons.2 ⟨hy, hp⟩⟩

theorem exists_zip {α β γ : Type} {f : α → γ} {g : β → γ} {xs : List α} {ys : List β}
    (h : xs.map f = ys.map g) :
    ∃ zs : List (α × β), zs.map (·.1) = xs ∧ zs.map (·.2) = ys ∧ ∀ z ∈ zs, f z.1 = g z.2 := by
  induction xs generalizing ys with
  | nil =>
    cases ys with
    | nil => exact ⟨[], rfl, rfl, by simp⟩
    | cons y ys => cases h
  | cons x xs ih =>
    cases ys with
    | nil => cases h
    | cons y ys =>
      rw [List.map_cons, List.map_cons, List.cons.injEq] at h
      obtain ⟨zs, rfl, rfl, hzs⟩ := ih h.2
      exact ⟨(x, y) :: zs, rfl, rfl, List.forall_mem_cons.2 ⟨h.1, hzs⟩⟩

namespace Form

variable {env : String → Option Form}

/-- Every value of a form has an encoding. -/
theorem Conforms.exists_encodes {f : Form} {x : Value} (h : Conforms env f x) :
    ∃ bytes, Encodes env f x bytes := by
  induction h with
  | null => exact ⟨_, .null⟩
  | basic h =>
    obtain ⟨bytes, hb⟩ := h.encoded
    exact ⟨bytes, .basic h hb⟩
  | fixed data => exact ⟨_, .fixed data⟩
  | @enum symbols s hs hlen =>
    cases hi : symbols.findIdx? (· == s) with
    | none =>
      rw [List.findIdx?_eq_none_iff] at hi
      exact absurd (hi s hs) (by simp)
    | some i =>
      have hlt : i < symbols.length := (List.findIdx?_eq_some_iff_getElem.1 hi).1
      exact ⟨_, .enum hi (by omega)⟩
  | array hlen _ ih =>
    obtain ⟨parts, rfl, hparts⟩ := exists_companions ih
    exact ⟨_, .array parts (by simpa using hlen) hparts⟩
  | map hlen hkeys htext _ ih =>
    obtain ⟨parts, rfl, hparts⟩ := exists_companions ih
    let triples := parts.map fun q => (q.1.1, q.1.2, q.2)
    have hentries : parts.map (·.1) = triples.map fun q => (q.1, q.2.1) := by
      simp [triples]
    rw [hentries] at hlen hkeys htext ⊢
    rw [List.map_map] at hkeys
    refine ⟨_, .map triples (by simpa using hlen) hkeys ?_ ?_⟩
    · intro q hq
      exact htext (q.1, q.2.1) (List.mem_map_of_mem hq)
    · intro q hq
      obtain ⟨r, hr, rfl⟩ := List.mem_map.1 hq
      exact hparts r hr
  | @record fields entries hkeys hnames _ ih =>
    have hall : ∀ field ∈ fields, ∃ p : Value × List UInt8,
        (field.name, p.1) ∈ entries ∧ Encodes env field.type p.1 p.2 := by
      intro field hfield
      obtain ⟨e, he, hname⟩ := List.mem_map.1 ((hnames field.name).2 (List.mem_map_of_mem hfield))
      have hmem : (field.name, e.2) ∈ entries := by
        rw [← hname]
        exact he
      obtain ⟨bytes, hb⟩ := ih field hfield e.2 hmem
      exact ⟨(e.2, bytes), hmem, hb⟩
    obtain ⟨parts, rfl, hparts⟩ := exists_companions hall
    refine ⟨_, .record parts hkeys ?_ (fun q hq => (hparts q hq).1) fun q hq => (hparts q hq).2⟩
    intro e he
    have hname := (hnames e.1).1 (List.mem_map_of_mem he)
    rwa [List.map_map] at hname
  | union hi hlim _ ih =>
    obtain ⟨bytes, hb⟩ := ih
    exact ⟨_, .union hi hlim hb⟩
  | named hn _ ih =>
    obtain ⟨bytes, hb⟩ := ih
    exact ⟨bytes, .named hn hb⟩

end Form

end AvroCodec
