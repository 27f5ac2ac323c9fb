import AvroCodec.Codec
import AvroCodec.Proofs.Decoding
import AvroCodec.Proofs.Loading

/-!
# Readers of forms

`Reader` relates a form to the code that reads its values, at a place and with variables of its own.
Code for a recursive type hands over to the function of the type. It stands where at least one byte has
been read since the last function was entered, which is what its first index tells.

Such code reads whatever stands for a value of the form.
-/

namespace AvroCodec

open Code Decoder

/-- Code that reads the values of a form to a place, and has the variables in `V` for itself. -/
inductive Reader (env : String → Option Form) (known : String → Prop) :
    Bool → (String → Prop) → Form → Place → Decoder → Prop
  | null {g : Bool} {V : String → Prop} {p : Place} : Reader env known g V .null p (.null p)
  | basic {g : Bool} {V : String → Prop} {p : Place} {type : String} {schema : Json} :
      Reader env known g V (.basic type) p (.primitive type schema p)
  | fixed {g : Bool} {V : String → Prop} {p : Place} {size : Nat} {schema : Json}
      (h : Primitive.sizeOf? schema = .ok size) :
      Reader env known g V (.fixed size) p (.primitive "fixed" schema p)
  | enum {g : Bool} {V : String → Prop} {p : Place} {symbols : List String} :
      Reader env known g V (.enum symbols) p (.enum p (.arr (symbols.map .str)))
  | array {g : Bool} {V W : String → Prop} {p : Place} {f : Form} {index count item : String}
      {body : Decoder} (hcount : V count) (hindex : V index) (hitem : V item)
      (hW : ∀ y, W y → V y ∧ y ≠ item)
      (h : Reader env known true W f (.of item) body) :
      Reader env known g V (.array f) p (.array p index count item body)
  | map {g : Bool} {V W : String → Prop} {p : Place} {f : Form} {key count index : String}
      {body : Decoder} (hcount : V count) (hindex : V index) (hkey : V key)
      (hW : ∀ y, W y → V y ∧ y ≠ key)
      (h : Reader env known true W f (p.entry key) body) :
      Reader env known g V (.map f) p (.map p key count index body)
  | record {g : Bool} {V : String → Prop} {p : Place} {fields : List (Field Form)}
      (parts : List (Field Form × Decoder)) (hfields : parts.map (·.1) = fields)
      (hnames : ∀ q ∈ parts, Form.isFieldName q.1.name = true)
      (h : ∀ q ∈ parts, Reader env known false V q.1.type (p.member (.str q.1.name)) q.2) :
      Reader env known g V (.record fields) p (.record p (parts.map (·.2)))
  | union {g : Bool} {V W : String → Prop} {p : Place} {branches : List Form} {index : String}
      {wrapped : Bool} (hindex : V index) (hW : ∀ y, W y → V y ∧ y ≠ index)
      (cases : List (Form × Json × Decoder)) (hcases : cases.map (·.1) = branches)
      (h : ∀ q ∈ cases, Reader env known true W q.1 p q.2.2) :
      Reader env known g V (.union branches) p (.union p index wrapped (cases.map (·.2)))
  | named {g : Bool} {V : String → Prop} {p : Place} {name : String} {f : Form} {d : Decoder}
      (hn : env name = some f) (h : Reader env known g V f p d) :
      Reader env known g V (.named name) p d
  | recur {V : String → Prop} {p : Place} {name : String} (hk : known name) :
      Reader env known true V (.named name) p (.recur name p)

theorem Reader.mono {env : String → Option Form} {known : String → Prop} {g : Bool}
    {V V' : String → Prop} {f : Form} {p : Place} {d : Decoder} (h : Reader env known g V f p d)
    (hV : ∀ y, V y → V' y) : Reader env known g V' f p d := by
  induction h with
  | null => exact .null
  | basic => exact .basic
  | fixed h => exact .fixed h
  | enum => exact .enum
  | array hcount hindex hitem hW h _ =>
    exact .array (hV _ hcount) (hV _ hindex) (hV _ hitem) (fun y hy => (hW y hy).imp_left (hV y)) h
  | map hcount hindex hkey hW h _ =>
    exact .map (hV _ hcount) (hV _ hindex) (hV _ hkey) (fun y hy => (hW y hy).imp_left (hV y)) h
  | record parts hfields hnames _ ih => exact .record parts hfields hnames fun q hq => ih q hq hV
  | union hindex hW cases hcases h _ =>
    exact .union (hV _ hindex) (fun y hy => (hW y hy).imp_left (hV y)) cases hcases h
  | named hn _ ih => exact .named hn (ih hV)
  | recur hk => exact .recur hk

/-- A table with a function that reads for every known name. -/
def ReadsKnown (env : String → Option Form) (known : String → Prop)
    (table : List (String × Routine)) : Prop :=
  ∀ name, known name → ∃ f V routine, env name = some f ∧ ¬ V "data" ∧
    Routine.function? table name = some routine ∧
      Reader env known false V f (.of "data") routine.reader

theorem Primitive.reads_fixed {schema : Json} {data : List UInt8}
    (h : sizeOf? schema = .ok data.length) : Reads (Primitive.read "fixed" schema) data (.bytes data) := by
  intro rest
  have htake : takeBytes data.length (data ++ rest) = (data, rest) := by
    change ((data ++ rest).take data.length, (data ++ rest).drop data.length) = (data, rest)
    rw [List.take_left, List.drop_left]
  change readFixed schema (data ++ rest) = _
  unfold readFixed
  rw [h]
  simp only [bind, Except.bind, htake]
  rfl

namespace Form

variable {env : String → Option Form} {known : String → Prop} {table : List (String × Routine)}

variable {rest bytes : List UInt8} {f : Form} {parts : List (Field Form × Value × List UInt8)} {K : Nat} {x : Value}
  {p : Place} {name : String} {V : String → Prop}

/-- Any code for a form takes these bytes, with the given ones after them, and stores this value. -/
def ReadBack (env : String → Option Form) (known : String → Prop) (table : List (String × Routine))
    (f : Form) (bytes rest : List UInt8) (x : Value) : Prop :=
  ∀ (g : Bool) (V : String → Prop) (p : Place) (d : Decoder) (K : Nat), Reader env known g V f p d →
    p.Clear V → bytes.length + g.toNat ≤ K → d.StoresBefore (Routine.readCall table K) V p bytes rest x

theorem readBack_null : ReadBack env known table .null [] rest .null := by
  intro g V p d K hd hp hK
  cases hd
  exact stores_null

theorem readBack_array (bs : List (Block (Value × List UInt8)))
    (h : ∀ q ∈ Block.content bs, ∀ rest, ReadBack env known table f q.2 rest q.1) (rest : List UInt8) :
    ReadBack env known table (.array f) (Block.allBytes (·.2) bs) rest
      (.list ((Block.content bs).map (·.1))) := by
  intro g V p d K hd hp hK
  cases hd with
  | array hcount hindex hitem hW hbody =>
    refine stores_array hp hcount hindex hitem (fun y hy => (hW y hy).1) (fun q hq rest => ?_) rest
    refine h q hq rest _ _ _ _ K hbody (Place.clear_of fun hy => (hW _ hy).2 rfl) ?_
    have hlt := Block.length_lt_allBytes (·.2) hq
    simp only [Bool.toNat_true]
    omega

theorem readBack_map (bs : List (Block (String × Value × List UInt8)))
    (htext : ∀ q ∈ Block.content bs, q.1.toUTF8.toList.length < Varint.limit)
    (h : ∀ q ∈ Block.content bs, ∀ rest, ReadBack env known table f q.2.2 rest q.2.1)
    (rest : List UInt8) :
    ReadBack env known table (.map f) (Block.allBytes (fun q => Primitive.textOf q.1 ++ q.2.2) bs) rest
      (.dict (Value.puts ((Block.content bs).map fun q => (q.1, q.2.1)))) := by
  intro g V p d K hd hp hK
  cases hd with
  | @map _ _ W _ _ key _ _ _ hcount hindex hkey hW hbody =>
    refine stores_map htext hp hcount hindex hkey (fun y hy => (hW y hy).1) (fun q hq rest => ?_) rest
    have hroot : key ≠ p.root := by
      rintro rfl
      exact hp.root hkey
    have hclear : (p.entry key).Clear W :=
      (hp.mono fun y hy => (hW y hy).1).entry (fun hy => (hW _ hy).2 rfl) hroot
    refine h q hq rest _ _ _ _ K hbody hclear ?_
    have hlt := Block.length_lt_allBytes (fun q => Primitive.textOf q.1 ++ q.2.2) hq
    simp only [List.length_append, Bool.toNat_true] at hlt ⊢
    omega

/-- Fields are read one after the other, each with those after it still to come. -/
def ReadParts (env : String → Option Form) (known : String → Prop) (table : List (String × Routine)) :
    List (Field Form × Value × List UInt8) → List UInt8 → Prop
  | [], _ => True
  | q :: parts, rest =>
    ReadBack env known table q.1.type q.2.2 (parts.flatMap (·.2.2) ++ rest) q.2.1 ∧
      ReadParts env known table parts rest

theorem readParts_append {parts' : List (Field Form × Value × List UInt8)} :
    ReadParts env known table (parts ++ parts') rest ↔
      ReadParts env known table parts (parts'.flatMap (·.2.2) ++ rest) ∧
        ReadParts env known table parts' rest := by
  induction parts with
  | nil => simp [ReadParts]
  | cons q parts ih =>
    rw [List.cons_append, ReadParts, ReadParts, ih, List.flatMap_append, List.append_assoc, and_assoc]

theorem readParts_of_forall
    (h : ∀ q ∈ parts, ∀ rest, ReadBack env known table q.1.type q.2.2 rest q.2.1) (rest : List UInt8) :
    ReadParts env known table parts rest := by
  induction parts with
  | nil => trivial
  | cons q parts ih =>
    exact ⟨h q List.mem_cons_self _, ih fun q hq => h q (List.mem_cons_of_mem _ hq)⟩

theorem ReadParts.storesBefore {both : List ((Field Form × Decoder) × Field Form × Value × List UInt8)}
    (h : ReadParts env known table (both.map (·.2)) rest) (hp : p.Clear V) (hboth : ∀ q ∈ both, q.1.1 = q.2.1)
    (hreader : ∀ q ∈ both, Reader env known false V q.1.1.type (p.member (.str q.1.1.name)) q.1.2)
    (hK : (both.flatMap (·.2.2.2)).length ≤ K) (front : List (String × Decoder × Value × List UInt8))
    (q : String × Decoder × Value × List UInt8) (back : List (String × Decoder × Value × List UInt8))
    (hfull : both.map (fun q => (q.2.1.name, q.1.2, q.2.2)) = front ++ q :: back) :
    q.2.1.StoresBefore (Routine.readCall table K) V (p.member (.str q.1)) q.2.2.2
      (back.flatMap (·.2.2.2) ++ rest) q.2.2.1 := by
  obtain ⟨front, back, rfl, rfl, hback⟩ := List.map_eq_append_iff.1 hfull
  obtain ⟨q, back, rfl, rfl, rfl⟩ := List.map_eq_cons_iff.1 hback
  have hq : q ∈ front ++ q :: back := List.mem_append_right _ List.mem_cons_self
  have hread := hreader q hq
  rw [hboth q hq] at hread
  rw [List.map_append, readParts_append] at h
  have hstores := h.2.1
  rw [List.flatMap_map] at hstores ⊢
  refine hstores _ _ _ _ K hread (hp.member _) ?_
  have hle := length_le_flatMap (·.2.2.2) hq
  simp only [Bool.toNat_false]
  omega

theorem ReadParts.exists_steps (h : ReadParts env known table parts rest) {g : Bool} {d : Decoder}
    (hd : Reader env known g V (.record (parts.map (·.1))) p d) (hp : p.Clear V)
    (hK : (parts.flatMap (·.2.2)).length ≤ K) :
    ∃ steps : List (String × Decoder × Value × List UInt8), d = .record p (steps.map (·.2.1)) ∧
      (steps.map fun q => (q.1, q.2.2.1)) = parts.map (fun q => (q.1.name, q.2.1)) ∧
      steps.flatMap (·.2.2.2) = parts.flatMap (·.2.2) ∧
      (∀ q ∈ steps, Form.isFieldName q.1 = true) ∧
      ∀ front q back, steps = front ++ q :: back →
        q.2.1.StoresBefore (Routine.readCall table K) V (p.member (.str q.1)) q.2.2.2
          (back.flatMap (·.2.2.2) ++ rest) q.2.2.1 := by
  cases hd with
  | record decoders hfields hnames hparts =>
    obtain ⟨both, rfl, rfl, hboth⟩ := exists_zip hfields
    have hname : ∀ q ∈ both, Form.isFieldName q.2.1.name = true := by
      intro q hq
      rw [← hboth q hq]
      exact hnames q.1 (List.mem_map_of_mem hq)
    rw [List.flatMap_map] at hK
    refine ⟨both.map fun q => (q.2.1.name, q.1.2, q.2.2), ?_, ?_, ?_, List.forall_mem_map.2 hname,
      h.storesBefore hp hboth (fun q hq => hparts q.1 (List.mem_map_of_mem hq)) hK⟩ <;>
    simp only [List.map_map, List.flatMap_map, Function.comp_def]

theorem readBack_record (parts : List (Field Form × Value × List UInt8))
    (h : ReadParts env known table parts rest) :
    ReadBack env known table (.record (parts.map (·.1))) (parts.flatMap (·.2.2)) rest
      (.dict (Value.puts (parts.map fun q => (q.1.name, q.2.1)))) := by
  intro g V p d K hd hp hK
  obtain ⟨steps, rfl, hvalues, hbytes, hnames, hsteps⟩ := h.exists_steps hd hp (K := K) (by omega)
  rw [← hvalues, ← hbytes]
  exact stores_record hp hnames hsteps

theorem readBack_union {branches : List Form} {i : Nat}
    (hi : branches[i]? = some f) (hlim : i < Varint.limit)
    (h : ReadBack env known table f bytes rest x) :
    ReadBack env known table (.union branches) (Varint.bytesOf i ++ bytes) rest x := by
  intro g V p d K hd hp hK
  cases hd with
  | union hindex hW cases hcases hbranches =>
    subst hcases
    rw [List.getElem?_map, Option.map_eq_some_iff] at hi
    obtain ⟨q, hq, rfl⟩ := hi
    have hcase : (cases.map (·.2))[i]? = some q.2 := by
      rw [List.getElem?_map, hq]
      rfl
    refine stores_union hp hindex hW hcase hlim ?_
    refine h _ _ _ _ K (hbranches q (List.mem_of_getElem? hq)) (hp.mono fun y hy => (hW y hy).1) ?_
    have hindex := Varint.one_le_length_bytesOf i
    rw [List.length_append] at hK
    simp only [Bool.toNat_true]
    omega

theorem readCall_eq_ok (htable : ReadsKnown env known table) (hk : known name) (hn : env name = some f)
    (h : ReadBack env known table f bytes rest x) (hK : bytes.length < K) :
    Routine.readCall table K name (bytes ++ rest) = .ok (x, rest) := by
  obtain ⟨f', W, routine, hf', hW, hroutine, hreader⟩ := htable _ hk
  cases hn.symm.trans hf'
  obtain ⟨K, rfl⟩ : ∃ K', K = K' + 1 := Nat.exists_eq_add_one.2 (by omega)
  rw [Routine.readCall, hroutine]
  exact apply_eq_ok (h false W _ _ K hreader (Place.clear_of hW) (Nat.le_of_lt_succ hK))

theorem readBack_named (htable : ReadsKnown env known table) (hn : env name = some f)
    (h : ReadBack env known table f bytes rest x) : ReadBack env known table (.named name) bytes rest x := by
  intro g V p d K hd hp hK
  cases hd with
  | named hn' hd =>
    cases hn.symm.trans hn'
    exact h g V p d K hd hp hK
  | recur hk => exact stores_recur (readCall_eq_ok htable hk hn h hK)

/-- Code for a form reads what its bytes stand for. -/
theorem Decodes.readBack
    (htable : ReadsKnown env known table) (h : Decodes env f bytes x) (rest : List UInt8) :
    ReadBack env known table f bytes rest x := by
  induction h generalizing rest with
  | null => exact readBack_null
  | basic h =>
    intro g V p d K hd hp hK
    cases hd
    exact stores_primitive (h _ rest)
  | fixed data =>
    intro g V p d K hd hp hK
    cases hd with
    | fixed hsize => exact stores_primitive (Primitive.reads_fixed hsize rest)
  | enum hi hlim =>
    intro g V p d K hd hp hK
    cases hd
    exact stores_enum hi hlim rest
  | array bs _ ih => exact readBack_array bs ih rest
  | map bs htext _ ih => exact readBack_map bs htext ih rest
  | record parts _ ih => exact readBack_record parts (readParts_of_forall ih rest)
  | union hi hlim _ ih => exact readBack_union hi hlim (ih rest)
  | named hn _ ih => exact readBack_named htable hn (ih rest)

end Form

end AvroCodec
