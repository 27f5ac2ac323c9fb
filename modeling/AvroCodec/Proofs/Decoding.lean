import AvroCodec.Proofs.Block

/-!
# Bytes and their values

`Form.Spells` extends the encodings of values to arrays and maps in any number of blocks. `Form.Decodes`
says which value some bytes stand for. Entries with the same key are put into a dictionary one over the
other. The bytes of a value stand for the same value, with the fields of its records in the order of the
schema.
-/

namespace AvroCodec.Form

open Varint

variable {env : String → Option Form} {f : Form} {bytes : List UInt8} {x : Value}

/-- The bytes of values when their arrays and maps are split into blocks. -/
inductive Spells (env : String → Option Form) : Form → Value → List UInt8 → Prop
  | null : Spells env .null .null []
  | basic {type : String} {x : Value} {bytes : List UInt8} (hx : Primitive.Holds type x)
      (h : Primitive.Encoded type x bytes) : Spells env (.basic type) x bytes
  | fixed (data : List UInt8) : Spells env (.fixed data.length) (.bytes data) data
  | enum {symbols : List String} {s : String} {i : Nat} (hi : symbols.findIdx? (· == s) = some i)
      (hlim : i < limit) : Spells env (.enum symbols) (.str s) (bytesOf i)
  | array {f : Form} (bs : List (Block (Value × List UInt8)))
      (h : ∀ q ∈ Block.content bs, Spells env f q.1 q.2) :
      Spells env (.array f) (.list ((Block.content bs).map (·.1))) (Block.allBytes (·.2) bs)
  | map {f : Form} (bs : List (Block (String × Value × List UInt8)))
      (htext : ∀ q ∈ Block.content bs, q.1.toUTF8.toList.length < limit)
      (h : ∀ q ∈ Block.content bs, Spells env f q.2.1 q.2.2) :
      Spells env (.map f) (.dict (Value.puts ((Block.content bs).map fun q => (q.1, q.2.1))))
        (Block.allBytes (fun q => Primitive.textOf q.1 ++ q.2.2) bs)
  | record (parts : List (Field Form × Value × List UInt8)) {entries : List (String × Value)}
      (hkeys : (entries.map (·.1)).Nodup)
      (hnames : ∀ e ∈ entries, e.1 ∈ parts.map (·.1.name))
      (hentries : ∀ q ∈ parts, (q.1.name, q.2.1) ∈ entries)
      (h : ∀ q ∈ parts, Spells env q.1.type q.2.1 q.2.2) :
      Spells env (.record (parts.map (·.1))) (.dict entries) (parts.flatMap (·.2.2))
  | union {branches : List Form} {i : Nat} {f : Form} {x : Value} {bytes : List UInt8}
      (hi : branches[i]? = some f) (hlim : i < limit) (h : Spells env f x bytes) :
      Spells env (.union branches) x (bytesOf i ++ bytes)
  | named {name : String} {f : Form} {x : Value} {bytes : List UInt8} (hn : env name = some f)
      (h : Spells env f x bytes) : Spells env (.named name) x bytes

theorem Encodes.spells (h : Encodes env f x bytes) : Spells env f x bytes := by
  induction h with
  | null => exact .null
  | basic hx h => exact .basic hx h
  | fixed data => exact .fixed data
  | enum hi hlim => exact .enum hi hlim
  | array parts hlen _ ih =>
    have hspells : Spells env _ _ _ := .array (Block.whole parts hlen) (by rwa [Block.content_whole])
    rwa [Block.content_whole, Block.allBytes_whole] at hspells
  | map parts hlen hkeys htext _ ih =>
    have hspells : Spells env _ _ _ := .map (Block.whole parts hlen) (by rwa [Block.content_whole])
      (by rwa [Block.content_whole])
    rwa [Block.content_whole, Block.allBytes_whole,
      Value.puts_of_nodup (by rw [List.map_map]; exact hkeys)] at hspells
  | record parts hkeys hnames hentries _ ih => exact .record parts hkeys hnames hentries ih
  | union hi hlim _ ih => exact .union hi hlim ih
  | named hn _ ih => exact .named hn ih

/-- The values that bytes stand for. -/
inductive Decodes (env : String → Option Form) : Form → List UInt8 → Value → Prop
  | null : Decodes env .null [] .null
  | basic {type : String} {bytes : List UInt8} {x : Value}
      (h : ∀ schema, Reads (Primitive.read type schema) bytes x) : Decodes env (.basic type) bytes x
  | fixed (data : List UInt8) : Decodes env (.fixed data.length) data (.bytes data)
  | enum {symbols : List String} {s : String} {i : Nat} (hi : symbols[i]? = some s)
      (hlim : i < limit) : Decodes env (.enum symbols) (bytesOf i) (.str s)
  | array {f : Form} (bs : List (Block (Value × List UInt8)))
      (h : ∀ q ∈ Block.content bs, Decodes env f q.2 q.1) :
      Decodes env (.array f) (Block.allBytes (·.2) bs) (.list ((Block.content bs).map (·.1)))
  | map {f : Form} (bs : List (Block (String × Value × List UInt8)))
      (htext : ∀ q ∈ Block.content bs, q.1.toUTF8.toList.length < limit)
      (h : ∀ q ∈ Block.content bs, Decodes env f q.2.2 q.2.1) :
      Decodes env (.map f) (Block.allBytes (fun q => Primitive.textOf q.1 ++ q.2.2) bs)
        (.dict (Value.puts ((Block.content bs).map fun q => (q.1, q.2.1))))
  | record (parts : List (Field Form × Value × List UInt8))
      (h : ∀ q ∈ parts, Decodes env q.1.type q.2.2 q.2.1) :
      Decodes env (.record (parts.map (·.1))) (parts.flatMap (·.2.2))
        (.dict (Value.puts (parts.map fun q => (q.1.name, q.2.1))))
  | union {branches : List Form} {i : Nat} {f : Form} {x : Value} {bytes : List UInt8}
      (hi : branches[i]? = some f) (hlim : i < limit) (h : Decodes env f bytes x) :
      Decodes env (.union branches) (bytesOf i ++ bytes) x
  | named {name : String} {f : Form} {x : Value} {bytes : List UInt8} (hn : env name = some f)
      (h : Decodes env f bytes x) : Decodes env (.named name) bytes x

/-- The bytes of a value stand for the same value. -/
theorem Spells.exists_decodes (h : Spells env f x bytes) : ∃ x', Value.Same x' x ∧ Decodes env f bytes x' := by
  induction h with
  | null => exact ⟨_, .refl _, .null⟩
  | basic _ h => exact ⟨_, .refl _, .basic h.reads⟩
  | fixed data => exact ⟨_, .refl _, .fixed data⟩
  | @enum symbols s i hi hlim =>
    obtain ⟨hlt, hget, -⟩ := List.findIdx?_eq_some_iff_getElem.1 hi
    have hsymbol : symbols[i]? = some s := by
      rw [List.getElem?_eq_getElem hlt, eq_of_beq hget]
    exact ⟨_, .refl _, .enum hsymbol hlim⟩
  | array bs _ ih =>
    obtain ⟨bs, rfl, hbs⟩ := Block.exists_companions ih
    have hsame := Value.Same.list ((Block.content bs).map fun q => (q.2, q.1.1))
      (List.forall_mem_map.2 fun q hq => (hbs q hq).1)
    have hdecodes := Decodes.array (bs.map (Block.map fun q => (q.2, q.1.2)))
      (Block.forall_content_map.2 fun q hq => (hbs q hq).2)
    simp only [Block.content_map, Block.allBytes_map, List.map_map, Function.comp_def] at hsame hdecodes ⊢
    exact ⟨_, hsame, hdecodes⟩
  | map bs htext _ ih =>
    obtain ⟨bs, rfl, hbs⟩ := Block.exists_companions ih
    rw [Block.content_map] at htext
    have hsame := Value.same_puts_puts ((Block.content bs).map fun q => (q.1.1, q.2, q.1.2.1))
      (List.forall_mem_map.2 fun q hq => (hbs q hq).1)
    have hdecodes := Decodes.map (bs.map (Block.map fun q => (q.1.1, q.2, q.1.2.2)))
      (Block.forall_content_map.2 fun q hq => htext q.1 (List.mem_map_of_mem hq))
      (Block.forall_content_map.2 fun q hq => (hbs q hq).2)
    simp only [Block.content_map, Block.allBytes_map, List.map_map, Function.comp_def] at hsame hdecodes ⊢
    exact ⟨_, hsame, hdecodes⟩
  | @record parts entries hkeys hnames hentries _ ih =>
    obtain ⟨parts, rfl, hparts⟩ := exists_companions ih
    have hsame := Value.same_puts (parts.map fun q => (q.1.1.name, q.2, q.1.2.1)) hkeys
      (List.forall_mem_map.2 fun q hq => hentries q.1 (List.mem_map_of_mem hq))
      (by simpa [Function.comp_def] using hnames)
      (List.forall_mem_map.2 fun q hq => (hparts q hq).1)
    have hdecodes := Decodes.record (parts.map fun q => (q.1.1, q.2, q.1.2.2))
      (List.forall_mem_map.2 fun q hq => (hparts q hq).2)
    simp only [List.map_map, List.flatMap_map, Function.comp_def] at hsame hdecodes ⊢
    exact ⟨_, hsame, hdecodes⟩
  | union hi hlim _ ih =>
    obtain ⟨x', hsame, hdecodes⟩ := ih
    exact ⟨x', hsame, .union hi hlim hdecodes⟩
  | named hn _ ih =>
    obtain ⟨x', hsame, hdecodes⟩ := ih
    exact ⟨x', hsame, .named hn hdecodes⟩

theorem Decodes.countedItems (parts : List (Value × List UInt8)) (hlen : parts.length < limit)
    (h : ∀ q ∈ parts, Decodes env f q.2 q.1) :
    Decodes env (.array f) (counted parts.length (parts.flatMap (·.2))) (.list (parts.map (·.1))) := by
  have hdecodes : Decodes env _ _ _ := .array (Block.whole parts hlen) (by rwa [Block.content_whole])
  rwa [Block.content_whole, Block.allBytes_whole] at hdecodes

theorem Decodes.countedEntries (parts : List (String × Value × List UInt8)) (hlen : parts.length < limit)
    (htext : ∀ q ∈ parts, q.1.toUTF8.toList.length < limit) (h : ∀ q ∈ parts, Decodes env f q.2.2 q.2.1) :
    Decodes env (.map f) (counted parts.length (parts.flatMap fun q => Primitive.textOf q.1 ++ q.2.2))
      (.dict (Value.puts (parts.map fun q => (q.1, q.2.1)))) := by
  have hdecodes : Decodes env _ _ _ := .map (Block.whole parts hlen) (by rwa [Block.content_whole])
    (by rwa [Block.content_whole])
  rwa [Block.content_whole, Block.allBytes_whole] at hdecodes

end AvroCodec.Form
