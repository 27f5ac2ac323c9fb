import AvroCodec.Proofs.Hygiene
import AvroCodec.Proofs.Writing

/-!
# Round trips

A codec writes the values of its schema by their encodings, and reads these back whatever follows them.
-/

namespace AvroCodec

open Code Form

namespace Codec

variable {codec : Codec} {env : String → Option Form} {known : String → Prop} {f : Form} {v : Value}
  {bytes : List UInt8}

theorem calls_le_writeBound (r : Routine) (v : Value) (f : Form) : f.calls v ≤ r.writeBound v := by
  have hcalls := calls_le v f
  simp only [Routine.writeBound]
  generalize r.functions.foldr (fun f n => f.2.writer.defaultWeight + n) r.writer.defaultWeight = weight
  have hmul : max v.depth weight + weight + 2 ≤ (r.functions.length + 1) * (max v.depth weight + weight + 2) :=
    Nat.le_mul_of_pos_left _ (Nat.succ_pos _)
  omega

theorem length_lt_readBound (r : Routine) (bytes : List UInt8) :
    bytes.length + 1 ≤ r.readBound bytes := by
  unfold Routine.readBound
  have hmul : bytes.length + 1 ≤ (bytes.length + 1) * (r.functions.length + 1) :=
    Nat.le_mul_of_pos_right _ (Nat.succ_pos _)
  omega

/-- A value is written by its encoding and stays as it is. -/
theorem Implements.serialize_eq (h : codec.Implements env known f) (hdistinct : Form.Distinct env f)
    (hv : Form.Encodes env f v bytes) : codec.serialize v = ⟨v, .ok bytes⟩ := by
  have hwrites : codec.routine.writer.Writes ⟨codec.routine.typedTags,
      Routine.writeCall codec.routine.functions (codec.routine.writeBound v)⟩ v bytes :=
    hv.writes h.writes hdistinct .self h.writer rfl (calls_le_writeBound codec.routine v f)
  obtain ⟨body, hrun, hemits⟩ := hwrites
  simp only [serialize, hrun, Encoder.kept_self, Except.map, hemits.outputAfter, List.nil_append]

/-- What bytes stand for is read from them, whatever follows. -/
theorem Implements.reads_of_decodes (h : codec.Implements env known f)
    (hv : Form.Decodes env f bytes v) : Reads codec.deserializeFrom bytes v := by
  obtain ⟨V, hV, hreader⟩ := h.reader
  intro rest
  refine Decoder.apply_eq_ok (hv.readBack h.reads rest true V _ _ _ hreader (Place.clear_of hV) ?_)
  have hbound := length_lt_readBound codec.routine (bytes ++ rest)
  rw [List.length_append] at hbound
  rw [Bool.toNat_true]
  omega

variable {schemata : Schemata} {identifier : String} {store : Store}
  {registry : Schema.Registry}

/-- Every value of a schema without recursive names is written, and read back. -/
theorem exists_serialized_and_read (hstore : Store.build schemata [] = (.ok store, registry))
    (hsingle : ∀ name, store.Involves identifier name → Schema.Single schemata name)
    (hbuild : build schemata identifier = .ok codec)
    (hf : store.form? identifier = some f) (hformat : store.Format (fun _ => False) f)
    (hdistinct : f.Distinct store.form?) (hv : f.Conforms store.form? v) :
    ∃ bytes v', (codec.execute v).result = .ok bytes ∧ Value.Same v' v ∧
      ∀ rest, codec.deserializeFrom (bytes ++ rest) = .ok (v', rest) := by
  obtain ⟨known, himpl⟩ := implements_of_build hstore hbuild hsingle hf hformat (fun _ _ h => h.elim)
  obtain ⟨bytes, henc⟩ := hv.exists_encodes
  obtain ⟨v', hsame, hdecodes⟩ := henc.spells.exists_decodes
  refine ⟨bytes, v', ?_, hsame, himpl.reads_of_decodes hdecodes⟩
  rw [execute_eq_serialize hbuild, himpl.serialize_eq hdistinct henc]

/-- An order refers to its size by a short name, and holds a map and a union. -/
def orderSchemata : Schemata :=
  [("shop.size", .obj [("type", .str "enum"), ("name", .str "shop.size"),
      ("symbols", .arr [.str "S", .str "M"])]),
    ("shop.order", .obj [("type", .str "record"), ("name", .str "order"), ("namespace", .str "shop"),
      ("fields", .arr [.field "size" (.str "size"),
      .field "counts" (.obj [("type", .str "map"), ("values", .str "long")]),
      .field "note" (.arr [.str "null", .str "string"])])])]

def orderFields : List (Field Form) :=
  [⟨"size", none, .named "shop.size"⟩, ⟨"counts", none, .map (.basic "long")⟩,
    ⟨"note", none, .union [.null, .basic "string"]⟩]

def orderParts : List (Bool × Form) :=
  [(true, .record orderFields), (false, .named "shop.size"), (false, .enum ["S", "M"]),
    (false, .map (.basic "long")), (true, .basic "long"), (false, .union [.null, .basic "string"]),
    (true, .null), (true, .basic "string")]

def order : Value :=
  .dict [("note", .str "red"), ("size", .str "M"), ("counts", .dict [("a", .int (-5)), ("b", .int 300)])]

theorem order_conforms (hsize : env "shop.size" = some (.enum ["S", "M"])) :
    (record orderFields).Conforms env order := by
  refine .record (by decide) (fun key => by simp [orderFields]; tauto) ?_
  intro field hfield x hx
  simp only [orderFields, List.mem_cons, List.not_mem_nil, or_false] at hfield
  rcases hfield with rfl | rfl | rfl
  · obtain rfl : x = .str "M" := by simpa using hx
    exact .named hsize (.enum (by decide) (by decide))
  · obtain rfl : x = .dict [("a", .int (-5)), ("b", .int 300)] := by simpa using hx
    refine .map (by decide) (by decide) (by decide +kernel) ?_
    intro e he
    rcases List.mem_pair.1 he with rfl | rfl <;> exact .basic (.long (by decide) (by decide))
  · obtain rfl : x = .str "red" := by simpa using hx
    exact .union (i := 1) rfl (by decide) (.basic (.string (by decide +kernel)))

theorem order_serialized_and_read : ∃ codec, build orderSchemata "shop.order" = .ok codec ∧
    ∃ bytes v', (codec.execute order).result = .ok bytes ∧ Value.Same v' order ∧
      ∀ rest, codec.deserializeFrom (bytes ++ rest) = .ok (v', rest) := by
  obtain ⟨codec, hbuild⟩ := exists_ok (x := build orderSchemata "shop.order") (by decide +kernel)
  obtain ⟨store, registry, hstore, hform, hsize, hinner, hallows, htells⟩ :=
    exists_store orderSchemata
    (fun store => store.form? "shop.order" = some (.record orderFields) ∧
      store.form? "shop.size" = some (.enum ["S", "M"]) ∧
      (∀ q ∈ orderParts, ∀ q' ∈ inner store.form? q, q' ∈ orderParts) ∧
      (∀ q ∈ orderParts, store.allows (fun _ => False) q = true) ∧
      ∀ q ∈ orderParts, q.2.tells store.form? 1 = true) (by decide +kernel)
  have hsingle : ∀ name, Schema.Single orderSchemata name :=
    Schema.single_of_table (Schema.derivedIn 2 orderSchemata) (by decide +kernel) (by decide +kernel)
      (by decide +kernel)
  exact ⟨codec, hbuild, exists_serialized_and_read hstore (fun name _ => hsingle name) hbuild hform
    (Store.format_of_parts orderParts List.mem_cons_self hinner hallows)
    (distinct_of_parts 1 orderParts List.mem_cons_self hinner htells) (order_conforms hsize)⟩

/-- A tree of a recursive record is written by the encodings of its fields, those of its subtrees in
their places, and read back. -/
theorem exists_tree_serialized_and_read {tree : String} {fields : List (Field Form)}
    (hstore : Store.build schemata [] = (.ok store, registry))
    (hsingle : ∀ name, store.Involves tree name → Schema.Single schemata name)
    (hbuild : build schemata tree = .ok codec) (htree : store.form? tree = some (.record fields))
    (hformat : store.Format (· = tree) (.record fields))
    (hdistinct : (record fields).Distinct store.form?)
    (hv : (record fields).Conforms store.form? v) :
    (∀ bytes, (codec.execute v).result = .ok bytes ↔
      (record fields).Encodes store.form? v bytes) ∧
    ∃ bytes v', (codec.execute v).result = .ok bytes ∧ Value.Same v' v ∧
      ∀ rest, codec.deserializeFrom (bytes ++ rest) = .ok (v', rest) := by
  obtain ⟨known, himpl⟩ := implements_of_build hstore hbuild hsingle htree hformat
    (fun a b ha hb _ => ha.trans hb.symm)
  obtain ⟨bytes, henc⟩ := hv.exists_encodes
  obtain ⟨v', hsame, hdecodes⟩ := henc.spells.exists_decodes
  rw [execute_eq_serialize hbuild]
  refine ⟨fun bytes' => ⟨fun h => ?_, fun h => by rw [himpl.serialize_eq hdistinct h]⟩,
    bytes, v', by rw [himpl.serialize_eq hdistinct henc], hsame, himpl.reads_of_decodes hdecodes⟩
  rw [himpl.serialize_eq hdistinct henc] at h
  exact Except.ok.inj h ▸ henc

/-- A tree has a number at each node and up to two subtrees, given by the short name and by the full one. -/
def treeSchemata : Schemata :=
  [("plant.tree", .obj [("type", .str "record"), ("name", .str "tree"), ("namespace", .str "plant"), ("fields", .arr [
      .field "left" (.arr [.str "null", .str "tree"]),
      .field "age" (.str "int"),
      .field "right" (.arr [.str "null", .str "plant.tree"])])])]

def treeFields : List (Field Form) :=
  [⟨"left", none, .union [.null, .named "plant.tree"]⟩, ⟨"age", none, .basic "int"⟩,
    ⟨"right", none, .union [.null, .named "plant.tree"]⟩]

def treeParts : List (Bool × Form) :=
  [(true, .record treeFields), (false, .union [.null, .named "plant.tree"]), (false, .basic "int"),
    (true, .null), (true, .named "plant.tree")]

def node (left : Value) (age : Int) (right : Value) : Value :=
  .dict [("left", left), ("age", .int age), ("right", right)]

theorem node_conforms {left right : Value} {age : Int}
    (hleft : (union [.null, .named "plant.tree"]).Conforms env left) (hage : Primitive.Holds "int" (.int age))
    (hright : (union [.null, .named "plant.tree"]).Conforms env right) :
    (record treeFields).Conforms env (node left age right) := by
  refine .record (by simp) (fun key => by simp [treeFields]) ?_
  intro field hfield x hx
  simp only [treeFields, List.mem_cons, List.not_mem_nil, or_false] at hfield
  rcases hfield with rfl | rfl | rfl
  · obtain rfl : x = left := by simpa using hx
    exact hleft
  · obtain rfl : x = .int age := by simpa using hx
    exact .basic hage
  · obtain rfl : x = right := by simpa using hx
    exact hright

def tree : Value := node (node .null 1 (node .null 2 .null)) (-3) (node .null 400 .null)

theorem tree_conforms (henv : env "plant.tree" = some (.record treeFields)) :
    (record treeFields).Conforms env tree := by
  have hnone : (union [.null, .named "plant.tree"]).Conforms env .null :=
    .union (i := 0) rfl (by decide) .null
  have hsome : ∀ {v : Value}, (record treeFields).Conforms env v →
      (union [.null, .named "plant.tree"]).Conforms env v :=
    fun h => .union (i := 1) rfl (by decide) (.named henv h)
  have hleaf : ∀ {n : Int}, Primitive.Holds "int" (.int n) →
      (record treeFields).Conforms env (node .null n .null) :=
    fun h => node_conforms hnone h hnone
  refine node_conforms (hsome (node_conforms hnone (.int (by decide) (by decide)) ?_))
    (.int (by decide) (by decide)) (hsome (hleaf (.int (by decide) (by decide))))
  exact hsome (hleaf (.int (by decide) (by decide)))

theorem tree_serialized_and_read : ∃ codec store registry, build treeSchemata "plant.tree" = .ok codec ∧
    Store.build treeSchemata [] = (.ok store, registry) ∧
    (∀ bytes, (codec.execute tree).result = .ok bytes ↔
      (record treeFields).Encodes store.form? tree bytes) ∧
    ∃ bytes v', (codec.execute tree).result = .ok bytes ∧ Value.Same v' tree ∧
      ∀ rest, codec.deserializeFrom (bytes ++ rest) = .ok (v', rest) := by
  obtain ⟨codec, hbuild⟩ := exists_ok (x := build treeSchemata "plant.tree") (by decide +kernel)
  obtain ⟨store, registry, hstore, hform, hinner, hallows, htells⟩ :=
    exists_store treeSchemata
    (fun store => store.form? "plant.tree" = some (.record treeFields) ∧
      (∀ q ∈ treeParts, ∀ q' ∈ inner store.form? q, q' ∈ treeParts) ∧
      (∀ q ∈ treeParts, store.allows (· = "plant.tree") q = true) ∧
      ∀ q ∈ treeParts, q.2.tells store.form? 1 = true) (by decide +kernel)
  have hsingle : ∀ name, Schema.Single treeSchemata name :=
    Schema.single_of_table (Schema.derivedIn 2 treeSchemata) (by decide +kernel) (by decide +kernel)
      (by decide +kernel)
  exact ⟨codec, store, registry, hbuild, hstore, exists_tree_serialized_and_read hstore
    (fun name _ => hsingle name) hbuild hform (Store.format_of_parts treeParts List.mem_cons_self hinner hallows)
    (distinct_of_parts 1 treeParts List.mem_cons_self hinner htells) (tree_conforms hform)⟩

end Codec

end AvroCodec
