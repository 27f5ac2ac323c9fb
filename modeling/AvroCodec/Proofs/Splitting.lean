import AvroCodec.Proofs.RoundTrip

/-!
# Reading parts in blocks

What an array or a map is read as does not depend on the blocks that its parts stand in. The items of all
blocks make one list, and the entries of all blocks are put into one dictionary. The same holds for the
arrays and maps inside them.
-/

namespace AvroCodec

open Varint

theorem Value.Same.eq_int {x : Value} {n : Int} (h : Value.Same x (.int n)) : x = .int n := by
  generalize hy : Value.int n = y at h
  cases h with
  | refl => rfl
  | list => cases hy
  | dict => cases hy

namespace Codec

variable {codec : Codec} {schemata : Schemata} {identifier : String} {store : Store}
  {registry : Schema.Registry} {f : Form}

/-- Parts in any blocks are read to the concatenation of the blocks, or to the dictionary that they fill
one after the other. -/
theorem exists_read_of_blocks (hstore : Store.build schemata [] = (.ok store, registry))
    (hsingle : ∀ name, store.Involves identifier name → Schema.Single schemata name)
    (hbuild : build schemata identifier = .ok codec)
    (hformat : store.Format (fun _ => False) f) :
    (store.form? identifier = some (.array f) → ∀ bs : List (Block (Value × List UInt8)),
      (∀ q ∈ Block.content bs, f.Spells store.form? q.1 q.2) →
      ∃ items, List.Forall₂ Value.Same items ((Block.content bs).map (·.1)) ∧
        ∀ rest, codec.deserializeFrom (Block.allBytes (·.2) bs ++ rest) = .ok (.list items, rest)) ∧
    (store.form? identifier = some (.map f) → ∀ bs : List (Block (String × Value × List UInt8)),
      (∀ q ∈ Block.content bs, q.1.toUTF8.toList.length < limit) →
      (∀ q ∈ Block.content bs, f.Spells store.form? q.2.1 q.2.2) →
      ∃ entries, List.Forall₂ (fun e q => e.1 = q.1 ∧ Value.Same e.2 q.2.1) entries (Block.content bs) ∧
        ∀ rest, codec.deserializeFrom (Block.allBytes (fun q => Primitive.textOf q.1 ++ q.2.2) bs ++ rest) =
          .ok (.dict (Value.puts entries), rest)) := by
  constructor
  · intro hf bs hspells
    obtain ⟨known, himpl⟩ := implements_of_build hstore hbuild hsingle hf
      hformat.array (fun _ _ h => h.elim)
    obtain ⟨bs, rfl, hbs⟩ := Block.exists_companions fun q hq => (hspells q hq).exists_decodes
    have hdecodes := Form.Decodes.array (bs.map (Block.map fun q => (q.2, q.1.2)))
      (Block.forall_content_map.2 fun q hq => (hbs q hq).2)
    have hreads := himpl.reads_of_decodes hdecodes
    simp only [Block.content_map, Block.allBytes_map, List.map_map, Function.comp_def] at hreads ⊢
    exact ⟨_, List.forall₂_map_left_iff.2 (List.forall₂_map_right_iff.2
      (List.forall₂_same.2 fun q hq => (hbs q hq).1)), hreads⟩
  · intro hf bs htext hspells
    obtain ⟨known, himpl⟩ := implements_of_build hstore hbuild hsingle hf
      hformat.map (fun _ _ h => h.elim)
    obtain ⟨bs, rfl, hbs⟩ := Block.exists_companions fun q hq => (hspells q hq).exists_decodes
    rw [Block.content_map] at htext
    have hdecodes := Form.Decodes.map (bs.map (Block.map fun q => (q.1.1, q.2, q.1.2.2)))
      (Block.forall_content_map.2 fun q hq => htext q.1 (List.mem_map_of_mem hq))
      (Block.forall_content_map.2 fun q hq => (hbs q hq).2)
    have hreads := himpl.reads_of_decodes hdecodes
    simp only [Block.content_map, Block.allBytes_map, List.map_map, Function.comp_def] at hreads ⊢
    exact ⟨_, List.forall₂_map_left_iff.2 (List.forall₂_map_right_iff.2
      (List.forall₂_same.2 fun q hq => ⟨rfl, (hbs q hq).1⟩)), hreads⟩

def stockSchemata : Schemata :=
  [("shop.stock", .obj [("type", .str "map"), ("values", .str "long")])]

theorem two_lt_limit : 2 < limit := by decide

theorem zigzag_eight_lt : ∀ n ∈ some (8 : Int), zigzag n < modulus :=
  fun _ h => Option.some.inj h ▸ by decide

def stockBlocks : List (Block (String × Value × List UInt8)) :=
  [⟨[("pears", .int 5, bytesOf 5), ("figs", .int (-1), bytesOf (-1))], none,
      List.cons_ne_nil _ _, two_lt_limit, Block.none_fits⟩,
    ⟨[("pears", .int 300, bytesOf 300)], some 8, List.cons_ne_nil _ _,
      Nat.lt_of_succ_lt two_lt_limit, zigzag_eight_lt⟩]

theorem stock_read_of_blocks : ∃ codec, build stockSchemata "shop.stock" = .ok codec ∧
    ∀ rest, codec.deserializeFrom
        (Block.allBytes (fun q => Primitive.textOf q.1 ++ q.2.2) stockBlocks ++ rest) =
      .ok (.dict [("pears", .int 300), ("figs", .int (-1))], rest) := by
  obtain ⟨codec, hbuild⟩ := exists_ok (x := build stockSchemata "shop.stock") (by decide +kernel)
  obtain ⟨store, registry, hstore, hform, hallows⟩ := exists_store stockSchemata
    (fun store => store.form? "shop.stock" = some (.map (.basic "long")) ∧
      ∀ q ∈ [(true, Form.basic "long")], store.allows (fun _ => False) q = true) (by decide +kernel)
  have hsingle : ∀ name, Schema.Single stockSchemata name :=
    Schema.single_of_table (Schema.derivedIn 2 stockSchemata) (by decide +kernel) (by decide +kernel)
      (by decide +kernel)
  have hformat : store.Format (fun _ => False) (.basic "long") :=
    Store.format_of_parts [(true, .basic "long")] List.mem_cons_self (by simp [Form.inner]) hallows
  have hlong : ∀ n : Int, -(limit : Int) ≤ n → n < limit →
      (Form.basic "long").Spells store.form? (.int n) (bytesOf n) := fun n hlo hhi =>
    .basic (.long hlo hhi) ⟨Primitive.writeInt_int hlo hhi, fun _ => Primitive.readInt_bytesOf hlo hhi⟩
  obtain ⟨entries, hentries, hread⟩ := (exists_read_of_blocks hstore (fun name _ => hsingle name) hbuild
    hformat).2 hform stockBlocks (by decide +kernel) (by
      simp only [Block.content, stockBlocks, List.flatMap_cons, List.flatMap_nil, List.cons_append,
        List.nil_append, List.forall_mem_cons]
      exact ⟨hlong _ (by decide) (by decide), hlong _ (by decide) (by decide),
        hlong _ (by decide) (by decide), by simp⟩)
  have hcontent : Block.content stockBlocks = [("pears", .int 5, bytesOf 5),
      ("figs", .int (-1), bytesOf (-1)), ("pears", .int 300, bytesOf 300)] := rfl
  have hentry : ∀ {e : String × Value} {key : String} {n : Int},
      e.1 = key ∧ Value.Same e.2 (.int n) → e = (key, .int n) := fun h => Prod.ext h.1 h.2.eq_int
  rw [hcontent] at hentries
  obtain _ | ⟨hpears, _ | ⟨hfigs, _ | ⟨hagain, _ | _⟩⟩⟩ := hentries
  rw [hentry hpears, hentry hfigs, hentry hagain] at hread
  exact ⟨codec, hbuild, hread⟩

end Codec

end AvroCodec
