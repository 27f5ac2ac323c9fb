import AvroCodec.Proofs.Sharing
import AvroCodec.Proofs.Untagged

/-!
# Codecs of unions

If the types of a union have codecs of their own, and their values can be told, then the union has a codec:
its code can be generated, and it can be compiled because the code of its types can.
-/

namespace AvroCodec

open Code Gen

/-! ### Compiling a union -/

namespace Code

variable {bs : List (Branch Encoder)} {b : Branch Encoder} {cs : List (Json × Decoder)} {functions : List String}
  {name : String}

theorem Encoder.le_branchWeights (hb : b ∈ bs) : b.plain.defaultWeight ≤ branchWeights bs := by
  induction bs with
  | nil => cases hb
  | cons c bs ih =>
    obtain ⟨tag, index, guard, tagged, plain⟩ := c
    rw [branchWeights]
    rcases List.mem_cons.1 hb with rfl | hb
    · exact (Nat.le_add_left _ _).trans (Nat.le_add_right _ _)
    · exact (ih hb).trans (Nat.le_add_left _ _)

theorem Decoder.isComplete_union {root index : String} {extended : Bool} (hne : cs ≠ [])
    (h : ∀ c ∈ cs, c.2.isComplete functions = true) :
    (Decoder.union (.of root) index extended cs).isComplete functions = true := by
  have hused : usedCases cs ⊆ assignedCases cs := by
    clear hne
    induction cs with
    | nil => exact List.Subset.refl _
    | cons c cs ih =>
      have hused := (Decoder.isComplete_iff.1 (h c List.mem_cons_self)).2
      refine List.append_subset.2 ⟨fun y hy => List.mem_append_left _ (hused (List.mem_cons_of_mem _ hy)), ?_⟩
      exact fun y hy => List.mem_append_right _ (ih (fun c hc => h c (List.mem_cons_of_mem _ hc)) hy)
  refine Decoder.isComplete_iff.2 ⟨?_, List.cons_subset.2 ⟨?_, hused⟩⟩
  · exact Bool.and_eq_true_iff.2 ⟨rfl, casesSound_iff.2 fun c hc => (Decoder.isComplete_iff.1 (h c hc)).1⟩
  · obtain ⟨c, cs, rfl⟩ := List.exists_cons_of_ne_nil hne
    exact List.mem_append_left _ ((Decoder.isComplete_iff.1 (h c List.mem_cons_self)).2 List.mem_cons_self)

end Code

/-! ### The order of branches -/

/-- Before a type, those are tried that stand before it in the union, and `null`. -/
theorem Gen.exists_split_inTrialOrder {union : List Json} {i : Nat} {d : Json} (hd : union[i]? = some d)
    (hfirst : ∀ u ∈ union.take i, u ≠ d ∧ u.same d = false) :
    ∃ front back, inTrialOrder union = front ++ (d, i) :: back ∧
      ∀ t ∈ front, t.1 ∈ union.take i ∨ t.1 = .str "null" ∧ .str "null" ∈ union ∧ d ≠ .str "null" := by
  obtain ⟨hi, hget⟩ := List.getElem?_eq_some_iff.1 hd
  have hposition : union.findIdx (fun u => u = d || u.same d) = i := by
    rw [List.findIdx_eq hi]
    refine ⟨by simp [hget], fun j hj => ?_⟩
    obtain ⟨hne, hsame⟩ := hfirst union[j] (List.mem_take_iff_getElem.2 ⟨j, by omega, rfl⟩)
    simp [hne, hsame]
  have hsplit : union = union.take i ++ d :: union.drop (i + 1) := by
    rw [← hget]
    simp
  unfold inTrialOrder
  by_cases hnull : d = .str "null"
  · subst hnull
    have hany : union.any (·.same (.str "null")) = true :=
      List.any_eq_true.2 ⟨_, List.mem_of_getElem? hd, Json.same_str_iff.2 rfl⟩
    simp only [hany, if_true, hposition]
    exact ⟨[], _, rfl, fun _ ht => absurd ht List.not_mem_nil⟩
  · have hkeep : (!d.same (.str "null")) = true := by
      rw [Bool.not_eq_true', ← Bool.not_eq_true, Json.same_str_iff]
      exact hnull
    have hfilter : union.filter (!·.same (.str "null")) = (union.take i).filter (!·.same (.str "null")) ++
        d :: (union.drop (i + 1)).filter (!·.same (.str "null")) := by
      conv_lhs => rw [hsplit]
      rw [List.filter_append, List.filter_cons, if_pos hkeep]
    dsimp only
    rw [hfilter, List.map_append, List.map_cons, hposition, ← List.append_assoc]
    refine ⟨_, _, rfl, fun t ht => ?_⟩
    rcases List.mem_append.1 ht with ht | ht
    · split_ifs at ht with hany
      · obtain ⟨u, hu, hsame⟩ := List.any_eq_true.1 hany
        cases Json.same_str_iff.1 hsame
        cases List.mem_singleton.1 ht
        exact .inr ⟨rfl, hu, hnull⟩
      · cases ht
    · obtain ⟨u, hu, rfl⟩ := List.mem_map.1 ht
      exact .inl (List.mem_filter.1 hu).1

theorem Gen.inTrialOrder_ne_nil {union : List Json} (h : union ≠ []) : inTrialOrder union ≠ [] := by
  obtain ⟨d, rest, rfl⟩ := List.exists_cons_of_ne_nil h
  have hfirst : (d :: rest)[0]? = some d := rfl
  obtain ⟨front, back, horder, -⟩ := exists_split_inTrialOrder hfirst fun _ hu => absurd hu List.not_mem_nil
  rw [horder]
  exact List.append_ne_nil_of_right_ne_nil front (List.cons_ne_nil _ back)

/-! ### Telling the values of a union -/

namespace Store

/-- A union for whose types there are guards that can be compiled. -/
structure Tells (store : Store) (union : List Json) : Prop where
  nonempty : union ≠ []
  nature : ∀ d ∈ union, (store.nature? d).isSome
  tag : ∀ d ∈ union, ∀ tag ∈ (tagOf d).toOption, isLiteral '\'' tag.pasted = true
  arrays : (union.filter isArrayType).length ≤ 1

instance (store : Store) (union : List Json) : Decidable (store.Tells union) :=
  decidable_of_iff (union ≠ [] ∧ (∀ d ∈ union, (store.nature? d).isSome) ∧
      (∀ d ∈ union, ∀ tag ∈ (tagOf d).toOption, isLiteral '\'' tag.pasted = true) ∧
      (union.filter isArrayType).length ≤ 1)
    ⟨fun ⟨h₁, h₂, h₃, h₄⟩ => ⟨h₁, h₂, h₃, h₄⟩, fun h => ⟨h.nonempty, h.nature, h.tag, h.arrays⟩⟩

variable {store : Store} {union : List Json} {d : Json}

theorem Tells.exists_nature (h : store.Tells union) (hd : d ∈ union) : ∃ n, store.nature? d = some n :=
  Option.isSome_iff_exists.1 (h.nature d hd)

theorem Tells.exists_tag (h : store.Tells union) (hd : d ∈ union) :
    ∃ tag, tagOf d = .ok tag ∧ isLiteral '\'' tag.pasted = true := by
  obtain ⟨n, hn⟩ := h.exists_nature hd
  obtain ⟨tag, htag⟩ : ∃ tag, tagOf d = .ok tag := by
    cases d with
    | str name => exact ⟨_, rfl⟩
    | obj members => exact ⟨_, rfl⟩
    | _ => cases hn
  refine ⟨tag, htag, h.tag d hd tag ?_⟩
  rw [htag]
  rfl

end Store

/-! ### Codecs of types -/

theorem Store.guards_of_guardOf {schemata : Schemata} {store : Store} {g g' : Schema.Registry}
    (h : Store.build schemata g = (.ok store, g')) (hc : store.Consistent) {extended : Bool} {name : String} {d : Json}
    {n : Nature} {k : Guard} {s t : Generator} (hname : store.contains name = true) (hn : store.nature? d = some n)
    (hrun : guardOf d ⟨store, extended⟩ s = (.ok k, t)) : n.Guards k := by
  have hfits := fits_start hname (fun _ => True) []
  obtain ⟨k', t', hrun', -, hguards⟩ := exists_guardIn h hc hn (.refl d) hfits
  have heq : k = k' := Gen.pairs_guardIn h hc _ (.refl d) hrun hrun'
  exact heq ▸ hguards

namespace Codec

variable {schemata : Schemata} {identifier : String} {codec : Codec} {store : Store}
  {registry : Schema.Registry} {d : Json} {handled : List String}

theorem generate_eq_ok_iff {r : Routine} :
    generate store registry identifier = .ok r ↔ ∃ handled, store.Runs false registry identifier r handled := by
  constructor
  · intro h
    obtain ⟨x, registry', t, hx, hrun⟩ := exists_routine_of_generate h
    exact ⟨t.handled, x, registry', t, hx, hrun, rfl⟩
  · rintro ⟨handled, x, registry', t, hx, hrun, rfl⟩
    have hload : Gen.withRegistry (store.load identifier identifier) ⟨store, false⟩ (.new identifier registry) =
        (.ok x, .new identifier registry') := by
      rw [Parallel.withRegistry_run]
      simp only [Generator.new, hx]
    have hrec : Gen.recursionFor x ⟨store, false⟩ (.new identifier registry') =
        (.ok (.upTo (Generator.reach store x)), .new identifier registry') := rfl
    have hall : (do
        let x ← Gen.withRegistry (store.load identifier identifier)
        Gen.routine (← Gen.recursionFor x) x : Gen Routine) ⟨store, false⟩ (.new identifier registry) = (.ok r, t) :=
      Gen.bind_eq_ok.2 ⟨x, _, hload, Gen.bind_eq_ok.2 ⟨.upTo (Generator.reach store x), _, hrec, hrun⟩⟩
    exact congrArg Prod.fst hall

/-- What is known of a codec: the schema that it was made for, the recursive types that have been met, and that its
code was generated. -/
structure Origin (store : Store) (registry : Schema.Registry) (identifier : String) (codec : Codec) (d : Json)
    (handled : List String) : Prop where
  lookup : Json.lookup identifier store.database = some d
  writer : Setting.Encodes ⟨store, false⟩ (· ∈ handled) d (.of "data") codec.routine.writer
  reader : Setting.Decodes ⟨store, false⟩ (· ∈ handled) d (.of "data") codec.routine.reader
  coded : store.Coded false (· ∈ handled) identifier codec.routine
  tabled : store.Tabled false [] handled codec.routine.functions
  runs : store.Runs false registry identifier codec.routine handled

theorem Origin.contains (ho : Origin store registry identifier codec d handled) : store.contains identifier = true :=
  Store.contains_of_lookup ho.lookup

section Build

variable (hstore : Store.build schemata [] = (.ok store, registry)) (hc : store.Consistent)
include hstore hc

theorem exists_origin_of_runs {r : Routine} (hruns : store.Runs false registry identifier r handled) :
    ∃ d, Origin store registry identifier ⟨r⟩ d handled := by
  have hruns' := hruns
  obtain ⟨x, registry', t, hx, hrun, rfl⟩ := hruns
  obtain ⟨htabled, -, hcoded⟩ := Store.coded_of_routine hstore hrun rfl rfl
  have hcoded := hcoded ⟨identifier, _, _, hx⟩
  obtain ⟨d, hd, hwriter, hreader⟩ := hcoded.exists_definition hstore hc
  exact ⟨d, hd, hwriter, hreader, hcoded, htabled, hruns'⟩

theorem exists_origin (hbuild : build schemata identifier = .ok codec) :
    ∃ d handled, Origin store registry identifier codec d handled := by
  obtain ⟨handled, hruns⟩ := generate_eq_ok_iff.1 (build_eq_ok hstore hbuild).1
  obtain ⟨d, horigin⟩ := exists_origin_of_runs hstore hc hruns
  exact ⟨d, handled, horigin⟩

end Build

/-- A codec of a type that is taken alone. -/
def IsAlone (schemata : Schemata) (store : Store) (d : Json) (codec : Codec) : Prop :=
  ∃ identifier d', Json.lookup identifier store.database = some d' ∧ d'.Alike d ∧ build schemata identifier = .ok codec

/-- A recursive type that has been met for some codec. -/
def Meets (schemata : Schemata) (store : Store) (name : String) : Prop :=
  ∃ identifier codec handled, build schemata identifier = .ok codec ∧
    store.Tabled false [] handled codec.routine.functions ∧ name ∈ handled

section Union

variable (hstore : Store.build schemata [] = (.ok store, registry)) (hc : store.Consistent) {functions : List String}
  {known : String → Prop}
include hstore hc

theorem IsAlone.exists_origin (h : IsAlone schemata store d codec) : ∃ identifier d' handled,
    Origin store registry identifier codec d' handled ∧ d'.Alike d ∧ build schemata identifier = .ok codec := by
  obtain ⟨identifier, d', hd, halike, hbuild⟩ := h
  obtain ⟨d'', handled, horigin⟩ := Codec.exists_origin hstore hc hbuild
  cases hd.symm.trans horigin.lookup
  exact ⟨identifier, d', handled, horigin, halike, hbuild⟩

theorem IsAlone.isSound_of_encodes (hown : IsAlone schemata store d codec) {x : String} {a : Encoder}
    (ha : Setting.Encodes ⟨store, false⟩ known d (.of x) a)
    (hcalls : ∀ name ∈ a.calls, functionSuffix name ∈ functions) : a.isSound functions = true := by
  obtain ⟨_, d', _, ho, halike, hbuild⟩ := hown.exists_origin hstore hc
  have hcompiles := (build_eq_ok hstore hbuild).2
  simp only [Routine.compiles, Routine.isSound, Bool.and_eq_true] at hcompiles
  exact Store.isSound_of_encodes hstore hc ho.writer ha halike hcompiles.1.1 hcalls

theorem IsAlone.isComplete_of_decodes (hown : IsAlone schemata store d codec) {a : Decoder}
    (ha : Setting.Decodes ⟨store, false⟩ known d (.of "data") a)
    (hcalls : ∀ name ∈ a.calls, functionSuffix name ∈ functions) : a.isComplete functions = true := by
  obtain ⟨_, d', _, ho, halike, hbuild⟩ := hown.exists_origin hstore hc
  have hcompiles := (build_eq_ok hstore hbuild).2
  simp only [Routine.compiles, Routine.isSound, Bool.and_eq_true] at hcompiles
  exact Store.isComplete_of_decodes hstore hc ho.reader ha halike hcompiles.1.2 hcalls

theorem knowable_meets : store.Knowable false (Meets schemata store) := by
  refine Store.knowable_of_tabled hstore hc fun name hname => ?_
  obtain ⟨identifier, codec, handled, hbuild, htabled, hmem⟩ := hname
  exact ⟨handled, _, htabled, hmem, fun a ha => ⟨identifier, codec, handled, hbuild, htabled, ha⟩⟩

theorem Origin.isSound_of_meets (ho : Origin store registry identifier codec d handled)
    (hmeets : ∀ name ∈ handled, Meets schemata store name) :
    ∀ f ∈ codec.routine.functions, f.2.isSound (codec.routine.functions.map (·.1)) = true := by
  intro f hf
  obtain ⟨name, hname, -, hcoded⟩ := ho.tabled.coded f hf
  obtain ⟨_, other, handled', hbuild, htabled, hmem⟩ := hmeets name hname
  rcases htabled.made name hmem with hpending | ⟨r, hr, hcoded'⟩
  · cases hpending
  · have hcompiles := (build_eq_ok hstore hbuild).2
    simp only [Routine.compiles, Bool.and_eq_true] at hcompiles
    exact hcoded'.isSound hstore hc hcoded (List.all_eq_true.1 hcompiles.2 _ hr)
      fun a ha => ho.tabled.functionSuffix_mem ha

variable {union : List Json} (h : store.Tells union)
  (halone : ∀ d ∈ union, ∃ codec, IsAlone schemata store d codec)
include h halone

theorem Origin.isSound_writer (ho : Origin store registry identifier codec (.arr union) handled) :
    codec.routine.writer.isSound (codec.routine.functions.map (·.1)) = true := by
  obtain ⟨tag, data, bs, hwriter, hbranches⟩ := Store.exists_branches_of_encodes hstore ho.writer
  have hcalls : ∀ b ∈ bs, ∀ name, name ∈ b.tagged.calls ∨ name ∈ b.plain.calls →
      functionSuffix name ∈ codec.routine.functions.map (·.1) := by
    intro b hb name hname
    refine ho.tabled.functionSuffix_mem (ho.coded.writer name ?_)
    rw [hwriter]
    exact Encoder.mem_callsBranches.2 ⟨b, hb, hname⟩
  have hbs : ∀ b ∈ bs, isLiteral '\'' b.tag = true ∧ b.guard.isSound = true ∧
      b.tagged.isSound (codec.routine.functions.map (·.1)) = true ∧
      b.plain.isSound (codec.routine.functions.map (·.1)) = true := by
    intro b hb
    obtain ⟨type, htype, hbranch⟩ := exists_mem_of_forall₂ hbranches hb
    have hmem := Parallel.mem_of_inTrialOrder htype
    obtain ⟨own, hown⟩ := halone _ hmem
    refine ⟨?_, ?_, ?_, ?_⟩
    · obtain ⟨name, hname, hpasted⟩ := hbranch.tag
      obtain ⟨name', hname', hliteral⟩ := h.exists_tag hmem
      cases hname.symm.trans hname'
      rw [hpasted]
      exact hliteral
    · obtain ⟨n, hn⟩ := h.exists_nature hmem
      obtain ⟨s, t, hguard⟩ := hbranch.guard
      exact (Store.guards_of_guardOf hstore hc ho.contains hn hguard).sound
    · exact hown.isSound_of_encodes hstore hc hbranch.tagged fun name hname => hcalls b hb name (.inl hname)
    · rcases hbranch.plain with ⟨-, hnull⟩ | hplain
      · rw [hnull]
        rfl
      · exact hown.isSound_of_encodes hstore hc hplain fun name hname => hcalls b hb name (.inr hname)
  have hne : bs ≠ [] := by
    rintro rfl
    exact inTrialOrder_ne_nil h.nonempty (List.forall₂_nil_right_iff.1 hbranches)
  rw [hwriter, Encoder.isSound, Encoder.branchesSound_iff.2 hbs, List.isEmpty_eq_false_iff.2 hne]
  rfl

theorem Origin.isComplete_reader (ho : Origin store registry identifier codec (.arr union) handled) :
    codec.routine.reader.isComplete (codec.routine.functions.map (·.1)) = true := by
  obtain ⟨index, cs, hreader, hcases⟩ := Store.exists_cases_of_decodes hstore ho.reader
  have hcalls := ho.coded.reader
  rw [hreader] at hcalls ⊢
  refine Decoder.isComplete_union ?_ fun c hcase => ?_
  · rintro rfl
    exact h.nonempty (List.forall₂_nil_right_iff.1 hcases)
  · obtain ⟨type, htype, hdecodes⟩ := exists_mem_of_forall₂ hcases hcase
    obtain ⟨own, hown⟩ := halone _ htype
    exact hown.isComplete_of_decodes hstore hc hdecodes fun name hname =>
      ho.tabled.functionSuffix_mem (hcalls name (Decoder.mem_callsCases.2 ⟨c, hcase, hname⟩))

/-- A union of types that have codecs of their own has a codec. -/
theorem exists_union (hunion : Json.lookup identifier store.database = some (.arr union)) :
    ∃ codec, build schemata identifier = .ok codec := by
  have hmade : ∀ d ∈ union, ∀ mode, ∃ n, store.MadeIn false (Meets schemata store) mode n d := by
    intro d hd mode
    obtain ⟨own, hown⟩ := halone d hd
    obtain ⟨name, d', handled, ho, halike, hbuild⟩ := hown.exists_origin hstore hc
    obtain ⟨n, hmade⟩ := Store.exists_madeIn ho.writer ho.reader mode
    exact ⟨n, (hmade.alike halike).imp fun a ha => ⟨name, own, handled, hbuild, ho.tabled, ha⟩⟩
  obtain ⟨r, handled, hruns, hmeets⟩ := Store.exists_union_routine hstore hc (knowable_meets hstore hc) hunion hmade
    (fun d hd => h.exists_nature hd) (fun d hd => (h.exists_tag hd).imp fun _ htag => htag.1) h.arrays registry
  obtain ⟨d, ho⟩ := exists_origin_of_runs hstore hc hruns
  cases hunion.symm.trans ho.lookup
  have hcompiles : r.compiles = true := by
    simp only [Routine.compiles, Routine.isSound, Bool.and_eq_true]
    exact ⟨⟨ho.isSound_writer hstore hc h halone, ho.isComplete_reader hstore hc h halone⟩,
      List.all_eq_true.2 (ho.isSound_of_meets hstore hc hmeets)⟩
  refine ⟨⟨r⟩, ?_⟩
  rw [build, hstore]
  simp only [generate_eq_ok_iff.2 ⟨handled, hruns⟩]
  rw [if_pos hcompiles]

end Union

end Codec

end AvroCodec
