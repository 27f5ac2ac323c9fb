import AvroCodec.Proofs.Unions

/-!
# Dispatch over the types of a union

The guards of a union are tried in the order of its types, `null` first. A value goes to the first type that
claims it. If it is by nature a value of that type, then the union writes the position of the type, and then
what a codec of that type alone writes. If no type claims the value, then nothing is written at all.
-/

namespace AvroCodec

open Code Gen Routine Encoder

/-! ### The branch that is chosen -/

namespace Code.Encoder

variable {s : WriteScope} {subject : Subject} {v : Value} {front rest : List (Branch Encoder)}

theorem choice_append (h : ∀ b ∈ front, b.guard.passes subject v = .ok false) :
    choice subject v (front ++ rest) = choice subject v rest := by
  induction front with
  | nil => rfl
  | cons b front ih =>
    rw [List.cons_append, choice, h b List.mem_cons_self]
    exact ih fun b hb => h b (List.mem_cons_of_mem _ hb)

theorem runPlain_of_refused (h : ∀ b ∈ front, b.guard.passes subject v = .ok false) :
    runPlain s subject front v = ⟨v, .ok .none⟩ := by
  induction front with
  | nil => rfl
  | cons b front ih =>
    obtain ⟨tag, index, guard, tagged, plain⟩ := b
    have hb : guard.passes subject v = .ok false := h _ List.mem_cons_self
    simp only [runPlain, hb]
    exact ih fun b hb => h b (List.mem_cons_of_mem _ hb)

theorem result_writeBranch {index : Nat} {f : Value → Written} (h : Adds (f v).result) :
    (writeBranch index f v).result.map (·.outputAfter []) =
      (Varint.encode index).bind fun front => ((f v).result.map (·.outputAfter [])).map (front ++ ·) := by
  unfold writeBranch Written.andThen
  cases Varint.encode index with
  | error e => rfl
  | ok front =>
    cases hresult : (f v).result with
    | error e =>
      simp only [Except.map, Except.bind, hresult]
    | ok eff =>
      obtain ⟨bytes, hemits⟩ := h eff hresult
      simp only [Except.map, Except.bind, hresult, hemits.outputAfter,
        ((Effect.emits_put front).andThen hemits).outputAfter,
        List.nil_append]

end Code.Encoder

theorem exists_append_of_forall₂ {α β : Type} {R : α → β → Prop} {front back : List α} {x : α} {bs : List β}
    (h : List.Forall₂ R (front ++ x :: back) bs) :
    ∃ bs₁ b bs₂, bs = bs₁ ++ b :: bs₂ ∧ List.Forall₂ R front bs₁ ∧ R x b := by
  induction front generalizing bs with
  | nil =>
    obtain ⟨b, bs, hb, -, rfl⟩ := List.forall₂_cons_left_iff.1 h
    exact ⟨[], b, bs, rfl, .nil, hb⟩
  | cons a front ih =>
    obtain ⟨b, bs, hb, hrest, rfl⟩ := List.forall₂_cons_left_iff.1 h
    obtain ⟨bs₁, c, bs₂, rfl, hfront, hc⟩ := ih hrest
    exact ⟨b :: bs₁, c, bs₂, rfl, .cons hb hfront, hc⟩

namespace Store

/-- A value goes to the type at a position of a union: it is of the nature of that type, and no type before it
claims it. -/
structure Picks (store : Store) (union : List Json) (i : Nat) (d : Json) (v : Value) : Prop where
  type : union[i]? = some d
  native : ∃ n ∈ store.nature? d, n.native v = true
  before : ∀ u ∈ union.take i, u.same d = false ∧ ∀ m ∈ store.nature? u, m.claims v = false
  null : .str "null" ∈ union → v.isNull = true → d = .str "null"

instance (store : Store) (union : List Json) (i : Nat) (d : Json) (v : Value) : Decidable (store.Picks union i d v) :=
  decidable_of_iff (union[i]? = some d ∧ (∃ n ∈ store.nature? d, n.native v = true) ∧
      (∀ u ∈ union.take i, u.same d = false ∧ ∀ m ∈ store.nature? u, m.claims v = false) ∧
      (.str "null" ∈ union → v.isNull = true → d = .str "null"))
    ⟨fun ⟨h₁, h₂, h₃, h₄⟩ => ⟨h₁, h₂, h₃, h₄⟩, fun h => ⟨h.type, h.native, h.before, h.null⟩⟩

variable {schemata : Schemata} {store : Store} {g g' : Schema.Registry} {extended : Bool}
  {known : String → Prop} {name data : String} {union : List Json} {bs : List (Branch Encoder)} {v : Value} {i : Nat}
  {d : Json} {type : Json × Nat} {b : Branch Encoder}

variable (h : Store.build schemata g = (.ok store, g')) (hc : store.Consistent) {n : Nature}
include h hc

theorem HasBranch.refuses (hb : store.HasBranch extended known data type b) (hname : store.contains name = true)
    (hn : store.nature? type.1 = some n) (hv : n.claims v = false) :
    b.guard.passes (.value (.of "data")) v = .ok false := by
  obtain ⟨s, t, hguard⟩ := hb.guard
  exact (guards_of_guardOf h hc hname hn hguard).refuses_iff "data" |>.2 hv

theorem HasBranch.passes (hb : store.HasBranch extended known data type b) (hname : store.contains name = true)
    (hn : store.nature? type.1 = some n) (hv : n.native v = true) :
    b.guard.passes (.value (.of "data")) v = .ok true := by
  obtain ⟨s, t, hguard⟩ := hb.guard
  exact (guards_of_guardOf h hc hname hn hguard).passes "data" hv

variable (hname : store.contains name = true) (htells : store.Tells union)
  (hbranches : List.Forall₂ (store.HasBranch extended known data) (inTrialOrder union) bs)
include hname htells hbranches

theorem Picks.exists_choice (hv : store.Picks union i d v) : ∃ b ∈ bs, store.HasBranch extended known data (d, i) b ∧
    choice (.value (.of "data")) v bs = .ok (some b) := by
  obtain ⟨n, hn, hnative⟩ := hv.native
  have hfirst : ∀ u ∈ union.take i, u ≠ d ∧ u.same d = false := by
    refine fun u hu => ⟨?_, (hv.before u hu).1⟩
    rintro rfl
    exact Bool.false_ne_true (((hv.before u hu).2 n hn).symm.trans (Nature.claims_of_native hnative))
  obtain ⟨front, back, horder, hfront⟩ := exists_split_inTrialOrder hv.type hfirst
  rw [horder] at hbranches
  obtain ⟨bs₁, b, bs₂, rfl, hbefore, hb⟩ := exists_append_of_forall₂ hbranches
  refine ⟨b, by simp, hb, ?_⟩
  rw [choice_append, choice, hb.passes h hc hname hn hnative]
  intro c hcbefore
  obtain ⟨t, ht, hbranch⟩ := exists_mem_of_forall₂ hbefore hcbefore
  rcases hfront t ht with hearlier | ⟨hnull, hmem, hne⟩
  · obtain ⟨m, hm⟩ := htells.exists_nature (List.mem_of_mem_take hearlier)
    exact hbranch.refuses h hc hname hm ((hv.before _ hearlier).2 m hm)
  · have hm : store.nature? t.1 = some (.kind .nothing) := by
      rw [hnull]
      rfl
    refine hbranch.refuses h hc hname hm (decide_eq_false fun hkind => hne (hv.null hmem ?_))
    cases v <;> first | rfl | cases hkind

theorem passes_of_unclaimed (hv : ∀ u ∈ union, ∀ m ∈ store.nature? u, m.claims v = false) :
    ∀ b ∈ bs, b.guard.passes (.value (.of "data")) v = .ok false := by
  intro b hb
  obtain ⟨t, ht, hbranch⟩ := exists_mem_of_forall₂ hbranches hb
  have hmem := Parallel.mem_of_inTrialOrder ht
  obtain ⟨m, hm⟩ := htells.exists_nature hmem
  exact hbranch.refuses h hc hname hm (hv _ hmem m hm)

end Store

/-! ### What is written -/

namespace Codec

/-- The defaults that a codec may put in are values of which all pairs begin with texts. -/
def hasTextTags (c : Codec) : Bool :=
  c.routine.writer.hasTextTags && c.routine.functions.all fun f => f.2.writer.hasTextTags

variable {schemata : Schemata} {store : Store} {registry : Schema.Registry} {identifier name data : String}
  {codec own : Codec} {union : List Json} {handled handled' : List String} {d d' : Json} {i : Nat} {v : Value}
  {a : Encoder} {b : Branch Encoder}

section Written

variable (hstore : Store.build schemata [] = (.ok store, registry)) (hc : store.Consistent)
include hstore hc

theorem Origin.handled_subset (ho : Origin store registry identifier codec (.arr union) handled)
    (hown : Origin store registry name own d' handled') (halike : d'.Alike d)
    (hb : store.HasBranch false (· ∈ handled) data (d, i) b) (hd : d ∈ union) : handled' ⊆ handled := by
  have hknown : store.Knowable false (· ∈ handled) :=
    Store.knowable_of_tabled hstore hc fun a ha => ⟨handled, _, ho.tabled, ha, fun _ ha => ha⟩
  obtain ⟨index, cs, -, hcases⟩ := Store.exists_cases_of_decodes hstore ho.reader
  obtain ⟨c, -, hdecodes⟩ := exists_mem_of_forall₂ hcases.flip hd
  refine hown.runs.known_of_mem hstore hc hknown hown.lookup fun mode => ?_
  obtain ⟨n, hmade⟩ := Store.exists_madeIn hb.tagged hdecodes mode
  exact ⟨n, hmade.alike halike.symm⟩

theorem Origin.copied_plain (hown : Origin store registry name own d' handled') (halike : d'.Alike d)
    (hb : store.HasBranch false (· ∈ handled) data (d, i) b) :
    Encoder.Copied (.of "data") (.of "data") own.routine.writer b.plain := by
  rcases hb.plain with ⟨hnull, hplain⟩ | hplain
  · cases hnull
    obtain ⟨x, n, s, t, hx, hrun, -⟩ := hown.writer
    obtain rfl := (halike.symm.trans hx).eq_of_isObj rfl
    rw [hplain, Store.encode_null hstore hrun]
    exact .null
  · exact Store.copied_of_encodes hstore hc hown.writer hplain halike

/-- Copies of a codec's code write what the codec writes, among the functions of another codec that meets the same
recursive types and more. -/
theorem Origin.result_run (ho : Origin store registry identifier codec d handled)
    (hown : Origin store registry name own d' handled') (hinj : store.SuffixesApart) (hsub : handled' ⊆ handled)
    (hcopied : Encoder.Copied (.of "data") (.of "data") own.routine.writer a)
    (hweight : a.defaultWeight ≤ codec.routine.writer.defaultWeight) (htags : own.hasTextTags = true)
    (hv : v.textTagged = true) (hends : (own.serialize v).result ≠ .error .endless) :
    let w := a.run ⟨codec.routine.typedTags, writeCall codec.routine.functions (codec.routine.writeBound v)⟩ v
    Adds w.result ∧ w.result.map (·.outputAfter []) = (own.serialize v).result := by
  rw [hasTextTags, Bool.and_eq_true] at htags
  have hcalls : ∀ name ∈ own.routine.writer.calls, AgreeOnTexts
      (writeCall own.routine.functions (own.routine.writeBound v) name)
      (writeCall codec.routine.functions (own.routine.writeBound v) name) := fun name hname =>
    Store.agree_writeCall hstore hc hown.tabled ho.tabled hinj hsub (List.all_eq_true.1 htags.2) _ name
      (hown.coded.writer name hname)
  have hagree : AgreeOnTexts
      (own.routine.writer.run ⟨own.routine.typedTags, writeCall own.routine.functions (own.routine.writeBound v)⟩)
      (a.run ⟨codec.routine.typedTags, writeCall codec.routine.functions (own.routine.writeBound v)⟩) :=
    agree_of_copied hcopied htags.1 hcalls
  obtain ⟨heq, -, hadds⟩ := hagree v hv
  -- The codec of the union follows calls further, which makes no difference to what has come to an end.
  have hbound : own.routine.writeBound v ≤ codec.routine.writeBound v := by
    refine writeBound_le (Store.subperm_weights hstore hc hown.tabled ho.tabled hinj hsub) ?_ v
    rw [(hcopied.same rfl).weight]
    exact hweight
  have hlasts : Written.Lasts
      (a.run ⟨codec.routine.typedTags, writeCall codec.routine.functions (own.routine.writeBound v)⟩ v)
      (a.run ⟨codec.routine.typedTags, writeCall codec.routine.functions (codec.routine.writeBound v)⟩ v) :=
    run_lasts (fun name x => writeCall_lasts _ hbound name x) a v
  rw [heq] at hlasts
  have hresult := hlasts.result_eq fun hendless => hends (by rw [serialize, hendless]; rfl)
  exact ⟨hresult ▸ hadds, congrArg _ hresult⟩

/-- A union of types whose values can be told has a codec. If a value goes to one of the types, then the codec writes
the position of the type, and then what a codec of the type alone writes. For a value that no type claims it writes
nothing. -/
theorem exists_codec_of_tells (hinj : store.SuffixesApart)
    (hunion : Json.lookup identifier store.database = some (.arr union)) (htells : store.Tells union)
    (halone : ∀ d ∈ union, ∃ codec, IsAlone schemata store d codec) :
    ∃ codec, build schemata identifier = .ok codec ∧
      (∀ {i d v own}, store.Picks union i d v → IsAlone schemata store d own → own.hasTextTags = true →
        v.textTagged = true → (own.serialize v).result ≠ .error .endless →
        (codec.serialize v).result = (Varint.encode i).bind fun index => (own.serialize v).result.map (index ++ ·)) ∧
      ∀ {v}, (∀ items, v ≠ .tuple items) → (∀ u ∈ union, ∀ m ∈ store.nature? u, m.claims v = false) →
        (codec.serialize v).result = .ok [] := by
  obtain ⟨codec, hbuild⟩ := exists_union hstore hc htells halone hunion
  obtain ⟨d, handled, ho⟩ := exists_origin hstore hc hbuild
  cases hunion.symm.trans ho.lookup
  obtain ⟨tag, data, bs, hwriter, hbranches⟩ := Store.exists_branches_of_encodes hstore ho.writer
  have hplain : ∀ {v : Value}, (∀ items, v ≠ .tuple items) → (codec.serialize v).result = (runPlain
      ⟨codec.routine.typedTags, writeCall codec.routine.functions (codec.routine.writeBound v)⟩
      (.value (.of "data")) bs v).result.map (·.outputAfter []) := by
    intro v hv
    simp only [serialize, hwriter]
    rw [run_union_of_ne_tuple rfl hv]
  refine ⟨codec, hbuild, ?_, ?_⟩
  · intro i d v own hpicks hown htags hv hends
    obtain ⟨n, -, hnative⟩ := hpicks.native
    obtain ⟨b, hb, hbranch, hchoice⟩ := hpicks.exists_choice hstore hc ho.contains htells hbranches
    obtain ⟨name, d', handled', hown, halike, -⟩ := hown.exists_origin hstore hc
    have hsub := ho.handled_subset hstore hc hown halike hbranch (List.mem_of_getElem? hpicks.type)
    have hweight : b.plain.defaultWeight ≤ codec.routine.writer.defaultWeight := by
      rw [hwriter]
      exact le_branchWeights hb
    obtain ⟨hadds, hresult⟩ := ho.result_run hstore hc hown hinj hsub
      (hown.copied_plain hstore hc halike hbranch) hweight
      htags hv hends
    rw [hplain (Nature.ne_tuple_of_native hnative), runPlain_eq, hchoice]
    simp only
    rw [result_writeBranch hadds, hresult, hbranch.index]
  · intro v hv hclaims
    rw [hplain hv, runPlain_of_refused (Store.passes_of_unclaimed hstore hc ho.contains htells hbranches hclaims)]
    rfl

end Written

def deskDay : Json := .obj [("logicalType", .str "date"), ("type", .str "int")]

def deskPrice : Json :=
  .obj [("logicalType", .str "decimal"), ("precision", .int 6), ("scale", .int 2), ("type", .str "bytes")]

def deskEntry : Members := [("type", .str "record"), ("name", .str "desk.entry"), ("fields", .arr [
  .field "price" (.str "desk.price"),
  .field "next" (.arr [.str "null", .str "desk.entry"])])]

def deskSchemata : Schemata :=
  [("desk.none", .str "null"), ("desk.day", deskDay), ("desk.price", deskPrice), ("desk.entry", .obj deskEntry),
   ("desk.item", .arr [.str "null", deskDay, deskPrice, .obj deskEntry])]

def deskItem : List Json :=
  [.str "null", deskDay, deskPrice, .obj (deskEntry ++ [(Schema.parsedMark, .bool true)])]

def twoEntries : Value := .dict [("price", .decimal (.finite false 125 (-1))),
  ("next", .dict [("price", .decimal (.finite false 7 0)), ("next", .null)])]

theorem deskItem_dispatched : ∃ codec, build deskSchemata "desk.item" = .ok codec ∧
    (codec.serialize twoEntries).result = .ok [6, 4, 4, 226, 2, 4, 2, 188, 0] ∧
    (codec.serialize (.bool true)).result = .ok [] := by
  obtain ⟨store, registry, hstore, hcheck, hcycles, hunion, htells, hbuilt, ⟨type, hentry, hpicks⟩, hclaims⟩ :=
    exists_store deskSchemata (fun store => store.isConsistent = true ∧
      (∀ a ∈ store.cycles, ∀ b ∈ store.cycles, functionSuffix a = functionSuffix b → a = b) ∧
      Json.lookup "desk.item" store.database = some (.arr deskItem) ∧ store.Tells deskItem ∧
      (∀ d ∈ deskItem, ∃ name ∈ ["desk.none", "desk.day", "desk.price", "desk.entry"],
        Json.lookup name store.database = some d ∧ (build deskSchemata name).isOk = true) ∧
      (∃ type ∈ Json.lookup "desk.entry" store.database, store.Picks deskItem 3 type twoEntries) ∧
      ∀ u ∈ deskItem, ∀ m ∈ store.nature? u, m.claims (.bool true) = false) (by decide +kernel)
  obtain ⟨own, hown, htags, hwritten⟩ := exists_codec deskSchemata "desk.entry" (fun codec =>
    codec.hasTextTags = true ∧
      (codec.serialize twoEntries).result.toOption = some [4, 4, 226, 2, 4, 2, 188, 0]) (by decide +kernel)
  have hwritten := eq_ok_of_toOption hwritten
  have halone : ∀ d ∈ deskItem, ∃ codec, IsAlone deskSchemata store d codec := by
    intro d hd
    obtain ⟨name, -, hname, hok⟩ := hbuilt d hd
    cases hbuild : build deskSchemata name with
    | error e =>
      rw [hbuild] at hok
      cases hok
    | ok codec => exact ⟨codec, name, d, hname, .refl d, hbuild⟩
  obtain ⟨codec, hbuild, hdispatch, hnothing⟩ := exists_codec_of_tells hstore (Store.consistent_of_isConsistent hcheck)
    (Store.suffixesApart_of_cycles hcycles) hunion htells halone
  refine ⟨codec, hbuild, ?_, hnothing nofun hclaims⟩
  have hends : (own.serialize twoEntries).result ≠ .error .endless := by
    rw [hwritten]
    exact nofun
  rw [hdispatch hpicks ⟨_, type, hentry, .refl type, hown⟩ htags (by decide +kernel) hends, hwritten]
  exact eq_ok_of_toOption (by decide +kernel)

def cellSchemata : Schemata :=
  [("bank.cell", .obj [("type", .str "fixed"), ("name", .str "bank.cell"), ("size", .int 2),
    ("logicalType", .str "decimal"), ("precision", .int 4), ("scale", .int 0)]),
   ("bank.sum", .arr [.str "null", .str "bank.cell"])]

/-- The guard of a decimal of a fixed size looks for bytes only. -/
theorem fixedDecimal_undispatched : ∃ own codec, build cellSchemata "bank.cell" = .ok own ∧
    build cellSchemata "bank.sum" = .ok codec ∧ (own.serialize (.decimal (.finite false 5 0))).result = .ok [0, 5] ∧
    (codec.serialize (.decimal (.finite false 5 0))).result = .ok [] := by
  obtain ⟨own, hown, hcell⟩ := exists_codec cellSchemata "bank.cell" (fun codec =>
    (codec.serialize (.decimal (.finite false 5 0))).result.toOption = some [0, 5]) (by decide +kernel)
  obtain ⟨codec, hbuild, hsum⟩ := exists_codec cellSchemata "bank.sum" (fun codec =>
    (codec.serialize (.decimal (.finite false 5 0))).result.toOption = some []) (by decide +kernel)
  exact ⟨own, codec, hown, hbuild, eq_ok_of_toOption hcell, eq_ok_of_toOption hsum⟩

end Codec

end AvroCodec
