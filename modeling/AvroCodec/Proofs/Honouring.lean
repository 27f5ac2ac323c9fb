import AvroCodec.Proofs.Dispatch
import AvroCodec.Proofs.Immediate
import AvroCodec.Proofs.LackingStep
import AvroCodec.Proofs.Placing
import AvroCodec.Proofs.Twins

/-!
# Defaults that are honoured

The default of a field is put in by the code of the field, if its type is an object or the name of a basic type. That
code comes after the code of the fields before, which works at other entries. So nothing depends on whether the
default is put in there or has been in the record from the start, provided that it is no text: a text is pasted as
it stands, and is then another expression or none.

`Declared` is a field with a default, in a record that is one of several schemas. `Codec.default_honoured` says that a
codec can be built with the default if it can be without, and that a record without an entry for the field is written
as the record with the default is. Unions and fields of another schema's type do not get their defaults.
-/

namespace AvroCodec

open Code Value Schema Encoder

/-! ### The normal form of a record -/

namespace Schema

open Json

theorem exists_fields_normal {members : Members} {fields : List Json}
    (htype : lookup "type" members = some (.str "record")) (hfields : lookup "fields" members = some (.arr fields)) :
    ∃ ms parse, normal (.obj members) = .obj ms ∧ lookup "type" ms = some (.str "record") ∧
      lookup "fields" ms = some (.arr (fields.map parse)) ∧
      ∀ field, parse field = field ∨ ∃ depth space, parse field = normalField (normalIn depth false) space field := by
  rw [normal, normalTop]
  split_ifs
  · exact ⟨members, id, rfl, htype, by rw [List.map_id, hfields], fun _ => .inl rfl⟩
  · simp only [normalIn, htype, hfields, Option.getD_some, Json.elements?, if_true]
    refine ⟨_, normalField (normalIn (Json.obj members).depth false) (normalSpace (.str "") members), rfl, ?_, ?_,
      fun field => .inr ⟨_, _, rfl⟩⟩
    · rw [lookup_put_of_ne (by decide), lookup_put_of_ne (by decide), withName, lookup_put_of_ne (by decide),
        lookup_carried_type, htype]
      rfl
    · rw [lookup_put_of_ne (by decide), lookup_put_self]

theorem exists_honours_normalField {field : Members} {key : String} {d : Json} (h : Honours field)
    (hname : lookup "name" field = some (.str key)) (hd : lookup "default" field = some d) (depth : Nat)
    (space : Json) :
    ∃ field', normalField (normalIn depth false) space (.obj field) = .obj field' ∧ Honours field' ∧
      lookup "name" field' = some (.str key) ∧ lookup "default" field' = some d := by
  obtain ⟨type, htype, htakes⟩ := h.type
  refine ⟨_, rfl, ?_, ?_, ?_⟩
  · rw [htype, hname, Option.getD_some, Option.getD_some]
    exact honours_parsed h hname (takesDefault_normalIn htakes depth false space)
  · rw [lookup_put_of_ne (by decide), lookup_put_self, hname]
    rfl
  · rw [lookup_put_of_ne (by decide), lookup_put_of_ne (by decide), lookup_carriedInField (by decide), hd]

theorem name_of_normalField {field : Json} {name : String} {depth : Nat} {space : Json}
    (h : (normalField (normalIn depth false) space field).get? "name" = some (.str name)) :
    field.get? "name" = some (.str name) := by
  cases field with
  | obj members =>
    rw [normalField, Json.get?, lookup_put_of_ne (by decide), lookup_put_self] at h
    rw [Json.get?]
    cases hname : lookup "name" members with
    | none =>
      rw [hname] at h
      cases h
    | some given =>
      rw [hname] at h
      exact h
  | _ => exact h

end Schema

theorem Json.Honours.isFieldName {field : Members} {key : String} (h : Honours field)
    (hkey : lookup "name" field = some (.str key)) : Form.isFieldName key = true := by
  obtain ⟨name, hname, hne, hidentifier⟩ := h.name
  cases hkey.symm.trans hname
  have hchar := hasChar_of_isIdentifier (c := '\\') hidentifier (by decide)
  rw [Form.isFieldName, hchar]
  simpa using hne

theorem Code.Logical.not_isSound_record {l : Logical} (h : l.base = .str "record") : l.isSound = false := by
  unfold isSound
  rw [h]
  split
  next heq =>
    cases heq
    decide
  next heq =>
    cases heq
    decide
  next => rfl

/-! ### The code of a record -/

namespace Gen

variable {σ : Setting} {r : Recursion} {p : Place} {field members : Members} {key : String} {a : Encoder}
  {s t : Generator}

/-- The code of a record is that of its fields, unless the record has a logical type. -/
theorem exists_parts_of_encodeStep {fields : List Json} {R : Json → Encoder → Prop}
    (hr : ∀ f ∈ fields, ∀ {s t e}, r.encode f p σ s = (.ok e, t) → R f e)
    (htype : Json.lookup "type" members = some (.str "record"))
    (hfields : Json.lookup "fields" members = some (.arr fields))
    (h : encodeStep r (.obj members) p σ s = (.ok a, t)) :
    (∃ l, a = .logical l p ∧ l.base = .str "record") ∨ ∃ parts, a = .fields parts ∧ List.Forall₂ R fields parts := by
  simp only [encodeStep, bind_eq_ok, lift_eq_ok, need_eq_ok] at h
  obtain ⟨_, _, ⟨htype', rfl⟩, h⟩ := h
  cases htype.symm.trans htype'
  cases hlogical : Json.lookup "logicalType" members with
  | some kind =>
    simp only [encodeObject, Json.get?, hlogical, bind_eq_ok, pure_eq_ok, logicalType, read_eq_ok] at h
    obtain ⟨l, _, ⟨name, _, -, _, _, -, hl⟩, rfl, -⟩ := h
    split_ifs at hl
    · obtain ⟨_, _, hthrow, -⟩ := bind_eq_ok.1 hl
      exact (throw_eq_ok.1 hthrow).elim
    · obtain ⟨rfl, -⟩ := pure_eq_ok.1 hl
      exact .inl ⟨_, rfl, rfl⟩
  | none =>
    simp only [encodeObject, Json.get?, hlogical, bind_eq_ok, lift_eq_ok, need_eq_ok, pure_eq_ok] at h
    obtain ⟨_, _, ⟨hfields', rfl⟩, _, _, ⟨helements, rfl⟩, parts, _, hparts, rfl, -⟩ := h
    cases hfields.symm.trans hfields'
    cases helements
    exact .inr ⟨parts, rfl, (mapM_eq_ok (I := fun _ => True)
      (fun f hf _ _ _ _ he => ⟨trivial, hr f hf he⟩) trivial hparts).2⟩

/-- The code of a record puts in the default of a field that honours it. The code before works at other entries, and no
code works at the record itself. -/
theorem exists_filled_of_encode (hdotted : ∀ {name}, σ.store.contains name = true → hasDot name = true)
    {front back : List Json} {d : Json} (htype : Json.lookup "type" members = some (.str "record"))
    (hfields : Json.lookup "fields" members = some (.arr (front ++ .obj field :: back)))
    (hkeyed : ∀ f ∈ front ++ .obj field :: back, f.isKeyed σ.store.cycles = true) (hfield : Json.Honours field)
    (hname : Json.lookup "name" field = some (.str key)) (hd : Json.lookup "default" field = some d) (hnull : d ≠ .null)
    (hfront : ∀ f ∈ front, f.get? "name" ≠ some (.str key)) {n : Nat}
    (h : (Recursion.upTo n).encode (.obj members) (.of "data") σ s = (.ok a, t)) :
    (∃ l, a = .logical l (.of "data") ∧ l.base = .str "record") ∨ ∃ parts next rest,
      a = .fields (parts ++ .filled ((Place.of "data").member (.str key)) d next :: rest) ∧
      (∀ ks ∈ pathsParts parts, startsAt (· != key) ks = true) ∧
      ∀ ks ∈ pathsParts (next :: rest), startsAt (fun _ => true) ks = true := by
  have hcode : ∀ f ∈ front ++ .obj field :: back, ∀ {m s t e},
    (Recursion.upTo m).encode f (.of "data") σ s = (.ok e, t) →
      (∃ name, f.get? "name" = some (.str name) ∧ e.Under [name]) ∧
      (f = .obj field → ∃ next, e = .filled ((Place.of "data").member (.str key)) d next ∧ next.Under [key]) := by
    intro f hf m s t e he
    obtain ⟨name, type, next, hgiven, htype, hnext, hfilled⟩ := (placed_upTo hdotted he).entry (hkeyed f hf)
    obtain ⟨name', -, hgiven', hisName, -⟩ := Json.exists_of_isKeyed (hkeyed f hf)
    cases hgiven.symm.trans hgiven'
    rw [Place.keys_member hisName] at hnext
    refine ⟨⟨name, hgiven, ?_⟩, ?_⟩
    · rcases hfilled with rfl | ⟨-, rfl⟩
      · exact under_filledFrom (Place.keys_member hisName _ ▸ List.prefix_rfl) hnext
      · exact hnext
    · rintro rfl
      cases hname.symm.trans hgiven
      obtain ⟨type', htype', htakes⟩ := hfield.type
      cases htype'.symm.trans htype
      rcases hfilled with rfl | ⟨htakes', -⟩
      · refine ⟨next, ?_, hnext⟩
        rw [filledFrom, Json.get?, hd]
        cases d <;> first | rfl | exact absurd rfl hnull
      · cases htakes.symm.trans htakes'
  cases n with
  | zero => exact (throw_eq_ok.1 h).elim
  | succ m =>
    rcases exists_parts_of_encodeStep (fun f hf => hcode f hf) htype hfields h with hlogical | ⟨parts, rfl, hparts⟩
    · exact .inl hlogical
    · obtain ⟨before, e, rest, rfl, hbefore, he⟩ := exists_append_of_forall₂ hparts
      obtain ⟨next, rfl, hnext⟩ := he.2 rfl
      refine .inr ⟨before, next, rest, rfl, ?_, ?_⟩
      · refine forall_mem_pathsParts.2 fun e he ks hks => ?_
        obtain ⟨f, hf, ⟨name, hfname, hunder⟩, -⟩ := exists_mem_of_forall₂ hbefore he
        refine startsAt_of_prefix (bne_iff_ne.2 ?_) (hunder ks hks)
        rintro rfl
        exact hfront f hf hfname
      · refine forall_mem_pathsParts.2 fun e he ks hks => ?_
        rcases List.mem_cons.1 he with rfl | he
        · exact startsAt_of_prefix rfl (hnext ks hks)
        · obtain ⟨f, -, ⟨name, -, hunder⟩, -⟩ := exists_mem_of_forall₂ hparts
            (List.mem_append_right _ (List.mem_cons_of_mem _ he))
          exact startsAt_of_prefix rfl (hunder ks hks)

end Gen

namespace Codec

theorem exists_encode_of_build {schemata : Schemata} {identifier : String} {codec : Codec} {store : Store}
    {registry : Schema.Registry} (hstore : Store.build schemata [] = (.ok store, registry))
    (hbuild : build schemata identifier = .ok codec) : ∃ x n s t, Schema.Defines schemata identifier x ∧
      (Recursion.upTo n).encode (normal x) (.of "data") { store } s = (.ok codec.routine.writer, t) := by
  obtain ⟨handled, hcoded, -⟩ := coded_of_build hstore hbuild
  obtain ⟨x, hx, ⟨n, s, t, hwriter⟩, -⟩ := hcoded.drafted
  exact ⟨x, n, s, t, hx.defines hstore, hwriter⟩

end Codec

/-! ### How far calls are followed -/

namespace Value

mutual

theorem depth_ofJson : ∀ d : Json, (ofJson d).depth = d.depth
  | .null | .bool _ | .int _ | .fraction .. | .str _ => rfl
  | .arr items => congrArg (· + 1) (depthItems_ofItems items)
  | .obj members => congrArg (· + 1) (depthEntries_ofMembers members)

theorem depthItems_ofItems : ∀ items : List Json, depthItems (ofItems items) = Json.depthItems items
  | [] => rfl
  | x :: xs => congrArg₂ max (depth_ofJson x) (depthItems_ofItems xs)

theorem depthEntries_ofMembers : ∀ members : Members,
    depthEntries (ofMembers members) = Json.depthMembers members
  | [] => rfl
  | (_, x) :: xs => congrArg₂ max (depth_ofJson x) (depthEntries_ofMembers xs)

end

theorem depthEntries_putEntry_le (key : String) (x : Value) (entries : List (Value × Value)) :
    depthEntries (putEntry key x entries) ≤ max (depthEntries entries) x.depth := by
  induction entries with
  | nil => simp [putEntry, depthEntries]
  | cons e rest ih =>
    obtain ⟨k, y⟩ := e
    cases k with
    | str s =>
      simp only [putEntry]
      split_ifs
      · simp only [depthEntries]
        omega
      · simp only [depthEntries]
        omega
    | _ =>
      simp only [putEntry, depthEntries]
      omega

end Value

namespace Json

theorem length_le_intercalate (sep t : String) (ts : List String) :
    t.length ≤ (sep.intercalate (t :: ts)).length ∧
      (sep.intercalate ts).length ≤ (sep.intercalate (t :: ts)).length := by
  cases ts with
  | nil => simp
  | cons u us =>
    rw [String.intercalate_cons_cons, String.length_append, String.length_append]
    omega

mutual

theorem depth_le_length_literal : ∀ d : Json, d.depth ≤ d.literal.length
  | .null | .bool _ | .int _ | .fraction .. | .str _ => Nat.zero_le _
  | .arr items => by
    have hitems := depthItems_le_length_literal items
    have hopen : "[".length = 1 := rfl
    rw [depth, literal, String.length_append, String.length_append, hopen]
    omega
  | .obj members => by
    have hmembers := depthMembers_le_length_literal members
    have hopen : "\x7b".length = 1 := rfl
    rw [depth, literal, String.length_append, String.length_append, hopen]
    omega

theorem depthItems_le_length_literal : ∀ items : List Json,
    depthItems items ≤ (", ".intercalate (literalItems items)).length
  | [] => Nat.zero_le _
  | x :: xs => by
    have hparts := length_le_intercalate ", " x.literal (literalItems xs)
    exact max_le ((depth_le_length_literal x).trans hparts.1) ((depthItems_le_length_literal xs).trans hparts.2)

theorem depthMembers_le_length_literal : ∀ members : Members,
    depthMembers members ≤ (", ".intercalate (literalMembers members)).length
  | [] => Nat.zero_le _
  | (k, x) :: xs => by
    have hparts := length_le_intercalate ", " (Text.quote k ++ ": " ++ x.literal) (literalMembers xs)
    have hx := depth_le_length_literal x
    rw [String.length_append] at hparts
    exact max_le ((hx.trans (Nat.le_add_left _ _)).trans hparts.1) ((depthMembers_le_length_literal xs).trans hparts.2)

end

end Json

namespace Code

theorem Encoder.weight_filled_le (place : Place) (d : Json) (next : Encoder) (parts rest : List Encoder) :
    d.pasted.length < (fields (parts ++ .filled place d next :: rest)).defaultWeight := by
  rw [defaultWeight]
  induction parts with
  | nil =>
    simp only [List.nil_append, defaultWeights, defaultWeight]
    omega
  | cons e parts ih =>
    simp only [List.cons_append, defaultWeights]
    omega

theorem Routine.writeBound_eq {r : Routine} {v v' : Value} (h : v.depth ≤ v'.depth)
    (h' : v'.depth ≤ max v.depth r.writer.defaultWeight) : r.writeBound v' = r.writeBound v := by
  have hweight := foldr_weight r.functions r.writer.defaultWeight
  rw [writeBound, writeBound, hweight]
  congr 4
  omega

end Code

namespace Codec

/-- A default gives the same bytes whether it is put in by the code or there beforehand. -/
theorem result_serialize_putEntry {codec : Codec} {parts rest : List Encoder} {next : Encoder} {place : Place}
    {key : String} {d : Json} {entries : List (Value × Value)}
    (hwriter : codec.routine.writer = .fields (parts ++ .filled place d next :: rest)) (hplace : place.keys = [key])
    (hfront : ∀ ks ∈ pathsParts parts, startsAt (· != key) ks = true)
    (hback : ∀ ks ∈ pathsParts (next :: rest), startsAt (fun _ => true) ks = true) (hd : d ≠ .null)
    (htext : ∀ s, d ≠ .str s) (hnull : ((find? key entries).getD .null).isNull = true) :
    (codec.serialize (.map (putEntry key (.ofJson d) entries))).result = (codec.serialize (.map entries)).result := by
  have hvalue : Default.value? d = some (.ofJson d) := by
    cases d <;> first | rfl | exact absurd rfl (htext _)
  have hsome : (ofJson d).isNull = false := by
    cases d <;> first | rfl | exact absurd rfl hd
  have hbound : codec.routine.writeBound (.map (putEntry key (.ofJson d) entries)) =
      codec.routine.writeBound (.map entries) := by
    have hweight := weight_filled_le place d next parts rest
    have hliteral : d.pasted = d.literal := by
      cases d <;> first | rfl | exact absurd rfl (htext _)
    have hlength := Json.depth_le_length_literal d
    have hdepth := depth_ofJson d
    have hput := depthEntries_putEntry_le key (.ofJson d) entries
    rw [← hwriter, hliteral] at hweight
    refine Routine.writeBound_eq (Nat.succ_le_succ (depthEntries_le_putEntry fun x hx => ?_)) ?_
    · rw [hx] at hnull
      cases x <;> first | exact Nat.zero_le _ | cases hnull
    · simp only [depth]
      omega
  have hrun := result_run_putEntry (s := codec.scope (codec.routine.writeBound (.map entries))) hplace hvalue
    hsome hfront hback hnull
  simp only [serialize, hbound]
  rw [hwriter]
  exact congrArg (Except.map _) hrun

end Codec

/-! ### Fields with a default -/

theorem Json.put_of_lookup {key : String} {x : Json} {members : Members}
    (h : lookup key members = some x) : put key x members = members := by
  induction members with
  | nil => cases h
  | cons m rest ih =>
    obtain ⟨k, y⟩ := m
    simp only [lookup] at h
    simp only [put]
    split_ifs at h ⊢ with hk
    · cases h
      rfl
    · rw [ih h]

/-- A field with a default, in a record that is one of several schemas. -/
structure Declared where
  before : List (String × Json)
  after : List (String × Json)
  identifier : String
  members : List (String × Json)
  front : List Json
  back : List Json
  field : List (String × Json)
  key : String
  default : Json
  record : Json.lookup "type" members = some (.str "record")
  fields : Json.lookup "fields" members = some (.arr (front ++ .obj field :: back))
  name : Json.lookup "name" field = some (.str key)
  value : Json.lookup "default" field = some default

namespace Declared

def schemata (f : Declared) : List (String × Json) := f.before ++ (f.identifier, .obj f.members) :: f.after

def bareMembers (f : Declared) : Members :=
  Json.put "fields" (.arr (f.front ++ .obj (Json.without "default" f.field) :: f.back)) f.members

def bare (f : Declared) : List (String × Json) := f.before ++ (f.identifier, .obj f.bareMembers) :: f.after

/-- What has to hold for the default to be put in. It is no text, and the type of the field is neither a union nor the
name of another schema. No other schema has the name of the record, names can stand between quotes, and no field's
code works at the record itself. -/
structure Respected (f : Declared) : Prop where
  honours : Json.Honours f.field
  notNull : f.default ≠ .null
  notText : ∀ s, f.default ≠ .str s
  first : ∀ g ∈ f.front, g.get? "name" ≠ some (.str f.key)
  single : ∀ {x}, Schema.Defines f.schemata f.identifier x → normal x = normal (.obj f.members)
  quotable : ∀ {name x}, Schema.Defines f.schemata name x → x.isQuotable = true
  keyed : ∀ {store registry}, Store.build f.bare [] = (.ok store, registry) →
    ∀ g ∈ (normal (.obj f.members)).leading, g.isKeyed store.cycles = true

variable {f : Declared}

theorem lacks (h : f.Respected) : Database.Lacks f.bare f.schemata := by
  have hfields : List.Forall₂ Json.FieldLacks (f.front ++ .obj (Json.without "default" f.field) :: f.back)
      (f.front ++ .obj f.field :: f.back) :=
    List.rel_append (Json.forall₂_refl .refl f.front) (.cons (.default h.honours) (Json.forall₂_refl .refl f.back))
  have hmembers := Json.forall₂_put_fields hfields f.members
  rw [Json.put_of_lookup f.fields] at hmembers
  have htype : Json.lookup "type" f.bareMembers = some (.str "record") := by
    rw [bareMembers, Json.lookup_put_of_ne (by decide), f.record]
  exact List.rel_append (Database.Lacks.refl f.before)
    (.cons ⟨rfl, .record hmembers htype⟩ (Database.Lacks.refl f.after))

/-- The code of the record puts the default in. The code before works at other entries, and no code works at the record
itself. -/
theorem exists_filled (h : f.Respected) {codec : Codec} {store : Store} {registry : Schema.Registry}
    (hstore : Store.build f.schemata [] = (.ok store, registry))
    (hbuild : Codec.build f.schemata f.identifier = .ok codec)
    (hkeyed : ∀ g ∈ (normal (.obj f.members)).leading, g.isKeyed store.cycles = true) :
    ∃ parts next rest,
      codec.routine.writer = .fields (parts ++ .filled ((Place.of "data").member (.str f.key)) f.default next :: rest) ∧
      (∀ ks ∈ pathsParts parts, startsAt (· != f.key) ks = true) ∧
      ∀ ks ∈ pathsParts (next :: rest), startsAt (fun _ => true) ks = true := by
  obtain ⟨x, n, s, t, hx, hwriter⟩ := Codec.exists_encode_of_build hstore hbuild
  obtain ⟨ms, parse, hms, hmtype, hmfields, hparse⟩ := exists_fields_normal f.record f.fields
  rw [h.single hx, hms] at hwriter
  obtain ⟨field', hfield', hhonours, hname', hd'⟩ : ∃ field', parse (.obj f.field) = .obj field' ∧ Json.Honours field' ∧
      Json.lookup "name" field' = some (.str f.key) ∧ Json.lookup "default" field' = some f.default := by
    rcases hparse (.obj f.field) with heq | ⟨depth, space, heq⟩
    · exact ⟨f.field, heq, h.honours, f.name, f.value⟩
    · rw [heq]
      exact exists_honours_normalField h.honours f.name f.value depth space
  rw [List.map_append, List.map_cons, hfield'] at hmfields
  have hkeyed' : ∀ g ∈ f.front.map parse ++ .obj field' :: f.back.map parse,
      g.isKeyed (Setting.store { store }).cycles = true := by
    rwa [hms, Json.leading_record hmtype, fieldList, hmfields] at hkeyed
  have hfirst : ∀ g ∈ f.front.map parse, g.get? "name" ≠ some (.str f.key) := by
    intro g hg hget
    obtain ⟨g', hg', rfl⟩ := List.mem_map.1 hg
    rcases hparse g' with heq | ⟨depth, space, heq⟩
    · exact h.first g' hg' (heq ▸ hget)
    · exact h.first g' hg' (name_of_normalField (heq ▸ hget))
  rcases Gen.exists_filled_of_encode (Store.hasDot_of_contains hstore) hmtype hmfields hkeyed' hhonours hname' hd'
    h.notNull hfirst hwriter with
    ⟨l, hl, hbase⟩ | hfilled
  · have hcompiles := (Codec.build_eq_ok hstore hbuild).2
    simp [Routine.compiles, Routine.isSound, hl, isSound, Logical.not_isSound_record hbase] at hcompiles
  · exact hfilled

end Declared

namespace Codec

/-- A codec that can be built without a default can be built with it. A record in which there is nothing for the field
is then written as the record with the default is. -/
theorem default_honoured {f : Declared} (h : f.Respected) {bare : Codec}
    (hbare : build f.bare f.identifier = .ok bare) :
    ∃ codec, build f.schemata f.identifier = .ok codec ∧
      ∀ entries, ((find? f.key entries).getD .null).isNull = true →
        (codec.serialize (.map entries)).result =
          (codec.serialize (.map (putEntry f.key (.ofJson f.default) entries))).result := by
  obtain ⟨codec, hbuild⟩ := build_of_lacks (Declared.lacks h) h.quotable hbare
  obtain ⟨store, registry, hstore⟩ := exists_store_of_build hbare
  obtain ⟨store', registry', hstore', -, hlacks⟩ :=
    Store.lacks_build (Declared.lacks h) [] [] store registry trivial hstore
  obtain ⟨parts, next, rest, hwriter, hfront, hback⟩ :=
    Declared.exists_filled h hstore' hbuild (hlacks.cycles ▸ h.keyed hstore)
  have hplace := Place.keys_member (h.honours.isFieldName f.name) (.of "data")
  exact ⟨codec, hbuild, fun entries hnull =>
    (result_serialize_putEntry hwriter hplace hfront hback h.notNull h.notText hnull).symm⟩

def boxLabels : Declared where
  before := []
  after := []
  identifier := "shop.box"
  members := [("type", .str "record"), ("name", .str "shop.box"), ("fields", .arr [
    .obj [("name", .str "count"), ("type", .str "int"), ("default", .int 1)],
    .obj [("name", .str "labels"), ("type", .obj
      [("type", .str "array"), ("items", .record "shop.label" [.field "size" (.str "int")])]),
      ("default", .arr [.obj [("size", .int 3)], .obj [("size", .int 4)]])],
    .field "inner" (.arr [.str "null", .str "shop.box"])])]
  front := [.obj [("name", .str "count"), ("type", .str "int"), ("default", .int 1)]]
  back := [.field "inner" (.arr [.str "null", .str "shop.box"])]
  field := [("name", .str "labels"), ("type",
    .obj [("type", .str "array"), ("items", .record "shop.label" [.field "size" (.str "int")])]),
    ("default", .arr [.obj [("size", .int 3)], .obj [("size", .int 4)]])]
  key := "labels"
  default := .arr [.obj [("size", .int 3)], .obj [("size", .int 4)]]
  record := rfl
  fields := rfl
  name := rfl
  value := rfl

theorem respected_boxLabels : boxLabels.Respected := by
  have htable : ∀ {name x}, Schema.Defines boxLabels.schemata name x →
      (name, x) ∈ derivedIn 2 boxLabels.schemata :=
    fun hx => hx.mem_table _ (by decide +kernel) (by decide +kernel)
  have hsingle : ∀ e ∈ derivedIn 2 boxLabels.schemata, e.1 = "shop.box" →
      normal e.2 = normal (.obj boxLabels.members) := by decide +kernel
  have hquotable : ∀ e ∈ derivedIn 2 boxLabels.schemata, e.2.isQuotable = true := by decide +kernel
  have hcycles : (Store.build boxLabels.bare []).1.toOption.map Store.cycles = some ["shop.box"] := by decide +kernel
  have hkeyed : ∀ g ∈ (normal (.obj boxLabels.members)).leading, g.isKeyed ["shop.box"] = true := by
    decide +kernel
  refine ⟨⟨⟨"labels", rfl, by decide, by decide⟩, ⟨_, rfl, rfl⟩, rfl, ?_⟩, nofun, nofun, by decide,
    fun hx => hsingle _ (htable hx) rfl, fun hx => hquotable _ (htable hx), ?_⟩
  · intro d hd
    obtain rfl : d = boxLabels.default := by simpa [boxLabels] using hd
    decide
  · intro store registry hstore
    rw [hstore] at hcycles
    rwa [Option.some_inj.1 hcycles]

/-- The labels are missing, and so is the count before them. -/
theorem boxLabels_default_honoured : boxLabels.Respected ∧ ∃ bare codec,
    build boxLabels.bare "shop.box" = .ok bare ∧ build boxLabels.schemata "shop.box" = .ok codec ∧
    (codec.serialize (.dict [])).result = .ok [2, 4, 6, 8, 0, 0] ∧
    (codec.serialize (.dict [])).result =
      (codec.serialize (.dict [("labels", .list [.dict [("size", .int 3)], .dict [("size", .int 4)]])])).result := by
  obtain ⟨bare, hbare, -⟩ := exists_codec boxLabels.bare "shop.box" (fun _ => True) (by decide +kernel)
  obtain ⟨codec, hbuild, hwritten⟩ := exists_codec boxLabels.schemata "shop.box" (fun codec =>
    (codec.serialize (.dict [])).result.toOption = some [2, 4, 6, 8, 0, 0]) (by decide +kernel)
  obtain ⟨codec', hbuild', hsame⟩ := default_honoured respected_boxLabels hbare
  cases hbuild.symm.trans hbuild'
  exact ⟨respected_boxLabels, bare, codec, hbare, hbuild, eq_ok_of_toOption hwritten, hsame [] rfl⟩

def tagLabel (type default : Json) : Declared where
  before := [("shop.size", .record "shop.size" [.field "size" (.str "int")])]
  after := []
  identifier := "shop.tag"
  members := [("type", .str "record"), ("name", .str "shop.tag"),
    ("fields", .arr [.obj [("name", .str "label"), ("type", type), ("default", default)]])]
  front := []
  back := []
  field := [("name", .str "label"), ("type", type), ("default", default)]
  key := "label"
  default := default
  record := rfl
  fields := rfl
  name := rfl
  value := rfl

theorem ne_ok_of_isNone {ε α : Type} {x : Except ε α} (h : x.toOption.isNone = true) (a : α) : x ≠ .ok a := by
  rintro rfl
  cases h

/-- No codec can be built with a default that is a text, and the default of a union and of a field of another schema's
type is not put in. -/
theorem defaults_not_honoured :
    (∃ codec, build (tagLabel (.str "string") (.str "none")).bare "shop.tag" = .ok codec) ∧
    (∀ codec, build (tagLabel (.str "string") (.str "none")).schemata "shop.tag" ≠ .ok codec) ∧
    (∃ codec, build (tagLabel (.arr [.str "int", .str "string"]) (.int 3)).schemata "shop.tag" = .ok codec ∧
      (codec.serialize (.dict [("label", .int 3)])).result = .ok [0, 6] ∧
      ∀ bytes, (codec.serialize (.dict [])).result ≠ .ok bytes) ∧
    ∃ codec, build (tagLabel (.str "shop.size") (.obj [("size", .int 1)])).schemata "shop.tag" = .ok codec ∧
      (codec.serialize (.dict [("label", .dict [("size", .int 1)])])).result = .ok [2] ∧
      ∀ bytes, (codec.serialize (.dict [])).result ≠ .ok bytes := by
  obtain ⟨bare, hbare, -⟩ := exists_codec (tagLabel (.str "string") (.str "none")).bare "shop.tag" (fun _ => True)
    (by decide +kernel)
  obtain ⟨united, hunited, hgiven, hmissing⟩ := exists_codec
    (tagLabel (.arr [.str "int", .str "string"]) (.int 3)).schemata "shop.tag" (fun codec =>
      (codec.serialize (.dict [("label", .int 3)])).result.toOption = some [0, 6] ∧
      (codec.serialize (.dict [])).result.toOption.isNone = true) (by decide +kernel)
  obtain ⟨named, hnamed, hgiven', hmissing'⟩ := exists_codec
    (tagLabel (.str "shop.size") (.obj [("size", .int 1)])).schemata "shop.tag" (fun codec =>
      (codec.serialize (.dict [("label", .dict [("size", .int 1)])])).result.toOption = some [2] ∧
      (codec.serialize (.dict [])).result.toOption.isNone = true) (by decide +kernel)
  exact ⟨⟨bare, hbare⟩, ne_ok_of_isNone (by decide +kernel),
    ⟨united, hunited, eq_ok_of_toOption hgiven, ne_ok_of_isNone hmissing⟩,
    named, hnamed, eq_ok_of_toOption hgiven', ne_ok_of_isNone hmissing'⟩

end Codec

end AvroCodec
