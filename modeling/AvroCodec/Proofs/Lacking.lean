import AvroCodec.Codec.Check
import AvroCodec.Proofs.History
import AvroCodec.Proofs.Repeating
import AvroCodec.Proofs.Tidy

/-!
# Schemas that lack a default

Two schemas are compared of which one lacks defaults that the other declares for fields of its record.
`Json.FieldLacks` and `Json.RecordLacks` say so of two fields and of two definitions. Only such fields come
into question as `Json.Honours` describes: their types are basic ones or objects, and nothing in a default
looks like a definition.

If the schema without the defaults can be parsed then so can the other, and what comes out differs in the
same way.
-/

namespace AvroCodec

open Carries

namespace Json

variable {ms ms' : Members} {fields fields' : List Json} {x y : Json} {key other : String}

def without (key : String) (members : Members) : Members :=
  members.filter fun m => m.1 != key

theorem lookup_without (h : other ≠ key) (members : Members) :
    lookup other (without key members) = lookup other members := by
  rw [without, Schema.lookup_filter fun k => k != key, bne_iff_ne.2 h]
  rfl

theorem lookup_without_self (key : String) (members : Members) :
    lookup key (without key members) = none := by
  rw [without, Schema.lookup_filter fun k => k != key, bne_self_eq_false]
  rfl

theorem without_put_self (key : String) (value : Json) (members : Members) :
    without key (put key value members) = without key members :=
  filter_put (p := fun k => k != key) (bne_self_eq_false key) value members

theorem without_put_of_ne (h : other ≠ key) (value : Json) (members : Members) :
    without key (put other value members) = put other value (without key members) := by
  induction members with
  | nil => simp [without, put, h]
  | cons m rest ih =>
    obtain ⟨k, v⟩ := m
    unfold without at ih ⊢
    rw [put, List.filter_cons]
    by_cases hk : k = other
    · rw [if_pos hk, List.filter_cons_of_pos (by simpa [hk] using h), if_pos (by simpa [hk] using h), put,
        if_pos hk]
    · rw [if_neg hk, List.filter_cons, ih]
      split_ifs
      · rw [put, if_neg hk]
      · rfl

/-- Whether an object with this name is no definition. -/
def carriesNoName : Option Json → Bool
  | none => true
  | some (.str name) => !Schema.hasDot name
  | some name => !name.truthy

mutual

/-- Whether nothing in a document looks like a definition. -/
def isInert : Json → Bool
  | .arr items => itemsInert items
  | .obj members => carriesNoName (lookup "name" members) && membersInert members
  | _ => true

def itemsInert : List Json → Bool
  | [] => true
  | x :: xs => isInert x && itemsInert xs

def membersInert : List (String × Json) → Bool
  | [] => true
  | (_, x) :: rest => isInert x && membersInert rest

end

/-- The types of fields whose defaults are put in. -/
def takesDefault : Json → Bool
  | .obj _ => true
  | .str s => Gen.isBasic s
  | _ => false

/-- A field whose default is put in where nothing is. -/
structure Honours (members : Members) : Prop where
  name : ∃ key, lookup "name" members = some (.str key) ∧ key ≠ "" ∧ Code.isIdentifier key = true
  type : ∃ type, lookup "type" members = some type ∧ takesDefault type = true
  logicalType : lookup "logicalType" members = none
  default : ∀ d, ("default", d) ∈ members → (Default.value? d).isSome = true ∧ d.isInert = true

/-- The first field is the second, or it lacks the default of the second. -/
inductive FieldLacks : Json → Json → Prop
  | refl (field : Json) : FieldLacks field field
  | default {members : Members} (h : Honours members) :
      FieldLacks (.obj (without "default" members)) (.obj members)

/-- The members of two records whose fields lack defaults. -/
inductive MemberLacks : String × Json → String × Json → Prop
  | refl (m : String × Json) : MemberLacks m m
  | fields {fields fields' : List Json} (h : List.Forall₂ FieldLacks fields fields') :
      MemberLacks ("fields", .arr fields) ("fields", .arr fields')

/-- The fields of two objects are the same, but for defaults. -/
def FieldsLack (ms ms' : Members) : Prop :=
  lookup "fields" ms' = lookup "fields" ms ∨ ∃ fields fields', lookup "fields" ms = some (.arr fields) ∧
    lookup "fields" ms' = some (.arr fields') ∧ List.Forall₂ FieldLacks fields fields'

/-- The first definition is the second, or it is a record that lacks defaults of the second. -/
inductive RecordLacks : Json → Json → Prop
  | refl (d : Json) : RecordLacks d d
  | record {ms ms' : Members} (h : List.Forall₂ MemberLacks ms ms')
      (htype : lookup "type" ms = some (.str "record")) : RecordLacks (.obj ms) (.obj ms')

theorem forall₂_refl {α : Type} {R : α → α → Prop} (h : ∀ a, R a a) (as : List α) : List.Forall₂ R as as :=
  List.forall₂_same.2 fun a _ => h a

theorem FieldsLack.needElements (h : FieldsLack ms ms')
    (hfields : ((lookup "fields" ms).getD (.arr [])).needElements = .ok fields) :
    ∃ fields', ((lookup "fields" ms').getD (.arr [])).needElements = .ok fields' ∧
      List.Forall₂ FieldLacks fields fields' := by
  rcases h with heq | ⟨fs, fs', hfs, hfs', hall⟩
  · exact ⟨fields, by rw [heq, hfields], forall₂_refl .refl fields⟩
  · rw [hfs] at hfields
    cases hfields
    exact ⟨fs', by rw [hfs']; rfl, hall⟩

section Members

variable {ms ms' : Members} (h : List.Forall₂ MemberLacks ms ms')
include h

theorem lookup_of_lacks {key : String} (hkey : key ≠ "fields") : lookup key ms' = lookup key ms := by
  induction h with
  | nil => rfl
  | cons hm _ ih =>
    cases hm with
    | refl m => simp only [lookup, ih]
    | fields => simp only [lookup, if_neg (Ne.symm hkey), ih]

theorem filter_of_lacks {p : String → Bool} (hp : p "fields" = false) :
    (ms'.filter fun m => p m.1) = ms.filter fun m => p m.1 := by
  induction h with
  | nil => rfl
  | cons hm _ ih =>
    cases hm with
    | refl m => rw [List.filter_cons, List.filter_cons, ih]
    | fields => rw [List.filter_cons_of_neg (by simp [hp]), List.filter_cons_of_neg (by simp [hp]), ih]

theorem fieldsLack_of_lacks : FieldsLack ms ms' := by
  induction h with
  | nil => exact .inl rfl
  | @cons m _ _ _ hm _ ih =>
    cases hm with
    | refl =>
      obtain ⟨k, v⟩ := m
      by_cases hk : k = "fields"
      · exact .inl (by simp only [lookup, if_pos hk])
      · simpa only [FieldsLack, lookup, if_neg hk] using ih
    | fields hfields => exact .inr ⟨_, _, if_pos rfl, if_pos rfl, hfields⟩

theorem forall₂_put (key : String) (value : Json) :
    List.Forall₂ MemberLacks (put key value ms) (put key value ms') := by
  induction h with
  | nil => exact .cons (.refl _) .nil
  | cons hm hrest ih =>
    cases hm with
    | refl m =>
      simp only [put]
      split_ifs
      · exact .cons (.refl _) hrest
      · exact .cons (.refl _) ih
    | fields hfields =>
      simp only [put]
      split_ifs
      · exact .cons (.refl _) hrest
      · exact .cons (.fields hfields) ih

end Members

theorem forall₂_put_fields (h : List.Forall₂ FieldLacks fields fields') (members : Members) :
    List.Forall₂ MemberLacks (put "fields" (.arr fields) members) (put "fields" (.arr fields') members) := by
  induction members with
  | nil => exact .cons (.fields h) .nil
  | cons m rest ih =>
    simp only [put]
    split_ifs with hm
    · exact hm ▸ .cons (.fields h) (forall₂_refl .refl rest)
    · exact .cons (.refl _) ih

/-! ### Sizes -/

theorem depthMembers_without_le (key : String) (members : Members) :
    depthMembers (without key members) ≤ depthMembers members := by
  induction members with
  | nil => exact le_rfl
  | cons m rest ih =>
    unfold without at ih ⊢
    rw [List.filter_cons]
    split_ifs
    · rw [depthMembers, depthMembers]
      exact max_le_max le_rfl ih
    · exact ih.trans (le_max_right _ _)

theorem namedCountMembers_without_le (key : String) (members : Members) :
    namedCountMembers (without key members) ≤ namedCountMembers members := by
  induction members with
  | nil => exact le_rfl
  | cons m rest ih =>
    unfold without at ih ⊢
    rw [List.filter_cons]
    split_ifs
    · rw [namedCountMembers, namedCountMembers]
      exact Nat.add_le_add_left ih _
    · exact ih.trans (Nat.le_add_left _ _)

theorem FieldLacks.sizes_le (h : FieldLacks x y) : x.depth ≤ y.depth ∧ x.namedCount ≤ y.namedCount := by
  cases h with
  | refl => exact ⟨le_rfl, le_rfl⟩
  | default =>
    rw [depth, depth, namedCount, namedCount, lookup_without (by decide)]
    exact ⟨Nat.succ_le_succ (depthMembers_without_le _ _), Nat.add_le_add_right (namedCountMembers_without_le _ _) _⟩

theorem sizes_le_of_fields (h : List.Forall₂ FieldLacks fields fields') :
    depthItems fields ≤ depthItems fields' ∧ namedCountItems fields ≤ namedCountItems fields' := by
  induction h with
  | nil => exact ⟨le_rfl, le_rfl⟩
  | cons hxy _ ih => exact ⟨max_le_max hxy.sizes_le.1 ih.1, Nat.add_le_add hxy.sizes_le.2 ih.2⟩

theorem sizes_le_of_members (h : List.Forall₂ MemberLacks ms ms') :
    depthMembers ms ≤ depthMembers ms' ∧ namedCountMembers ms ≤ namedCountMembers ms' := by
  induction h with
  | nil => exact ⟨le_rfl, le_rfl⟩
  | cons hm _ ih =>
    cases hm with
    | refl => exact ⟨max_le_max le_rfl ih.1, Nat.add_le_add le_rfl ih.2⟩
    | fields hfields =>
      obtain ⟨hdepth, hcount⟩ := sizes_le_of_fields hfields
      exact ⟨max_le_max (Nat.succ_le_succ hdepth) ih.1, Nat.add_le_add hcount ih.2⟩

theorem RecordLacks.sizes_le (h : RecordLacks x y) : x.depth ≤ y.depth ∧ x.namedCount ≤ y.namedCount := by
  cases h with
  | refl => exact ⟨le_rfl, le_rfl⟩
  | record hms =>
    obtain ⟨hdepth, hcount⟩ := sizes_le_of_members hms
    rw [depth, depth, namedCount, namedCount, lookup_of_lacks hms (by decide)]
    exact ⟨Nat.succ_le_succ hdepth, Nat.add_le_add_right hcount _⟩

end Json

namespace Schema

open Json

/-! ### Parsing -/

section Field

variable (members : Members)

theorem filter_without_default :
    ((without "default" members).filter fun m => !reservedInFields.contains m.1) =
      members.filter fun m => !reservedInFields.contains m.1 := by
  rw [without, List.filter_filter]
  refine List.filter_congr fun m _ => ?_
  by_cases hm : m.1 = "default"
  · rw [hm]
    rfl
  · rw [bne_iff_ne.2 hm, Bool.and_true]

theorem without_carriedInField :
    without "default" (carriedInField members) = carriedInField (without "default" members) := by
  have hkept : without "default" (members.filter fun m => !reservedInFields.contains m.1) =
      members.filter fun m => !reservedInFields.contains m.1 := by
    refine List.filter_eq_self.2 fun m hm => bne_iff_ne.2 fun hdefault => ?_
    have hfree := (List.mem_filter.1 hm).2
    rw [hdefault] at hfree
    exact absurd hfree (by decide)
  have hnone : lookup "default" (without "default" members) = none := by
    rw [without, lookup_filter fun k => k != "default"]
    rfl
  unfold carriedInField
  simp only [fieldOptions, List.foldl_cons, List.foldl_nil, filter_without_default, hnone]
  rw [lookup_without (by decide), lookup_without (by decide)]
  cases lookup "doc" members <;> cases lookup "aliases" members <;> cases lookup "default" members <;>
    simp (disch := decide) only [without_put_self, without_put_of_ne, hkept]

end Field

theorem takesDefault_normalIn {type : Json} (h : takesDefault type = true) (depth : Nat) (hint : Bool) (space : Json) :
    takesDefault (normalIn depth hint space type) = true := by
  cases type with
  | obj members =>
    obtain ⟨members', hmembers⟩ := exists_normalIn_obj depth hint space members
    rw [hmembers]
    rfl
  | str s =>
    have hprimitive : primitives.contains s = true := by
      rcases Form.mem_basicTypes h with rfl | rfl | rfl | rfl | rfl | rfl | rfl <;> rfl
    cases depth with
    | zero => exact h
    | succ depth =>
      rw [normalIn, normalName, hprimitive]
      exact h
  | _ => cases h

theorem honours_parsed {members : Members} {name parsed : Json} (h : Honours members)
    (hname : lookup "name" members = some name) (hparsed : takesDefault parsed = true) :
    Honours (put "type" parsed (put "name" name (carriedInField members))) where
  name := by
    obtain ⟨key, hkey, hne, hidentifier⟩ := h.name
    cases hname.symm.trans hkey
    exact ⟨key, by rw [lookup_put_of_ne (by decide), lookup_put_self], hne, hidentifier⟩
  type := ⟨parsed, lookup_put_self .., hparsed⟩
  logicalType := by
    rw [lookup_put_of_ne (by decide), lookup_put_of_ne (by decide), lookup_carriedInField (by decide)]
    exact h.logicalType
  default d hd := by
    rcases mem_put hd with heq | hd
    · simp at heq
    · rcases mem_put hd with heq | hd
      · simp at heq
      · exact h.default d (mem_carriedInField hd).1

theorem carries_parseFieldWith {parseType parseType' : Json → Json → Parse Json} {space field : Json}
    (h : Carries Knowing (parseType space ((field.get? "type").getD .null))
      (parseType' space ((field.get? "type").getD .null)) (· = ·)) :
    Carries Knowing (parseFieldWith parseType space field) (parseFieldWith parseType' space field) (· = ·) := by
  cases field with
  | obj members =>
    unfold parseFieldWith
    dsimp only
    split_ifs
    · exact throw
    · refine bind_lift fun name _ => bind_lift fun type htype => ?_
      rw [Json.get?, need_eq_ok.1 htype, Option.getD_some] at h
      exact h.bind fun a b hab => pure (by rw [hab])
  | _ => exact throw

/-- A field is parsed as the same field with a default is. -/
theorem lacks_parseFieldWith {n m : Nat} {space x y : Json} (hxy : FieldLacks x y)
    (h : Carries Knowing (parseIn n false false space ((y.get? "type").getD .null))
      (parseIn m false false space ((y.get? "type").getD .null)) (· = ·)) :
    Carries Knowing (parseFieldWith (parseIn n false false) space x)
      (parseFieldWith (parseIn m false false) space y) FieldLacks := by
  cases hxy with
  | refl => exact (carries_parseFieldWith h).imp fun a b hab => hab ▸ .refl a
  | @default members hhonours =>
    have hneed : ∀ key, key ≠ "default" →
        (Json.obj (without "default" members)).need key = (Json.obj members).need key := by
      intro key hkey
      rw [Json.need, Json.need, lookup_without hkey]
    obtain ⟨type, htype, hform⟩ := hhonours.type
    rw [Json.get?, htype, Option.getD_some] at h
    have hparse : Carries Knowing (parseIn n false false space type) (parseIn m false false space type)
        fun a b => a = b ∧ takesDefault a = true := by
      intro s s' a t hs hrun
      obtain ⟨b, t', hb, ht, hab⟩ := h s s' a t hs hrun
      exact ⟨b, t', hb, ht, hab, parseIn_eq hrun ▸ takesDefault_normalIn hform _ _ _⟩
    unfold parseFieldWith
    dsimp only
    rw [← without_carriedInField, lookup_without (by decide), hneed _ (by decide), hneed _ (by decide)]
    split_ifs
    · exact throw
    · refine bind_lift fun name hname => bind_lift fun type' htype' => ?_
      cases htype.symm.trans (need_eq_ok.1 htype')
      refine hparse.bind fun a b hab => pure ?_
      obtain ⟨rfl, htakes⟩ := hab
      have hlacks := FieldLacks.default (honours_parsed hhonours (need_eq_ok.1 hname) htakes)
      rwa [without_put_of_ne (by decide), without_put_of_ne (by decide)] at hlacks

/-- Parsing a type once more, down to a greater depth and with more names known. -/
theorem carries_parseIn {n m : Nat} (hnm : n ≤ m) {hint : Bool} {space schema : Json} :
    Carries Knowing (parseIn n false hint space schema) (parseIn m false hint space schema) (· = ·) := by
  induction n generalizing m hint space schema with
  | zero => exact throw
  | succ n ih =>
    obtain ⟨m, rfl⟩ : ∃ k, m = k + 1 := ⟨m - 1, by omega⟩
    replace hnm := Nat.le_of_succ_le_succ hnm
    cases schema with
    | arr branches =>
      refine (mapM_same fun branch hbranch => ih hnm).bind fun parsed parsed' heq => ?_
      rw [List.forall₂_eq_eq_eq] at heq
      exact pure (congrArg Json.arr heq)
    | str reference => exact carries_parseReference (fun _ => rfl) fun _ hp hname => .inr ⟨hp, hname⟩
    | obj members =>
      rw [parseIn_obj, parseIn_obj]
      refine bind_lift fun type htype => bind_lift fun _ _ => ?_
      have hname : Succeeds (fullName (.obj members) space) (fullName (.obj members) space) fun full full' =>
          full.2 = full'.2 := fun full hfull => ⟨full, hfull, rfl⟩
      cases shapeOf members with
      | container key => exact bind_lift fun _ _ => (ih hnm).bind fun a b hab => pure (by rw [hab])
      | leaf key =>
        exact (carries_parseLeaf hname fun value hvalue => ⟨value, hvalue, rfl⟩).imp fun _ _ heq => heq rfl
      | record =>
        refine (carries_parseRecord (Q := Eq) hname fun fields hfields => ⟨fields, hfields,
          mapM_same fun field _ => carries_parseFieldWith (ih hnm)⟩).imp ?_
        rintro _ _ ⟨name, fields, fields', rfl, rfl, hall⟩
        rw [List.forall₂_eq_eq_eq] at hall
        rw [hall]
      | plain =>
        rw [parseMembers, parseMembers]
        split_ifs
        · exact pure rfl
        · exact throw
        · exact throw
    | _ => exact throw

section Record

variable {ms ms' : Members} (hms : List.Forall₂ MemberLacks ms ms') {space : Json}
include hms

theorem carried_of_lacks (type : Json) : carried ms' type = carried ms type := by
  unfold carried
  rw [filter_of_lacks hms (p := fun k => !reserved.contains k) rfl, lookup_of_lacks hms (by decide)]

theorem fullName_of_lacks {full : Json × Json} (h : fullName (.obj ms) space = .ok full) :
    fullName (.obj ms') space = .ok full := by
  unfold fullName at h ⊢
  dsimp only at h ⊢
  rw [lookup_of_lacks hms (by decide), lookup_of_lacks hms (by decide)]
  cases hname : lookup "name" ms with
  | none =>
    rw [hname] at h
    cases h
  | some name =>
    rw [hname] at h
    exact h

/-- A record is parsed as the same record with defaults is. -/
theorem lacks_parseIn {n m : Nat} (hnm : n ≤ m) {hint : Bool} (htype : lookup "type" ms = some (.str "record")) :
    Carries Knowing (parseIn (n + 1) false hint space (.obj ms)) (parseIn (m + 1) false hint space (.obj ms'))
      RecordLacks := by
  have htype' : lookup "type" ms' = some (.str "record") := (lookup_of_lacks hms (by decide)).trans htype
  have hspace : normalSpace space ms' = normalSpace space ms := by
    rw [normalSpace, normalSpace, lookup_of_lacks hms (by decide)]
  rw [parseIn, parseIn, need_eq_ok.2 htype, need_eq_ok.2 htype']
  refine bind_lift fun type heq => ?_
  cases heq
  rw [carried_of_lacks hms]
  refine bind_lift fun _ _ => ?_
  refine (carries_parseRecord (Q := FieldLacks) (fun full hfull => ⟨full, fullName_of_lacks hms hfull, rfl⟩)
    fun fields hfields => ?_).imp ?_
  · obtain ⟨fields', hfields', hall⟩ := (fieldsLack_of_lacks hms).needElements hfields
    rw [hspace]
    exact ⟨fields', hfields', mapM hall fun x _ y _ hxy => lacks_parseFieldWith hxy (carries_parseIn hnm)⟩
  · rintro _ _ ⟨name, fields, fields', rfl, rfl, hall⟩
    have hput := forall₂_put_fields hall (put "name" name (carried ms (.str "record")))
    have hkept : lookup "type" (put "fields" (.arr fields) (put "name" name (carried ms (.str "record")))) =
        some (.str "record") := by
      rw [lookup_put_of_ne (by decide), lookup_put_of_ne (by decide), lookup_carried_type]
    unfold parsedRecord
    split_ifs
    · exact .record (forall₂_put hput _ _) (by rw [lookup_put_of_ne (by decide), hkept])
    · exact .record hput hkept

end Record

section Top

variable {x y d : Json} {r t : Registry} (hxy : RecordLacks x y)
include hxy

theorem lacks_parse (h : parse x {} r = (.ok d, t)) :
    ∃ d' t', parse y {} r = (.ok d', t') ∧ RecordLacks d d' := by
  cases hxy with
  | refl => exact ⟨d, t, h, .refl d⟩
  | @record ms ms' hms htype =>
    have hmark : lookup parsedMark ms' = lookup parsedMark ms := lookup_of_lacks hms (by decide)
    rw [parse, parseTop] at h
    rw [parse, parseTop, hmark]
    simp only [Bool.or_self, Bool.false_eq_true, if_false] at h ⊢
    by_cases hmarked : (lookup parsedMark ms).isSome = true
    · rw [if_pos hmarked] at h ⊢
      obtain ⟨rfl, rfl⟩ := pure_eq_ok.1 h
      exact ⟨_, _, rfl, .record hms htype⟩
    · rw [if_neg hmarked] at h ⊢
      have hdepth := (RecordLacks.record hms htype).sizes_le.1
      obtain ⟨s, hrun, rfl⟩ := parseFresh_eq_iff.1 h
      obtain ⟨d', s', hrun', -, hlacks⟩ :=
        lacks_parseIn hms hdepth htype ⟨r, []⟩ ⟨r, []⟩ d s ⟨List.Subset.refl _, fun _ => id⟩ hrun
      exact ⟨d', s'.registry, parseFresh_eq_iff.2 ⟨s', hrun', rfl⟩, hlacks⟩

theorem lacks_parseOpen (h : parseOpen x r = (.ok d, t)) (r' : Registry) :
    ∃ d' t', parseOpen y r' = (.ok d', t') ∧ RecordLacks d d' := by
  obtain ⟨r₀, hparse⟩ := exists_parse_of_retry h
  obtain ⟨d', t', hparse', hlacks⟩ := lacks_parse hxy hparse
  have hopen : (parseOpen y r').1 = .ok d' := by
    rw [parseOpen_alike y r' r₀, parseOpen, retry_eq_parse (by simp [hparse']), hparse']
  exact ⟨d', (parseOpen y r').2, Prod.ext hopen rfl, hlacks⟩

end Top

end Schema

end AvroCodec
