import AvroCodec.Proofs.Alike

/-!
# The normal form of a normal form

All names in a normal form are full names, so that parsing it in no namespace changes nothing: a normal
form is its own normal form.
-/

namespace AvroCodec

namespace Json

theorem lookup_of_getD {key s : String} {members : Members}
    (h : (lookup key members).getD .null = .str s) : lookup key members = some (.str s) := by
  cases hkey : lookup key members with
  | none => rw [hkey] at h; cases h
  | some x => rw [hkey] at h; exact congrArg some h

end Json

namespace Schema

variable {members : Members} {schema : Json} {depth : Nat}

section Carried

variable {key : String}

theorem carried_put (h : reserved.contains key = true) (hdoc : key ≠ "doc")
    (value type : Json) : carried (Json.put key value members) type = carried members type := by
  unfold carried
  rw [Json.filter_put (p := fun k => !reserved.contains k) (by rw [h]; rfl),
    Json.lookup_put_of_ne (Ne.symm hdoc)]

/-- Nothing is dropped from what has been carried over. -/
theorem carried_carried (type : Json) :
    carried (carried members type) type = carried members type := by
  have hkept : ((carried members type).filter fun m => !reserved.contains m.1) =
      members.filter fun m => !reserved.contains m.1 := by
    unfold carried
    have hfilter : ∀ {key : String} (value : Json) (ms : Members),
        reserved.contains key = true → ((Json.put key value ms).filter fun m => !reserved.contains m.1) =
          ms.filter fun m => !reserved.contains m.1 :=
      fun value ms h => Json.filter_put (p := fun k => !reserved.contains k) (by rw [h]; rfl) value ms
    cases Json.lookup "doc" members with
    | none =>
      dsimp only
      rw [hfilter _ _ (by decide), List.filter_filter]
      simp only [Bool.and_self]
    | some doc =>
      dsimp only
      rw [hfilter _ _ (by decide), hfilter _ _ (by decide), List.filter_filter]
      simp only [Bool.and_self]
  have hdoc : Json.lookup "doc" (carried members type) = Json.lookup "doc" members := by
    unfold carried
    cases Json.lookup "doc" members with
    | none =>
      dsimp only
      rw [Json.lookup_put_of_ne (by decide), lookup_filter fun k => !reserved.contains k]
      rfl
    | some doc => exact Json.lookup_put_self ..
  rw [carried.eq_def (carried members type), hkept, hdoc]
  rfl

theorem lookup_namespace_carried (type : Json) :
    Json.lookup "namespace" (carried members type) = none := by
  rw [lookup_carried (by decide) (by decide)]
  rfl

theorem qualify_of_empty (name : Json) : qualify (.str "") name = name := rfl

theorem kept_put (h : reserved.contains key = true) (htype : key ≠ "type") (hdoc : key ≠ "doc") (value : Json)
    (members : Members) : kept (Json.put key value members) = kept members := by
  rw [kept, Json.lookup_put_of_ne (Ne.symm htype), carried_put h hdoc]

theorem kept_kept (members : Members) : kept (kept members) = kept members := by
  rw [kept.eq_def (kept members), lookup_carried_type, Option.getD_some, carried_carried]

theorem withName_put_withName (hkey : reserved.contains key = true)
    (hother : key ∉ ["type", "name", "namespace", "doc"]) (space value : Json) :
    withName (.str "") (Json.put key value (withName space members)) = withName space members := by
  simp only [List.mem_cons, List.not_mem_nil, not_or, or_false] at hother
  obtain ⟨htype, hname, hspace, hdoc⟩ := hother
  have hkept : kept (Json.put key value (withName space members)) = kept members := by
    rw [kept_put hkey htype hdoc, withName, kept_put (by decide) (by decide) (by decide), kept_kept]
  have hspace' : normalSpace (.str "") (Json.put key value (withName space members)) = .str "" := by
    rw [normalSpace, Json.lookup_put_of_ne (Ne.symm hspace), withName, Json.lookup_put_of_ne (by decide),
      lookup_namespace_carried]
    rfl
  rw [withName.eq_def (.str ""), hspace', qualify_of_empty, Json.lookup_put_of_ne (Ne.symm hname),
    withName.eq_def space, Json.lookup_put_self, Option.getD_some]
  exact congrArg (Json.put "name" _) hkept

theorem filter_carriedInField :
    ((carriedInField members).filter fun m => !reservedInFields.contains m.1) =
      members.filter fun m => !reservedInFields.contains m.1 := by
  refine carriedInField_induct (P := fun ms => (ms.filter fun m => !reservedInFields.contains m.1) =
    members.filter fun m => !reservedInFields.contains m.1) ?_ ?_
  · rw [List.filter_filter]
    simp only [Bool.and_self]
  · intro option value ms hmem _ hms
    have hreserved : reservedInFields.contains option = true :=
      List.contains_iff_mem.2 (List.mem_cons_of_mem _ (List.mem_cons_of_mem _ hmem))
    rw [Json.filter_put (p := fun k => !reservedInFields.contains k) (by rw [hreserved]; rfl), hms]

theorem carriedInField_congr {members' : Members}
    (hkept : (members.filter fun m => !reservedInFields.contains m.1) =
      members'.filter fun m => !reservedInFields.contains m.1)
    (hoptions : ∀ key ∈ fieldOptions, Json.lookup key members = Json.lookup key members') :
    carriedInField members = carriedInField members' := by
  unfold carriedInField
  simp only [fieldOptions, List.foldl_cons, List.foldl_nil]
  rw [hkept, hoptions "doc" (by decide), hoptions "aliases" (by decide), hoptions "default" (by decide)]

theorem carriedInField_carriedInField (name type : Json) :
    carriedInField (Json.put "type" type (Json.put "name" name (carriedInField members))) =
      carriedInField members := by
  refine carriedInField_congr ?_ fun key hkey => ?_
  · rw [Json.filter_put (p := fun k => !reservedInFields.contains k) (by decide),
      Json.filter_put (p := fun k => !reservedInFields.contains k) (by decide), filter_carriedInField]
  · have hfree : ∀ key ∈ fieldOptions, key ≠ "type" ∧ key ≠ "name" ∧ key ∉ ["type", "name"] := by decide
    obtain ⟨htype, hname, hother⟩ := hfree key hkey
    rw [Json.lookup_put_of_ne htype, Json.lookup_put_of_ne hname, lookup_carriedInField hother]

end Carried

theorem normalName_normalName (space : Json) (reference : String) :
    normalName (.str "") (normalName space reference) = normalName space reference := by
  unfold normalName
  exact if_pos (by rw [show Json.truthy (.str "") = false from rfl, Bool.not_false, Bool.or_true])

theorem normalField_normalField {f g : Json → Json → Json} {space field : Json}
    (h : ∀ type, (field.get? "type").getD .null = type → g (.str "") (f space type) = f space type) :
    normalField g (.str "") (normalField f space field) = normalField f space field := by
  cases field with
  | obj members =>
    simp only [normalField]
    rw [carriedInField_carriedInField, Json.lookup_put_self, Json.lookup_put_of_ne (by decide),
      Json.lookup_put_self, Option.getD_some, Option.getD_some,
      h ((Json.lookup "type" members).getD .null) rfl]
  | _ => rfl

section Shapes

variable {depth m : Nat} {hint : Bool} {space : Json}

theorem isRecord_iff : Json.isRecord members = true ↔ shapeOf members = .record := by
  constructor
  · intro h
    obtain ⟨type, htype, rfl | rfl⟩ := Json.exists_type_of_isRecord h <;> rw [shapeOf, htype] <;> rfl
  · intro h
    unfold shapeOf at h
    split at h <;> cases h
    next htype => rw [Json.isRecord, Json.lookup_of_getD htype]; rfl
    next htype => rw [Json.isRecord, Json.lookup_of_getD htype]; rfl

theorem shapeOf_normalMembers {normalType : Json → Json → Json} :
    shapeOf (normalMembers normalType hint space members (shapeOf members)) = shapeOf members := by
  rw [shapeOf, lookup_normalMembers (by decide), lookup_carried_type]
  rfl

theorem normalSpace_normalMembers {normalType : Json → Json → Json} :
    normalSpace (.str "") (normalMembers normalType hint space members (shapeOf members)) = .str "" := by
  rw [normalSpace, lookup_normalMembers (by decide), lookup_namespace_carried]
  rfl

/-- The members of a normal form stay, if the types in it are in normal form. -/
theorem normalMembers_normalMembers {f g : Json → Json → Json}
    (hpart : ∀ key, shapeOf members = .container key →
      g (.str "") (f space ((Json.lookup key members).getD .null)) = f space ((Json.lookup key members).getD .null))
    (hfields : ∀ type ∈ fieldTypes members, g (.str "") (f (normalSpace space members) type) =
      f (normalSpace space members) type) :
    normalMembers g false (.str "") (normalMembers f false space members (shapeOf members)) (shapeOf members) =
      normalMembers f false space members (shapeOf members) := by
  have hspace := @normalSpace_normalMembers members false space f
  cases hshape : shapeOf members with
  | container key =>
    have hkept : kept (normalMembers f false space members (.container key)) = kept members := by
      rcases key_of_container hshape with rfl | rfl <;>
        rw [normalMembers, kept_put (by decide) (by decide) (by decide), kept_kept]
    rw [normalMembers, hkept, normalMembers, Json.lookup_put_self, Option.getD_some, hpart key hshape]
  | leaf key =>
    rw [normalMembers.eq_def f]
    rcases key_of_leaf hshape with rfl | rfl <;>
      rw [normalMembers, withName_put_withName (by decide) (by decide), Json.lookup_put_self, Option.getD_some]
  | record =>
    rw [hshape] at hspace
    have hlist : fieldList (normalMembers f false space members .record) =
        (fieldList members).map (normalField f (normalSpace space members)) := by
      rw [fieldList, ← hshape, (lookup_normalMembers_record hshape).2]
      rfl
    have hfixed : ((fieldList members).map (normalField f (normalSpace space members))).map (normalField g (.str "")) =
        (fieldList members).map (normalField f (normalSpace space members)) := by
      rw [List.map_map]
      refine List.map_congr_left fun field hfield => normalField_normalField ?_
      rintro _ rfl
      exact hfields _ (mem_fieldTypes hfield)
    rw [normalMembers, hlist, hspace, hfixed]
    exact congrArg (Json.put "fields" _) (withName_put_withName (by decide) (by decide) ..)
  | plain => exact kept_kept members

theorem normalIn_normalIn (space : Json) (h : schema.depth < depth) (m : Nat) :
    normalIn m false (.str "") (normalIn depth false space schema) =
      normalIn depth false space schema := by
  induction depth generalizing space schema m with
  | zero => exact absurd h (Nat.not_lt_zero _)
  | succ depth ih =>
    cases m with
    | zero => rfl
    | succ m =>
      cases schema with
      | arr branches =>
        simp only [normalIn, List.map_map]
        refine congrArg Json.arr (List.map_congr_left fun branch hbranch => ih space ?_ m)
        have hdepth := Json.depth_le_of_mem_items hbranch
        rw [Json.depth] at h
        omega
      | str reference => exact congrArg Json.str (normalName_normalName space reference)
      | obj members =>
        have hmembers : Json.depthMembers members < depth := Nat.lt_of_succ_lt_succ h
        rw [normalIn_obj, normalIn_obj, shapeOf_normalMembers, normalMembers_normalMembers]
        · exact fun key _ => ih space ((Json.depth_getD_le key members).trans_lt hmembers) m
        · exact fun type htype => ih _ ((depth_le_of_mem_fieldTypes htype).trans_lt hmembers) m
      | _ => rfl

theorem normalIn_of_not_isRecord (h : Json.isRecord members = false) :
    normalIn depth true space (.obj members) = normalIn depth false space (.obj members) := by
  cases depth with
  | zero => rfl
  | succ depth =>
    rw [normalIn_obj, normalIn_obj]
    cases hshape : shapeOf members with
    | record => cases h.symm.trans (isRecord_iff.2 hshape)
    | _ => rfl

theorem normalIn_hinted (depth : Nat) (space : Json) (h : Json.isRecord members = true) :
    ∃ complete, normalIn (depth + 1) false space (.obj members) = .obj complete ∧
      normalIn (depth + 1) true space (.obj members) = .obj (Json.put parsedMark (.bool true) complete) := by
  rw [normalIn_obj, normalIn_obj, isRecord_iff.1 h]
  exact ⟨_, rfl, rfl⟩

theorem isRecord_normalIn {members' : Members}
    (h : normalIn (depth + 1) false space (.obj members) = .obj members') :
    Json.isRecord members' = Json.isRecord members := by
  rw [normalIn_obj] at h
  cases h
  rw [Bool.eq_iff_iff, isRecord_iff, isRecord_iff, shapeOf_normalMembers]

end Shapes

theorem normalTop_normalTop (h : schema.depth < depth) (m : Nat) :
    normalTop m (normalTop depth schema) = normalTop depth schema := by
  induction depth generalizing schema m with
  | zero => exact absurd h (Nat.not_lt_zero _)
  | succ depth ih =>
    cases m with
    | zero => rfl
    | succ m =>
      cases schema with
      | arr branches =>
        simp only [normalTop, List.map_map]
        refine congrArg Json.arr (List.map_congr_left fun branch hbranch => ih ?_ m)
        have hdepth := Json.depth_le_of_mem_items hbranch
        rw [Json.depth] at h
        omega
      | obj members =>
        have hmarked : ∀ ms, (Json.lookup parsedMark ms).isSome = true →
            normalTop (m + 1) (.obj ms) = .obj ms := by
          intro ms hms
          rw [normalTop]
          exact if_pos hms
        rw [normalTop]
        split_ifs with hmark
        · exact hmarked members hmark
        · by_cases hrecord : Json.isRecord members = true
          · obtain ⟨complete, -, hx⟩ := normalIn_hinted (Json.obj members).depth (.str "") hrecord
            rw [hx]
            exact hmarked _ (by rw [Json.lookup_put_self]; rfl)
          · rw [Bool.not_eq_true] at hrecord
            obtain ⟨ms, hx⟩ := exists_normalIn_obj ((Json.obj members).depth + 1) false (.str "") members
            have hplain : Json.isRecord ms = false := (isRecord_normalIn hx).trans hrecord
            have htwice := normalIn_normalIn (.str "") (Nat.lt_succ_self (Json.obj members).depth)
              ((Json.obj ms).depth + 1)
            rw [normalIn_of_not_isRecord hrecord, hx]
            rw [hx] at htwice
            rw [normalTop]
            split_ifs
            · rfl
            · rw [normalIn_of_not_isRecord hplain, htwice]
      | str reference => exact congrArg Json.str (normalName_normalName (.str "") reference)
      | _ => rfl

theorem normal_normal (schema : Json) : normal (normal schema) = normal schema :=
  normalTop_normalTop (Nat.lt_succ_self _) _

end Schema

end AvroCodec
