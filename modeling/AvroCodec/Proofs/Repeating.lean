import AvroCodec.Proofs.Carrying
import AvroCodec.Proofs.History

/-!
# Parsing what has been parsed

A schema that an attempt has given is parsed to itself. All names in it are full names, which are known by then,
and it passes the checks that the schema before it has passed. The second attempt gives the same schema and
leaves the same definitions. It can put the mark of a record elsewhere among the members, so that the members are
compared without regard to their order.
-/

namespace AvroCodec

open Carries

namespace Json

/-- Two documents that are the same, or two objects that have the same member under every key. -/
inductive SameMembers : Json → Json → Prop
  | refl (d : Json) : SameMembers d d
  | members {ms ms' : Members} (h : ∀ key, lookup key ms = lookup key ms') :
      SameMembers (.obj ms) (.obj ms')

theorem lookup_put_congr {key : String} {ms ms' : Members} (h : lookup key ms = lookup key ms')
    (other : String) (value : Json) : lookup key (put other value ms) = lookup key (put other value ms') := by
  by_cases hkey : key = other
  · rw [hkey, lookup_put_self, lookup_put_self]
  · rw [lookup_put_of_ne hkey, lookup_put_of_ne hkey, h]

theorem SameMembers.of_eq {d d' : Json} (h : d = d') : SameMembers d d' := h ▸ .refl d

theorem SameMembers.get? {d d' : Json} (h : SameMembers d d') (key : String) : d.get? key = d'.get? key := by
  cases h with
  | refl => rfl
  | members h => exact h key

end Json

namespace Schema

open Json

variable {space' d : Json} {key : String} {t u r : Registry}

/-! ### Two parsers -/

/-- Two parsers, of which the second has taken no other names and knows what the first does. -/
def Knowing (s s' : Parsing) : Prop :=
  s'.named ⊆ s.named ∧ ∀ n, s.registry.knows n = true → s'.registry.knows n = true

theorem carries_record {name : Json} {members members' : Members} (hname : name.isScalar = true) :
    Carries Knowing (record name members) (record name members') fun _ _ => True := by
  refine modify fun s s' hs => ⟨hs.1, fun n hn => ?_⟩
  rw [Registry.knows, Registry.find?_record hname] at hn ⊢
  split_ifs at hn ⊢
  · rfl
  · exact hs.2 n hn

theorem carries_claim {name : Json} :
    Carries Knowing (claim name) (claim name) fun _ _ => name.isScalar = true := by
  intro s s' u t hs hrun
  obtain ⟨hscalar, hfresh, rfl⟩ := claim_eq_ok hrun
  refine ⟨(), { s' with named := s'.named ++ [name] }, ?_, ⟨?_, hs.2⟩, hscalar⟩
  · rw [claim_run, hscalar, List.any_eq_false.2 fun m hm => Bool.eq_false_iff.1 (hfresh m (hs.1 hm))]
    rfl
  · exact List.append_subset.2 ⟨List.Subset.trans hs.1 (List.subset_append_left ..), List.subset_append_right ..⟩

/-- A reference is replaced by another that means the same. -/
theorem carries_parseReference {space : Json} {reference reference' : String}
    (hprimitive : primitives.contains reference = true → reference' = reference)
    (hname : ∀ name, primitives.contains reference = false → resolve space reference = .ok name →
      reference' = name ∧ primitives.contains name = true ∨
        primitives.contains reference' = false ∧ resolve space' reference' = .ok name) :
    Carries Knowing (parseReference false space reference) (parseReference false space' reference') (· = ·) := by
  intro s s' d t hs hrun
  by_cases hp : primitives.contains reference = true
  · rw [hprimitive hp, parseReference, if_pos hp]
    rw [parseReference, if_pos hp] at hrun
    exact pure rfl s s' d t hs hrun
  · rw [Bool.not_eq_true] at hp
    cases hresolve : resolve space reference with
    | error e =>
      rw [parseReference, if_neg (by rw [hp]; exact Bool.false_ne_true), hresolve] at hrun
      exact (throw_eq_ok.1 hrun).elim
    | ok name =>
      rw [parseReference_run hp hresolve] at hrun
      split_ifs at hrun with hknows
      · cases hrun
        refine ⟨.str name, s', ?_, hs, rfl⟩
        rcases hname name hp hresolve with ⟨rfl, hp'⟩ | ⟨hp', hresolve'⟩
        · rw [parseReference, if_pos hp']
          rfl
        · rw [parseReference_run hp' hresolve', if_pos (hs.2 name hknows)]
      · cases hrun

theorem carries_parseLeaf {schema schema' space : Json} {kept kept' : Members}
    (hname : Succeeds (fullName schema space) (fullName schema' space') fun full full' => full.2 = full'.2)
    (hvalue : Succeeds (schema.need key) (schema'.need key) (· = ·)) :
    Carries Knowing (parseLeaf schema space kept key) (parseLeaf schema' space' kept' key)
      fun d d' => kept = kept' → d = d' := by
  unfold parseLeaf
  refine (lift hname).bind ?_
  rintro ⟨_, name⟩ ⟨_, _⟩ rfl
  refine carries_claim.bind fun _ _ hscalar => (carries_record hscalar).bind fun _ _ _ => ?_
  refine (lift hvalue).bind ?_
  rintro value _ rfl
  exact (carries_record hscalar).bind fun _ _ _ => pure fun hkept => hkept ▸ rfl

def parsedRecord (hint : Bool) (named : List (String × Json)) (fields : List Json) : Json :=
  .obj (if hint then put parsedMark (.bool true) (put "fields" (.arr fields) named)
    else put "fields" (.arr fields) named)

/-- A record is parsed as another of the same name is, if its fields are. -/
theorem carries_parseRecord {parseField parseField' : Json → Json → Parse Json} {hint hint' : Bool}
    {space : Json} {members members' kept kept' : Members} {Q : Json → Json → Prop}
    (hname : Succeeds (fullName (.obj members) space) (fullName (.obj members') space') fun full full' =>
      full.2 = full'.2)
    (h : Succeeds ((lookup "fields" members).getD (.arr [])).needElements
      ((lookup "fields" members').getD (.arr [])).needElements fun fields fields' =>
        Carries Knowing (fields.mapM (parseField (normalSpace space members)))
          (fields'.mapM (parseField' (normalSpace space' members'))) (List.Forall₂ Q)) :
    Carries Knowing (parseRecord parseField hint (.obj members) space kept)
      (parseRecord parseField' hint' (.obj members') space' kept') fun d d' => ∃ name fields fields',
        d = parsedRecord hint (put "name" name kept) fields ∧
          d' = parsedRecord hint' (put "name" name kept') fields' ∧ List.Forall₂ Q fields fields' := by
  unfold parseRecord
  have hfull : Succeeds (fullName (.obj members) space) (fullName (.obj members') space') fun full full' =>
      full.1 = normalSpace space members ∧ full'.1 = normalSpace space' members' ∧ full.2 = full'.2 := by
    intro full hfull
    obtain ⟨full', hfull', heq⟩ := hname full hfull
    exact ⟨full', hfull', (fullName_eq hfull).1, (fullName_eq hfull').1, heq⟩
  refine (lift hfull).bind ?_
  rintro ⟨_, name⟩ ⟨_, _⟩ ⟨rfl, rfl, rfl⟩
  refine carries_claim.bind fun _ _ hscalar => (carries_record hscalar).bind fun _ _ _ => ?_
  refine (lift h).bind fun fields fields' hparse => hparse.bind fun parsed parsed' hall => ?_
  exact (carries_record hscalar).bind fun _ _ _ => pure ⟨name, parsed, parsed', rfl, rfl, hall⟩

/-! ### A schema and its normal form -/

variable {members members' : Members}

theorem succeeds_fullName {space : Json} (hspace : lookup "namespace" members' = none)
    (hname : lookup "name" members' = some (definedName space members)) :
    Succeeds (fullName (.obj members) space) (fullName (.obj members') (.str "")) fun full full' =>
      full.2 = full'.2 := by
  rintro ⟨inner, name⟩ hfull
  obtain ⟨rfl, rfl⟩ := fullName_eq hfull
  refine ⟨(.str "", _), ?_, rfl⟩
  rw [fullName, hname, hspace]
  rfl

theorem carries_normalField {parseType parseType' : Json → Json → Parse Json} {normalType : Json → Json → Json}
    {space field : Json}
    (h : ∀ type, field.get? "type" = some type → Carries Knowing (parseType space type)
      (parseType' (.str "") (normalType space type)) fun _ _ => True) :
    Carries Knowing (parseFieldWith parseType space field)
      (parseFieldWith parseType' (.str "") (normalField normalType space field)) fun _ _ => True := by
  cases field with
  | obj members =>
    unfold normalField parseFieldWith
    dsimp only
    rw [carriedInField_carriedInField]
    split_ifs
    · exact throw
    · refine bind_lifts fun name _ => ⟨(lookup "name" members).getD .null, ?_, ?_⟩
      · rw [need_eq_ok, lookup_put_of_ne (by decide), lookup_put_self]
      · refine bind_lifts fun type htype => ⟨_, need_eq_ok.2 (lookup_put_self ..), ?_⟩
        replace htype := need_eq_ok.1 htype
        rw [htype]
        exact (h type htype).bind fun _ _ _ => pure trivial
  | _ => exact throw

section Members

/-! The second parser is given the members of the normal form, which can have a mark besides. -/

variable {n m : Nat} {hint hint' : Bool} {space : Json} (hmembers : ∀ key, key ≠ parsedMark →
    lookup key members' = lookup key (normalMembers (normalIn n false) false space members (shapeOf members)))
include hmembers

theorem lookup_of_normal (h : key ∉ rebuilt) : lookup key members' = lookup key (kept members) := by
  rw [hmembers key (by rintro rfl; exact h (by decide)), lookup_normalMembers h]

theorem lookup_type_of_normal {type : Json} (h : lookup "type" members = some type) :
    lookup "type" members' = some type := by
  rw [lookup_of_normal hmembers (by decide), lookup_carried_type, h]
  rfl

theorem lookup_namespace_of_normal : lookup "namespace" members' = none := by
  rw [lookup_of_normal hmembers (by decide), lookup_namespace_carried]

theorem checkDecimal_normal : checkDecimal (kept members') = checkDecimal (kept members) := by
  have hkey : ∀ key ∈ ["logicalType", "scale", "precision"],
      lookup key (kept members') = lookup key (kept members) := by
    intro key hkey
    have hfree : (key ≠ "type" ∧ key ≠ "doc" ∧ key ∉ rebuilt) ∧ reserved.contains key = false := by
      simp only [List.mem_cons, List.not_mem_nil, or_false] at hkey
      rcases hkey with rfl | rfl | rfl <;> decide
    obtain ⟨⟨htype, hdoc, hrebuilt⟩, hreserved⟩ := hfree
    rw [lookup_carried htype hdoc, hreserved]
    exact lookup_of_normal hmembers hrebuilt
  unfold checkDecimal
  rw [hkey _ (by decide), hkey _ (by decide), hkey _ (by decide)]

theorem succeeds_fullName_normal (hdef : isDefinition (.obj members) = true) :
    Succeeds (fullName (.obj members) space) (fullName (.obj members') (.str "")) fun full full' =>
      full.2 = full'.2 :=
  succeeds_fullName (lookup_namespace_of_normal hmembers)
    ((hmembers _ (by decide)).trans (lookup_normalMembers_name.trans (if_pos hdef)))

theorem carries_normalLeaf {kept kept' : Members} (hshape : shapeOf members = .leaf key) :
    Carries Knowing (parseLeaf (.obj members) space kept key) (parseLeaf (.obj members') (.str "") kept' key)
      fun _ _ => True := by
  have hmark : key ≠ parsedMark := by rcases key_of_leaf hshape with rfl | rfl <;> decide
  refine (carries_parseLeaf (succeeds_fullName_normal hmembers (by rw [isDefinition_obj, hshape])) fun x hx =>
    ⟨x, need_eq_ok.2 ?_, rfl⟩).imp fun _ _ _ => trivial
  rw [hmembers _ hmark, lookup_normalMembers_leaf hshape (need_eq_ok.1 hx)]

variable (hdepth : depthMembers members' < m)
  (ih : ∀ {space schema}, (normalIn n false space schema).depth < m →
    Carries Knowing (parseIn n false false space schema)
      (parseIn m false false (.str "") (normalIn n false space schema)) fun _ _ => True)
include hdepth ih

theorem carries_normalRecord {kept kept' : Members} (hshape : shapeOf members = .record) :
    Carries Knowing (parseRecord (parseFieldWith (parseIn n false false)) hint (.obj members) space kept)
      (parseRecord (parseFieldWith (parseIn m false false)) hint' (.obj members') (.str "") kept')
      fun _ _ => True := by
  have hfields' := (hmembers "fields" (by decide)).trans (lookup_normalMembers_record hshape).2
  refine (carries_parseRecord (Q := fun _ _ => True) (succeeds_fullName_normal hmembers
    (by rw [isDefinition_obj, hshape])) fun fields hfields => ⟨_, by rw [hfields']; rfl, ?_⟩).imp fun _ _ _ => trivial
  rw [normalSpace.eq_def (.str ""), lookup_namespace_of_normal hmembers, ← fieldList_of_needElements hfields]
  refine mapM (R := fun x y => y = normalField (normalIn n false) (normalSpace space members) x)
    (List.forall₂_map_right_iff.2 (List.forall₂_same.2 fun _ _ => rfl)) ?_
  rintro field - _ hmem rfl
  refine carries_normalField fun type htype => ih (Nat.lt_of_le_of_lt ?_ hdepth)
  have hfield := mem_fieldTypes (show _ ∈ fieldList members' by rw [fieldList, hfields']; exact hmem)
  have hparsed : (normalField (normalIn n false) (normalSpace space members) field).get? "type" =
      some (normalIn n false (normalSpace space members) type) := by
    cases field with
    | obj inner => rw [normalField, Json.get?, lookup_put_self, show lookup "type" inner = some type from htype]; rfl
    | _ => cases htype
  rw [hparsed] at hfield
  exact depth_le_of_mem_fieldTypes hfield

theorem carries_members :
    Carries Knowing (parseIn (n + 1) false hint space (.obj members))
      (parseIn (m + 1) false hint' (.str "") (.obj members')) fun _ _ => True := by
  rw [parseIn_obj, parseIn_obj]
  refine bind_lifts fun type htype => ?_
  replace htype := need_eq_ok.1 htype
  have htype' := lookup_type_of_normal hmembers htype
  have hsame : shapeOf members' = shapeOf members := by rw [shapeOf, htype', shapeOf, htype]
  refine ⟨type, need_eq_ok.2 htype', bind_lifts fun _ hok =>
    ⟨(), (checkDecimal_normal hmembers).trans hok, ?_⟩⟩
  rw [hsame]
  cases hshape : shapeOf members with
  | container key =>
    have hmark : key ≠ parsedMark := by rcases key_of_container hshape with rfl | rfl <;> decide
    refine bind_lifts fun x hx => ?_
    have hx' := (hmembers key hmark).trans (lookup_normalMembers_container hshape (need_eq_ok.1 hx))
    refine ⟨_, need_eq_ok.2 hx', ?_⟩
    exact (ih ((depth_le_of_lookup hx').trans_lt hdepth)).bind fun _ _ _ => pure trivial
  | leaf key => exact carries_normalLeaf hmembers hshape
  | record => exact carries_normalRecord hmembers hdepth ih hshape
  | plain =>
    rw [parseMembers, parseMembers, htype, htype']
    split_ifs
    · exact pure trivial
    · exact throw
    · exact throw

end Members

/-- The normal form of a schema can be parsed, if the schema can. -/
theorem carries_normalIn {n m : Nat} {space schema : Json} (hdepth : (normalIn n false space schema).depth < m) :
    Carries Knowing (parseIn n false false space schema)
      (parseIn m false false (.str "") (normalIn n false space schema)) fun _ _ => True := by
  induction n generalizing m space schema with
  | zero => exact throw
  | succ n ih =>
    obtain ⟨m, rfl⟩ : ∃ k, m = k + 1 := ⟨m - 1, by omega⟩
    cases schema with
    | arr branches =>
      rw [normalIn, depth] at hdepth
      have hbranches : Carries Knowing (branches.mapM (parseIn n false false space))
          ((branches.map (normalIn n false space)).mapM (parseIn m false false (.str "")))
          (List.Forall₂ fun _ _ => True) := by
        refine mapM (R := fun x y => y = normalIn n false space x)
          (List.forall₂_map_right_iff.2 (List.forall₂_same.2 fun _ _ => rfl)) ?_
        rintro branch - _ hmem rfl
        exact ih (Nat.lt_of_le_of_lt (depth_le_of_mem_items hmem) (Nat.lt_of_succ_lt_succ hdepth))
      exact hbranches.bind fun _ _ _ => pure trivial
    | str reference =>
      refine (carries_parseReference (fun hp => ?_) fun name hp hname => ?_).imp fun _ _ _ => trivial
      · rw [normalName, hp]
        rfl
      · rw [normalName_of_resolve hp hname]
        by_cases hname : primitives.contains name = true
        · exact .inl ⟨rfl, hname⟩
        · exact .inr ⟨Bool.eq_false_iff.2 hname, if_pos (Bool.or_true _)⟩
    | obj members =>
      rw [normalIn_obj] at hdepth ⊢
      exact carries_members (fun _ _ => rfl) (Nat.lt_of_succ_lt_succ hdepth) ih
    | _ => exact throw

/-! ### The second attempt -/

theorem carries_hinted {n m : Nat} {hint hint' : Bool} {space schema : Json}
    (hdepth : (normalIn (n + 1) hint space schema).depth < m) :
    Carries Knowing (parseIn (n + 1) false hint space schema)
      (parseIn m false hint' (.str "") (normalIn (n + 1) hint space schema)) fun _ _ => True := by
  obtain ⟨m, rfl⟩ : ∃ k, m = k + 1 := ⟨m - 1, by omega⟩
  cases schema with
  | arr branches => exact @carries_normalIn (n + 1) (m + 1) space (.arr branches) hdepth
  | str reference => exact @carries_normalIn (n + 1) (m + 1) space (.str reference) hdepth
  | obj members =>
    rw [normalIn_obj] at hdepth ⊢
    exact carries_members (fun _ hkey => lookup_normalMembers_hint hkey _) (Nat.lt_of_succ_lt_succ hdepth)
      carries_normalIn
  | _ => exact throw

theorem exists_parseWith_again {hint : Bool} {space schema : Json} {s t u : Parsing}
    (h : parseWith false hint space schema s = (.ok d, t)) (hu : Knowing s u) (hint' : Bool) :
    ∃ d' u', parseWith false hint' (.str "") d u = (.ok d', u') := by
  have hd : normalIn (schema.depth + 1) hint space schema = d := (parseIn_eq h).symm
  have hcarries := @carries_hinted schema.depth (d.depth + 1) hint hint' space schema (hd ▸ Nat.lt_succ_self _)
  rw [hd] at hcarries
  obtain ⟨d', u', hagain, -, -⟩ := hcarries s u d t hu h
  exact ⟨d', u', hagain⟩

theorem lookup_carried_congr {ms ms' : Members} {other : String} (hother : other ≠ "doc")
    (h : ∀ key, key ≠ other → lookup key ms = lookup key ms') (hkey : key ≠ other) (type : Json) :
    lookup key (carried ms type) = lookup key (carried ms' type) := by
  have hkept : lookup key (ms.filter fun m => !reserved.contains m.1) =
      lookup key (ms'.filter fun m => !reserved.contains m.1) := by
    rw [lookup_filter fun k => !reserved.contains k, lookup_filter fun k => !reserved.contains k, h key hkey]
  unfold carried
  rw [h "doc" (Ne.symm hother)]
  cases lookup "doc" ms' with
  | none => exact lookup_put_congr hkept ..
  | some doc => exact lookup_put_congr (lookup_put_congr hkept ..) ..

theorem lookup_normalMembers_marked {normalType : Json → Json → Json} {space value : Json} (hkey : key ≠ parsedMark) :
    lookup key (normalMembers normalType false space (put parsedMark value members) .record) =
      lookup key (normalMembers normalType false space members .record) := by
  have hlookup : ∀ key, key ≠ parsedMark → lookup key (put parsedMark value members) = lookup key members :=
    fun key hkey => lookup_put_of_ne hkey ..
  have hspace : normalSpace space (put parsedMark value members) = normalSpace space members := by
    rw [normalSpace, normalSpace, hlookup _ (by decide)]
  have hfields : fieldList (put parsedMark value members) = fieldList members := by
    rw [fieldList, fieldList, hlookup _ (by decide)]
  rw [normalMembers, normalMembers, hspace, hfields]
  refine lookup_put_congr ?_ ..
  rw [withName, withName, hspace, hlookup "name" (by decide), hlookup "type" (by decide)]
  exact lookup_put_congr (lookup_carried_congr (by decide) hlookup hkey _) ..

theorem sameMembers_normalIn {n : Nat} {hint : Bool} {space schema : Json} (h : schema.depth < n + 1) (m : Nat) :
    (normalIn (m + 1) hint (.str "") (normalIn (n + 1) hint space schema)).SameMembers
      (normalIn (n + 1) hint space schema) := by
  have htwice := normalIn_normalIn space h (m + 1)
  cases hint with
  | false => exact .of_eq htwice
  | true =>
    cases schema with
    | obj members =>
      rw [normalIn_obj, normalIn_obj, shapeOf_normalMembers] at htwice ⊢
      cases hshape : shapeOf members with
      | record =>
        rw [hshape] at htwice
        refine .members fun key => ?_
        by_cases hkey : key = parsedMark
        · exact hkey ▸ (lookup_put_self ..).trans (lookup_put_self ..).symm
        · calc
            _ = _ := lookup_normalMembers_hint hkey .record
            _ = _ := lookup_normalMembers_marked hkey
            _ = _ := congrArg (lookup key) (Json.obj.inj htwice)
            _ = _ := (lookup_normalMembers_hint hkey .record).symm
      | _ =>
        rw [hshape] at htwice
        exact .of_eq htwice
    | _ => exact .of_eq htwice

theorem inner_of_sameMembers {d' : Json} (h : d.SameMembers d') : inner d = inner d' := by
  cases h with
  | refl => rfl
  | members h => simp only [inner, fieldTypes, fieldList, h]

theorem Completes.again {d d' : Json} {ds : List Json} {s t u : Parsing} (hsame : d'.SameMembers d)
    (h : Completes (d :: ds) s t) (h' : Completes (d' :: ds) ⟨t.registry, []⟩ u) (n : Json) :
    Option.Rel SameMembers (u.registry.find? n) (t.registry.find? n) := by
  by_cases hn : ∀ m ∈ definedNames (d' :: ds), m.same n = false
  · rw [h'.kept n hn]
    cases t.registry.find? n with
    | none => exact .none
    | some x => exact .some (.refl x)
  · push Not at hn
    obtain ⟨_, hm, hn⟩ := hn
    obtain ⟨x, hx, rfl⟩ := List.mem_map.1 hm
    obtain ⟨hx, hdef⟩ := List.mem_filter.1 hx
    replace hn : (nameOf x).same n = true := by simpa using hn
    rw [h'.recorded x hx hdef n hn]
    rcases List.mem_cons.1 hx with rfl | hx
    · rw [isDefinition, hsame.get?] at hdef
      rw [nameOf, hsame.get?] at hn
      rw [h.recorded d List.mem_cons_self hdef n hn]
      exact .some hsame
    · rw [h.recorded x (List.mem_cons_of_mem _ hx) hdef n hn]
      exact .some (.refl x)

theorem exists_parseFresh_again {hint : Bool} {schema : Json}
    (h : parseFresh false hint schema r = (.ok d, t)) (hu : ∀ n, r.knows n = true → u.knows n = true) :
    ∃ d' u', parseFresh false hint d u = (.ok d', u') := by
  obtain ⟨s, hrun, -⟩ := parseFresh_eq_iff.1 h
  obtain ⟨d', u', hagain⟩ := exists_parseWith_again (u := ⟨u, []⟩) hrun ⟨List.Subset.refl _, hu⟩ hint
  exact ⟨d', _, parseFresh_eq_iff.2 ⟨u', hagain, rfl⟩⟩

theorem exists_mapM_again {f g : Json → WithRegistry Json} {xs ys : List Json}
    (hkeeps : ∀ x r y t, f x r = (.ok y, t) → Learns r [] t)
    (hf : ∀ x ∈ xs, ∀ y ∈ ys, ∀ r t u, f x r = (.ok y, t) → (∀ n, t.knows n = true → u.knows n = true) →
      ∃ z u', g y u = (.ok z, u') ∧ Learns u [] u')
    (h : xs.mapM f r = (.ok ys, t)) (hu : ∀ n, t.knows n = true → u.knows n = true) :
    ∃ zs u', ys.mapM g u = (.ok zs, u') := by
  induction xs generalizing r ys u with
  | nil =>
    obtain ⟨rfl, rfl⟩ := pure_eq_ok.1 (by rwa [List.mapM_nil] at h)
    exact ⟨[], u, rfl⟩
  | cons x xs ih =>
    simp only [List.mapM_cons, bind_eq_ok, pure_eq_ok] at h ⊢
    obtain ⟨y, r₁, hy, ys, r₂, hys, rfl, rfl⟩ := h
    have hkept := (learns_mapM (fun x _ r y t => hkeeps x r y t) hys).1
    obtain ⟨z, u₁, hz, hu₁⟩ := hf x List.mem_cons_self y List.mem_cons_self r r₁ u hy fun n hn => hu n (hkept n hn)
    obtain ⟨zs, u', hzs⟩ := ih (fun x hx y hy => hf x (List.mem_cons_of_mem _ hx) y (List.mem_cons_of_mem _ hy)) hys
      fun n hn => hu₁.1 n (hu n hn)
    refine ⟨z :: zs, u', ?_⟩
    simp only [List.mapM_cons, bind_eq_ok, pure_eq_ok]
    exact ⟨z, u₁, hz, zs, u', hzs, rfl, rfl⟩

theorem exists_parseTop_of_fresh {k : Nat} (hd : ∀ branches, d ≠ .arr branches)
    (h : ∃ d' u', parseFresh false true d u = (.ok d', u')) : ∃ d' u', parseTop (k + 1) {} d u = (.ok d', u') := by
  cases d with
  | arr branches => exact absurd rfl (hd branches)
  | obj members =>
    simp only [parseTop, Bool.or_self, Bool.false_eq_true, if_false]
    split_ifs
    · exact ⟨.obj members, u, rfl⟩
    · exact h
  | _ => exact h

theorem exists_parseTop_again {depth k : Nat} {schema : Json}
    (h : parseTop depth {} schema r = (.ok d, t)) (hu : ∀ n, t.knows n = true → u.knows n = true) (hk : d.depth < k) :
    ∃ d' u', parseTop k {} d u = (.ok d', u') := by
  induction depth generalizing k schema d r t u with
  | zero => exact (throw_eq_ok.1 h).elim
  | succ depth ih =>
    obtain ⟨k, rfl⟩ : ∃ j, k = j + 1 := ⟨k - 1, by omega⟩
    have hkept := (learns_parseTop (k := 0) h).1
    have hfresh : ∀ {schema : Json}, (∀ branches, schema ≠ .arr branches) →
        parseFresh false true schema r = (.ok d, t) → ∃ d' u', parseTop (k + 1) {} d u = (.ok d', u') := by
      intro schema hschema h
      refine exists_parseTop_of_fresh (parseFresh_ne_arr hschema h) (exists_parseFresh_again h ?_)
      exact fun n hn => hu n (hkept n hn)
    simp only [parseTop, Bool.or_self, Bool.false_eq_true, if_false] at h
    split at h
    · split_ifs at h with hmark
      · obtain ⟨rfl, rfl⟩ := pure_eq_ok.1 h
        simp only [parseTop, Bool.or_self, Bool.false_eq_true, if_false, hmark, if_true]
        exact ⟨_, u, rfl⟩
      · exact hfresh (by rintro _ ⟨⟩) h
    · obtain ⟨ds, t, hds, hd⟩ := bind_eq_ok.1 h
      obtain ⟨rfl, rfl⟩ := pure_eq_ok.1 hd
      have hagain : ∃ ds' u', ds.mapM (parseTop k {}) u = (.ok ds', u') := by
        refine exists_mapM_again (fun x r y t hy => learns_parseTop (k := 0) hy)
          (fun x _ y hmem r t u hy hu => ?_) hds hu
        have hdepth := Nat.lt_of_le_of_lt (depth_le_of_mem_items hmem) (Nat.lt_of_succ_lt_succ hk)
        obtain ⟨z, u', hz⟩ := ih hy hu hdepth
        exact ⟨z, u', hz, learns_parseTop (k := 0) hz⟩
      obtain ⟨ds', u', hds'⟩ := hagain
      exact ⟨.arr ds', u', bind_eq_ok.2 ⟨ds', u', hds', rfl⟩⟩
    · rename_i harr
      exact hfresh harr h

theorem exists_parse_again {schema : Json} (h : parseOpen schema r = (.ok d, t)) :
    ∃ t', parse d {} t = (.ok d, t') := by
  obtain ⟨r', hparse⟩ := exists_parse_of_retry h
  obtain ⟨d', t', hagain⟩ := exists_parseTop_again hparse (fun _ => id) (Nat.lt_succ_self _)
  have hd : d' = d := by rw [parse_eq hagain, parse_eq hparse, normal_normal]
  exact ⟨t', hd ▸ hagain⟩

/-- Parsing is idempotent: what an attempt has given is parsed to itself, but for the order of members, and all
definitions stay what they are. -/
theorem parseFresh_again {hint : Bool} {schema d : Json} {r t : Registry}
    (h : parseFresh false hint schema r = (.ok d, t)) :
    ∃ d' t', parseFresh false hint d t = (.ok d', t') ∧ d'.SameMembers d ∧
      ∀ n, Option.Rel SameMembers (t'.find? n) (t.find? n) := by
  obtain ⟨s, hrun, rfl⟩ := parseFresh_eq_iff.1 h
  have hkeeps : Knowing ⟨r, []⟩ ⟨s.registry, []⟩ :=
    ⟨List.Subset.refl _, fun n hn => (completes_parseIn hrun (Nat.lt_succ_self _)).keeps hn⟩
  obtain ⟨d', s', hagain⟩ := exists_parseWith_again hrun hkeeps hint
  have hsame := @sameMembers_normalIn schema.depth hint (.str "") schema (Nat.lt_succ_self _) d.depth
  rw [← show d = normalIn (schema.depth + 1) hint (.str "") schema from parseIn_eq hrun, ← parseIn_eq hagain] at hsame
  refine ⟨d', s'.registry, parseFresh_eq_iff.2 ⟨s', hagain, rfl⟩, hsame, fun n => ?_⟩
  have h₁ := completes_parseIn hrun (show d.depth < d.depth + d'.depth + 1 by omega)
  have h₂ := completes_parseIn hagain (show d'.depth < d.depth + d'.depth + 1 by omega)
  rw [schemas] at h₁ h₂
  rw [inner_of_sameMembers hsame] at h₂
  exact h₁.again hsame h₂ n

def forest : Json :=
  .obj [("type", .str "record"), ("name", .str "Forest"), ("namespace", .str "wood"), ("fields", .arr [
    .field "trees" (.obj [("type", .str "array"), ("items", tree)])])]

theorem forest_again : ∃ d t d' t', parseFresh false true forest [] = (.ok d, t) ∧
    parseFresh false true d t = (.ok d', t') ∧ d'.SameMembers d ∧
      ∀ n, Option.Rel SameMembers (t'.find? n) (t.find? n) := by
  obtain ⟨d, t, h⟩ : ∃ d t, parseFresh false true forest [] = (.ok d, t) := ⟨_, _, rfl⟩
  obtain ⟨d', t', hagain⟩ := parseFresh_again h
  exact ⟨d, t, d', t', h, hagain⟩

end Schema

end AvroCodec
