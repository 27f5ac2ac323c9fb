import AvroCodec.Proofs.Dict
import AvroCodec.Proofs.Form
import AvroCodec.Proofs.Normal

/-!
# Definitions and their forms

A schema and its normal form have the same form. In a store where every name stands for one definition
only, loading a name gives a document of the form that is stored under the name, whatever the context.
-/

namespace AvroCodec

open Json

namespace Json

variable {members : Members} {key : String} {value : Json}

theorem put_eq_putIn (key : String) (value : Json) (members : Members) :
    put key value members = Value.putIn key value members := by
  induction members with
  | nil => rfl
  | cons m rest ih => rw [put, Value.putIn, ih]

theorem mem_put {m : String × Json} (h : m ∈ put key value members) : m = (key, value) ∨ m ∈ members := by
  rw [put_eq_putIn] at h
  exact Value.mem_putIn h

theorem mem_of_lookup {x : Json} (h : lookup key members = some x) : (key, x) ∈ members := by
  induction members with
  | nil => cases h
  | cons m rest ih =>
    obtain ⟨k, y⟩ := m
    by_cases hk : k = key
    · simp only [lookup, hk, if_true, Option.some.injEq] at h
      rw [hk, h]
      exact List.mem_cons_self
    · simp only [lookup, hk, if_false] at h
      exact List.mem_cons_of_mem _ (ih h)

theorem depth_getD_le (key : String) (members : Members) :
    ((lookup key members).getD .null).depth ≤ depthMembers members := by
  cases h : lookup key members with
  | none => exact Nat.zero_le _
  | some x => exact depth_le_of_lookup h

theorem filter_put {p : String → Bool} (h : p key = false) (value : Json) (members : Members) :
    (put key value members).filter (fun m => p m.1) = members.filter fun m => p m.1 := by
  induction members with
  | nil => simp [put, h]
  | cons m rest ih =>
    obtain ⟨k, v⟩ := m
    rw [put]
    split_ifs with hk
    · rw [List.filter_cons_of_neg (by simp [hk, h]), List.filter_cons_of_neg (by simp [hk, h])]
    · rw [List.filter_cons, List.filter_cons, ih]

end Json

namespace Schema

variable {space d : Json} {f : Form} {depth : Nat} {hint : Bool} {key s : String}

theorem lookup_filter (p : String → Bool) (key : String) (members : Members) :
    lookup key (members.filter fun m => p m.1) =
      if p key then lookup key members else none := by
  induction members with
  | nil => simp [lookup]
  | cons m rest ih =>
    obtain ⟨k, x⟩ := m
    rw [List.filter_cons]
    by_cases hk : k = key
    · subst hk
      by_cases hp : p k = true
      · simp [hp, lookup]
      · simp only [hp, Bool.false_eq_true, if_false] at ih ⊢
        exact ih
    · by_cases hp : p k = true
      · simp only [hp, if_true, lookup, if_neg hk, ih]
      · simp only [hp, Bool.false_eq_true, if_false, lookup, if_neg hk, ih]

theorem lookup_carried_type (members : Members) (type : Json) :
    lookup "type" (carried members type) = some type := by
  unfold carried
  cases lookup "doc" members with
  | none => exact lookup_put_self ..
  | some doc =>
    rw [lookup_put_of_ne (by decide)]
    exact lookup_put_self ..

theorem lookup_carried (ht : key ≠ "type") (hd : key ≠ "doc") (members : Members) (type : Json) :
    lookup key (carried members type) =
      if reserved.contains key then none else lookup key members := by
  have hkept := lookup_filter (fun k => !reserved.contains k) key members
  unfold carried
  cases lookup "doc" members with
  | none =>
    rw [lookup_put_of_ne ht, hkept]
    cases reserved.contains key <;> rfl
  | some doc =>
    rw [lookup_put_of_ne hd, lookup_put_of_ne ht, hkept]
    cases reserved.contains key <;> rfl

theorem mem_carried {m : String × Json} {members : Members} {type : Json}
    (h : m ∈ carried members type) :
    m = ("type", type) ∨ m ∈ members ∧ (m.1 = "doc" ∨ reserved.contains m.1 = false) := by
  have htyped : m ∈ put "type" type (members.filter fun m => !reserved.contains m.1) →
      m = ("type", type) ∨ m ∈ members ∧ (m.1 = "doc" ∨ reserved.contains m.1 = false) := by
    intro h
    refine (mem_put h).imp_right fun h => ?_
    obtain ⟨hm, hkey⟩ := List.mem_filter.1 h
    exact ⟨hm, .inr (by simpa using hkey)⟩
  unfold carried at h
  split at h
  next doc hdoc =>
    rcases mem_put h with rfl | h
    · exact .inr ⟨mem_of_lookup hdoc, .inl rfl⟩
    · exact htyped h
  next => exact htyped h

section InField

variable {members : Members}

theorem carriedInField_induct {P : List (String × Json) → Prop}
    (hkept : P (members.filter fun m => !reservedInFields.contains m.1))
    (hoption : ∀ {option value ms}, option ∈ fieldOptions → lookup option members = some value → P ms →
      P (put option value ms)) : P (carriedInField members) := by
  unfold carriedInField
  refine List.foldlRecOn (motive := P) fieldOptions _ hkept fun ms hms option hmem => ?_
  split
  next value hvalue => exact hoption hmem hvalue hms
  next => exact hms

theorem mem_carriedInField {m : String × Json} (h : m ∈ carriedInField members) : m ∈ members ∧ m.1 ≠ "type" := by
  refine carriedInField_induct (P := fun ms => ∀ m ∈ ms, m ∈ members ∧ m.1 ≠ "type") ?_ ?_ m h
  · intro m hm
    obtain ⟨hm, hkey⟩ := List.mem_filter.1 hm
    refine ⟨hm, fun htype => ?_⟩
    rw [htype] at hkey
    cases hkey
  · intro option value ms hmem hvalue hms m hm
    rcases mem_put hm with rfl | hm
    · refine ⟨mem_of_lookup hvalue, fun htype : option = "type" => ?_⟩
      exact absurd (htype ▸ hmem) (by decide)
    · exact hms m hm

theorem lookup_carriedInField (h : key ∉ ["type", "name"]) (members : Members) :
    lookup key (carriedInField members) = lookup key members := by
  have hkept := fun key => lookup_filter (fun k => !reservedInFields.contains k) key members
  by_cases hoption : key ∈ fieldOptions
  · have hnone : ∀ key ∈ fieldOptions,
        lookup key (members.filter fun m => !reservedInFields.contains m.1) = none := by
      intro key hkey
      have hreserved : reservedInFields.contains key = true :=
        List.contains_iff_mem.2 (List.mem_cons_of_mem _ (List.mem_cons_of_mem _ hkey))
      rw [hkept, hreserved]
      rfl
    unfold carriedInField
    simp only [fieldOptions, List.foldl_cons, List.foldl_nil, List.mem_cons, List.not_mem_nil,
      or_false] at hnone hoption ⊢
    rcases hoption with rfl | rfl | rfl <;> cases hdoc : lookup "doc" members <;>
      cases haliases : lookup "aliases" members <;>
      cases hdefault : lookup "default" members <;>
      simp (disch := decide) only [lookup_put_self, lookup_put_of_ne, hnone]
  · refine carriedInField_induct (P := fun ms => lookup key ms = lookup key members) ?_ ?_
    · rw [hkept, if_pos]
      rw [reservedInFields]
      simp_all
    · rintro option value ms hmem - hms
      rw [lookup_put_of_ne (by rintro rfl; exact hoption hmem), hms]

end InField

theorem normalName_of_ofName (h : Form.ofName s = some f) : normalName space s = s := by
  unfold Form.ofName at h
  unfold normalName
  split_ifs at h with hnull hbasic hdot
  · subst hnull
    rfl
  · have hprimitive : primitives.contains s = true := by
      rcases Form.mem_basicTypes hbasic with rfl | rfl | rfl | rfl | rfl | rfl | rfl <;> rfl
    simp only [hprimitive, Bool.true_or, if_true]
  · simp only [hdot, Bool.or_true, Bool.true_or, if_true]

section Members

variable {members : Members} {normalType : Json → Json → Json}

theorem key_of_container (h : shapeOf members = .container key) : key = "items" ∨ key = "values" := by
  unfold shapeOf at h
  split at h <;> cases h <;> simp

theorem key_of_leaf (h : shapeOf members = .leaf key) : key = "symbols" ∨ key = "size" := by
  unfold shapeOf at h
  split at h <;> cases h <;> simp

def rebuilt : List String := ["items", "values", "name", "symbols", "size", "fields", parsedMark]

theorem lookup_normalMembers (h : key ∉ rebuilt) :
    lookup key (normalMembers normalType hint space members (shapeOf members)) =
      lookup key (kept members) := by
  have hput : ∀ {other : String} {value : Json} {ms : Members}, other ∈ rebuilt →
      lookup key (put other value ms) = lookup key ms := by
    intro other value ms hother
    exact lookup_put_of_ne (by rintro rfl; exact h hother) ..
  have hnamed : lookup key (withName space members) = lookup key (kept members) := hput (by decide)
  cases hshape : shapeOf members with
  | container other => rcases key_of_container hshape with rfl | rfl <;> exact hput (by decide)
  | leaf other => rcases key_of_leaf hshape with rfl | rfl <;> exact (hput (by decide)).trans hnamed
  | record =>
    rw [normalMembers]
    split_ifs
    · rw [hput (by decide), hput (by decide), hnamed]
    · rw [hput (by decide), hnamed]
  | plain => rfl

theorem lookup_normalMembers_record (h : shapeOf members = .record) :
    let ms := normalMembers normalType hint space members (shapeOf members)
    lookup "name" ms = some (qualify (normalSpace space members) ((lookup "name" members).getD .null)) ∧
      lookup "fields" ms =
        some (.arr ((fieldList members).map (normalField normalType (normalSpace space members)))) := by
  rw [h]
  cases hint <;>
    simp (disch := decide) [normalMembers, withName, lookup_put_self, lookup_put_of_ne]

theorem lookup_normalMembers_hint (h : key ≠ parsedMark) (shape : Shape) :
    lookup key (normalMembers normalType hint space members shape) =
      lookup key (normalMembers normalType false space members shape) := by
  cases hint with
  | false => rfl
  | true =>
    cases shape with
    | record => exact lookup_put_of_ne h ..
    | _ => rfl

theorem lookup_normalMembers_container {x : Json} (h : shapeOf members = .container key)
    (hx : lookup key members = some x) :
    lookup key (normalMembers normalType hint space members (shapeOf members)) = some (normalType space x) := by
  rw [h, normalMembers, lookup_put_self, hx, Option.getD_some]

theorem lookup_normalMembers_leaf {x : Json} (h : shapeOf members = .leaf key) (hx : lookup key members = some x) :
    lookup key (normalMembers normalType hint space members (shapeOf members)) = some x := by
  rw [h, normalMembers, lookup_put_self, hx, Option.getD_some]

theorem lookup_normalMembers_type {type : Json} (h : lookup "type" members = some type) :
    lookup "type" (normalMembers normalType hint space members (shapeOf members)) = some type := by
  rw [lookup_normalMembers (by decide), lookup_carried_type, h]
  rfl

end Members

theorem exists_normalIn_obj (depth : Nat) (hint : Bool) (space : Json)
    (members : Members) :
    ∃ members', normalIn depth hint space (.obj members) = .obj members' := by
  cases depth with
  | zero => exact ⟨members, rfl⟩
  | succ depth => exact ⟨_, normalIn_obj depth hint space members⟩

theorem exists_normalIn_arr (depth : Nat) (hint : Bool) (space : Json) (items : List Json) :
    ∃ items', normalIn depth hint space (.arr items) = .arr items' := by
  cases depth with
  | zero => exact ⟨items, rfl⟩
  | succ depth => exact ⟨_, rfl⟩

theorem normalIn_str (depth : Nat) (hint : Bool) (space : Json)
    (h : form? (.str s) = some f) : normalIn depth hint space (.str s) = .str s := by
  cases depth with
  | zero => rfl
  | succ depth => exact congrArg str (normalName_of_ofName h)

theorem givenDefault_normalIn {type : Json} {members members' : Members}
    (hdefault : lookup "default" members' = lookup "default" members)
    (htype : lookup "type" members = some type)
    (htype' : lookup "type" members' = some (normalIn depth hint space type))
    (hf : form? type = some f) : Form.givenDefault members' = Form.givenDefault members := by
  unfold Form.givenDefault
  rw [hdefault, htype, htype']
  cases type with
  | obj o =>
    obtain ⟨o', ho⟩ := exists_normalIn_obj depth hint space o
    rw [ho]
  | arr l =>
    obtain ⟨l', hl⟩ := exists_normalIn_arr depth hint space l
    rw [hl]
  | str s => rw [normalIn_str depth hint space hf]
  | _ => cases hf

theorem field?_normalField {field : Field Form}
    (ih : ∀ type f, form? type = some f → form? (normalIn depth false space type) = some f)
    (h : field? d = some field) :
    field? (normalField (normalIn depth false) space d) = some field := by
  cases d with
  | obj members =>
    obtain ⟨hname, hfield, hlogical, hdefault, type, htype, hf⟩ := field?_eq_some_iff.1 h
    simp only [normalField, hname, htype, Option.getD_some]
    rw [field?_eq_some_iff]
    refine ⟨?_, hfield, ?_, ?_, normalIn depth false space type, lookup_put_self ..,
      ih _ _ hf⟩
    · rw [lookup_put_of_ne (by decide), lookup_put_self]
    · rw [lookup_put_of_ne (by decide), lookup_put_of_ne (by decide),
        lookup_carriedInField (by decide), hlogical]
    · rw [← hdefault]
      refine givenDefault_normalIn ?_ htype (lookup_put_self ..) hf
      rw [lookup_put_of_ne (by decide), lookup_put_of_ne (by decide),
        lookup_carriedInField (by decide)]
  | _ => cases h

/-- A schema and its normal form have the same form. -/
theorem form?_normalIn (h : form? d = some f) : form? (normalIn depth hint space d) = some f := by
  induction depth generalizing hint space d f with
  | zero => exact h
  | succ depth ih =>
    cases d with
    | str s => rw [normalIn_str (depth + 1) hint space h, h]
    | arr types =>
      rw [form?, Option.map_eq_some_iff] at h
      obtain ⟨fs, hfs, rfl⟩ := h
      rw [forms?_eq_some_iff] at hfs
      have hfs' : forms? (types.map (normalIn depth false space)) = some fs := by
        rw [forms?_eq_some_iff, List.forall₂_map_left_iff]
        exact hfs.imp fun _ _ => ih
      rw [normalIn, form?, hfs']
      rfl
    | obj members =>
      obtain ⟨hl, hdescribes⟩ := describes_of_form? h
      rw [normalIn_obj]
      refine form?_of_describes ?_ ?_
      · rw [lookup_normalMembers (by decide), lookup_carried (by decide) (by decide), hl]
        rfl
      cases hdescribes with
      | @record items fields ht hf hfields =>
        have hshape : shapeOf members = .record := by rw [shapeOf, ht]; rfl
        have hlist : fieldList members = items := by rw [fieldList, hf]; rfl
        refine .record (lookup_normalMembers_type ht) (lookup_normalMembers_record hshape).2 ?_
        rw [hlist, List.forall₂_map_left_iff]
        exact hfields.imp fun _ _ => field?_normalField fun _ _ => ih
      | array ht hi hitems =>
        have hshape : shapeOf members = .container "items" := by rw [shapeOf, ht]; rfl
        exact .array (lookup_normalMembers_type ht) (lookup_normalMembers_container hshape hi) (ih hitems)
      | map ht hv hvalues =>
        have hshape : shapeOf members = .container "values" := by rw [shapeOf, ht]; rfl
        exact .map (lookup_normalMembers_type ht) (lookup_normalMembers_container hshape hv) (ih hvalues)
      | enum ht hs =>
        have hshape : shapeOf members = .leaf "symbols" := by rw [shapeOf, ht]; rfl
        exact .enum (lookup_normalMembers_type ht) (lookup_normalMembers_leaf hshape hs)
      | fixed ht hs hn =>
        have hshape : shapeOf members = .leaf "size" := by rw [shapeOf, ht]; rfl
        exact .fixed (lookup_normalMembers_type ht) (lookup_normalMembers_leaf hshape hs) hn
      | @basic s ht hb hn =>
        have hshape : shapeOf members = .plain := by
          rcases Form.mem_basicTypes hb with rfl | rfl | rfl | rfl | rfl | rfl | rfl <;> rw [shapeOf, ht] <;> rfl
        refine .basic (lookup_normalMembers_type ht) hb ?_
        rw [hshape, normalMembers, lookup_carried (by decide) (by decide)]
        rfl
    | _ => cases h

theorem form?_normalTop (h : form? d = some f) :
    form? (normalTop depth d) = some f := by
  induction depth generalizing d f with
  | zero => exact h
  | succ depth ih =>
    cases d with
    | obj members =>
      rw [normalTop]
      split_ifs
      · exact h
      · exact form?_normalIn h
    | arr types =>
      rw [form?, Option.map_eq_some_iff] at h
      obtain ⟨fs, hfs, rfl⟩ := h
      rw [forms?_eq_some_iff] at hfs
      have hfs' : forms? (types.map (normalTop depth)) = some fs := by
        rw [forms?_eq_some_iff, List.forall₂_map_left_iff]
        exact hfs.imp fun _ _ => ih
      rw [normalTop, form?, hfs']
      rfl
    | _ => exact form?_normalIn h

theorem form?_of_parseOpen {schema : Json} {r r' : Registry} (hf : form? schema = some f)
    (h : parseOpen schema r = (.ok d, r')) : form? d = some f := by
  rw [parseOpen_eq h]
  exact form?_normalTop hf

end Schema

end AvroCodec
