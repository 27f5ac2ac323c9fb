import AvroCodec.Proofs.Alike
import AvroCodec.Proofs.Quiet

/-!
# Schemas that paste no blanks

Code takes names, symbols, defaults and parameters of a schema as they stand. A schema is tidy if none of
these has a blank in it. Members that are not looked at, such as a comment on a type or its aliases, may have
blanks as long as they hold no definition and the document that they stand in is not pasted as a whole. A
strictly tidy document has no text with a blank at all.

The normal form of a tidy schema is tidy, and so is every definition in a store of tidy schemas.
-/

namespace AvroCodec

open Text

namespace Json

variable {strict strict' whole : Bool} {members : Members} {s : String}

/-- Members that are looked at when code is made. -/
def meaningful : List String :=
  ["type", "name", "namespace", "items", "values", "fields", "symbols", "default", "logicalType", "scale",
    "size", "precision"]

def structural : List String := ["type", "items", "values", "fields"]

def naming : List String := ["name", "namespace"]

/-- Whether a document is pasted as a whole: one of a type of fixed size. -/
def isWhole (members : Members) : Bool :=
  (lookup "type" members).any (isStr "fixed") && (lookup "logicalType" members).isNone

/-- Whether the type inside a document is pasted as a whole: that of a logical type. -/
def hasWholeType (members : Members) : Bool :=
  isWhole members || (lookup "logicalType" members).isSome

mutual

/-- Whether nothing that is pasted into code has a blank in it; or no text at all, if `strict` holds. -/
def isTidy (strict : Bool) : Json → Bool
  | .str s => !hasChar ' ' s
  | .arr items => areTidy strict items
  | .obj members => membersTidy (strict || isWhole members) (strict || hasWholeType members) members
  | _ => true

def areTidy (strict : Bool) : List Json → Bool
  | [] => true
  | x :: xs => isTidy strict x && areTidy strict xs

def membersTidy (whole strict : Bool) : List (String × Json) → Bool
  | [] => true
  | (k, x) :: rest =>
    !hasChar ' ' k && ((!whole && !meaningful.contains k && x.named.isEmpty) ||
        (isTidy (strict || !structural.contains k) x && (!naming.contains k || !hasChar ' ' x.pasted)))
      && membersTidy whole strict rest

end

def IsTidyMember (whole strict : Bool) (m : String × Json) : Prop :=
  Blankless m.1 ∧ ((whole = false ∧ meaningful.contains m.1 = false ∧ m.2.named.isEmpty = true) ∨
    m.2.isTidy (strict || !structural.contains m.1) = true ∧ (naming.contains m.1 = true → Blankless m.2.pasted))

theorem hasChar_blank : hasChar ' ' s = false ↔ Blankless s := by
  rw [hasChar, ← Bool.not_eq_true, List.contains_iff_mem]
  rfl

theorem isTidy_str : (Json.str s).isTidy strict = true ↔ Blankless s := by
  rw [isTidy, Bool.not_eq_true', hasChar_blank]

theorem areTidy_iff {items : List Json} : areTidy strict items = true ↔ ∀ x ∈ items, x.isTidy strict = true := by
  induction items with
  | nil => simp [areTidy]
  | cons x items ih => rw [areTidy, Bool.and_eq_true, ih, List.forall_mem_cons]

theorem membersTidy_iff : membersTidy whole strict members = true ↔ ∀ m ∈ members, IsTidyMember whole strict m := by
  induction members with
  | nil => simp [membersTidy]
  | cons m members ih =>
    obtain ⟨k, x⟩ := m
    rw [membersTidy, Bool.and_eq_true, ih, List.forall_mem_cons]
    refine and_congr_left fun _ => ?_
    simp only [IsTidyMember, Bool.or_eq_true, Bool.and_eq_true, Bool.not_eq_true', hasChar_blank, and_assoc]
    rw [← Bool.not_eq_true (naming.contains k), ← imp_iff_not_or]

theorem isTidy_obj_iff :
    (Json.obj members).isTidy strict = true ↔
      ∀ m ∈ members, IsTidyMember (strict || isWhole members) (strict || hasWholeType members) m :=
  membersTidy_iff

mutual

theorem isTidy_of_strict {strict : Bool} : ∀ {d : Json}, d.isTidy true = true → d.isTidy strict = true
  | .str _, h => h
  | .arr _, h => areTidy_of_strict h
  | .obj _, h => membersTidy_of_strict h
  | .null, _ | .bool _, _ | .int _, _ | .fraction _ _, _ => rfl

theorem areTidy_of_strict {strict : Bool} : ∀ {items : List Json}, areTidy true items = true →
    areTidy strict items = true
  | [], _ => rfl
  | x :: xs, h => by
    rw [areTidy, Bool.and_eq_true] at h ⊢
    exact ⟨isTidy_of_strict h.1, areTidy_of_strict h.2⟩

theorem membersTidy_of_strict {whole strict : Bool} : ∀ {members : Members},
    membersTidy true true members = true → membersTidy whole strict members = true
  | [], _ => rfl
  | (k, x) :: rest, h => by
    rw [membersTidy, Bool.not_true, Bool.false_and, Bool.false_and, Bool.false_or, Bool.true_or,
      Bool.and_eq_true, Bool.and_eq_true, Bool.and_eq_true] at h
    rw [membersTidy, h.1.1, isTidy_of_strict h.1.2.1, h.1.2.2, membersTidy_of_strict h.2, Bool.and_self, Bool.or_true]
    rfl

end

theorem isTidy_mono {d : Json} (h : d.isTidy strict = true)
    (hle : strict' = true → strict = true) : d.isTidy strict' = true := by
  cases strict with
  | true => exact isTidy_of_strict h
  | false =>
    cases strict' with
    | true => exact absurd (hle rfl) Bool.false_ne_true
    | false => exact h

theorem IsTidyMember.mono {whole' : Bool} {m : String × Json} (h : IsTidyMember whole strict m)
    (hwhole : whole' = true → whole = true)
    (hstrict : strict' = true → strict = true) : IsTidyMember whole' strict' m := by
  obtain ⟨hk, ⟨hfree, hm⟩ | ⟨hx, hname⟩⟩ := h
  · refine ⟨hk, .inl ⟨?_, hm⟩⟩
    cases whole' with
    | true => rw [hwhole rfl] at hfree; cases hfree
    | false => rfl
  · refine ⟨hk, .inr ⟨isTidy_mono hx fun h => ?_, hname⟩⟩
    rw [Bool.or_eq_true] at h ⊢
    exact h.imp_left hstrict

mutual

theorem isBlankless_of_isTidy : ∀ {d : Json}, d.isTidy true = true → d.isBlankless = true
  | .str _, h => h
  | .arr _, h => isBlanklessItems_of_areTidy h
  | .obj _, h => isBlanklessMembers_of_membersTidy h
  | .null, _ | .bool _, _ | .int _, _ | .fraction _ _, _ => rfl

theorem isBlanklessItems_of_areTidy : ∀ {items : List Json}, areTidy true items = true →
    isBlanklessItems items = true
  | [], _ => rfl
  | x :: xs, h => by
    rw [areTidy, Bool.and_eq_true] at h
    rw [isBlanklessItems, Bool.and_eq_true]
    exact ⟨isBlankless_of_isTidy h.1, isBlanklessItems_of_areTidy h.2⟩

theorem isBlanklessMembers_of_membersTidy : ∀ {members : Members},
    membersTidy true true members = true → isBlanklessMembers members = true
  | [], _ => rfl
  | (k, x) :: rest, h => by
    rw [membersTidy, Bool.not_true, Bool.false_and, Bool.false_and, Bool.false_or, Bool.true_or,
      Bool.and_eq_true, Bool.and_eq_true, Bool.and_eq_true] at h
    rw [isBlanklessMembers, h.1.1, isBlankless_of_isTidy h.1.2.1, isBlanklessMembers_of_membersTidy h.2]
    rfl

end

/-! ### What stands inside a tidy document -/

section Members

variable {strict : Bool} {members : Members} {x : Json} {key : String}

theorem IsTidyMember.of_meaningful (h : IsTidyMember whole strict (key, x)) (hkey : meaningful.contains key = true) :
    x.isTidy (strict || !structural.contains key) = true ∧ (naming.contains key = true → Blankless x.pasted) := by
  obtain ⟨-, ⟨-, hfree, -⟩ | ⟨hx, hname⟩⟩ := h
  · rw [hkey] at hfree
    cases hfree
  · exact ⟨hx, hname⟩

theorem isTidy_of_lookup (h : (Json.obj members).isTidy strict = true) (hkey : meaningful.contains key = true)
    (hx : lookup key members = some x) :
    x.isTidy (strict || hasWholeType members || !structural.contains key) = true ∧
      (naming.contains key = true → Blankless x.pasted) :=
  (isTidy_obj_iff.1 h _ (mem_of_lookup hx)).of_meaningful hkey

theorem isTidy_of_pasted (h : (Json.obj members).isTidy strict = true) (hkey : meaningful.contains key = true)
    (hpasted : structural.contains key = false) (hx : lookup key members = some x) : x.isTidy true = true := by
  have hx := (isTidy_of_lookup h hkey hx).1
  rwa [hpasted, Bool.not_false, Bool.or_true] at hx

theorem isTidy_of_mem_elements {elements : List Json} (h : x.isTidy strict = true)
    (helements : x.elements? = some elements) : ∀ y ∈ elements, y.isTidy strict = true := by
  cases x with
  | arr items =>
    cases helements
    exact areTidy_iff.1 h
  | str s =>
    cases helements
    intro y hy
    obtain ⟨c, hc, rfl⟩ := List.mem_map.1 hy
    refine isTidy_str.2 fun hblank => isTidy_str.1 h ?_
    rw [Char.toString, String.toList_singleton] at hblank
    exact List.mem_singleton.1 hblank ▸ hc
  | obj members =>
    cases helements
    intro y hy
    obtain ⟨m, hm, rfl⟩ := List.mem_map.1 hy
    exact isTidy_str.2 (isTidy_obj_iff.1 h m hm).1
  | _ => cases helements

theorem isTidy_of_mem_fieldList (h : (Json.obj members).isTidy strict = true)
    (hx : x ∈ Schema.fieldList members) : x.isTidy (strict || hasWholeType members) = true := by
  unfold Schema.fieldList at hx
  cases hfields : lookup "fields" members with
  | none => simp [hfields, elements?] at hx
  | some fields =>
    rw [hfields, Option.getD_some] at hx
    have htidy := (isTidy_of_lookup h (by decide) hfields).1
    cases helements : fields.elements? with
    | none => simp [helements] at hx
    | some elements =>
      rw [helements, Option.getD_some] at hx
      exact isTidy_mono (isTidy_of_mem_elements htidy helements x hx) fun hs => by rw [hs]; rfl

theorem isTidy_of_mem_parts {d : Json} (h : d.isTidy strict = true) (hx : x ∈ d.parts) :
    x.isTidy strict = true := by
  cases d with
  | arr branches => exact areTidy_iff.1 h x hx
  | obj members =>
    have hmember : ∀ {key y}, meaningful.contains key = true → lookup key members = some y →
        y.isTidy strict = true :=
      fun hkey hy => isTidy_mono (isTidy_of_lookup h hkey hy).1 fun hs => by rw [hs]; rfl
    rw [parts, List.mem_append, List.mem_append, List.mem_append] at hx
    rcases hx with ((hx | hx) | hx) | hx
    · exact hmember (by decide) (Option.mem_toList.1 hx)
    · exact hmember (by decide) (Option.mem_toList.1 hx)
    · exact isTidy_mono (isTidy_of_mem_fieldList h hx) fun hs => by rw [hs]; rfl
    · split at hx
      next inner htype =>
        rw [List.mem_singleton.1 hx]
        exact hmember (by decide) htype
      next branches htype => exact areTidy_iff.1 (hmember (by decide) htype) x hx
      next => cases hx
  | _ => cases hx

theorem blankless_of_refers {d : Json} {name : String} (h : d.isTidy strict = true) (hname : d.Refers name) :
    Blankless name := by
  rcases hname with rfl | hname
  · exact isTidy_str.1 h
  · cases d with
    | obj members => exact isTidy_str.1 (isTidy_of_lookup h (by decide) hname).1
    | _ => cases hname

end Members

mutual

theorem isTidy_of_named {strict : Bool} : ∀ {d : Json} {e : String × Json}, d.isTidy strict = true → e ∈ d.named →
    e.2.isTidy strict = true
  | .arr _, _, h, he => isTidy_of_namedItems h he
  | .obj members, e, h, he => by
    rcases List.mem_append.1 he with he | he
    · unfold ownName at he
      split at he
      · split_ifs at he
        · rw [List.mem_singleton.1 he]
          exact h
        · cases he
      · cases he
    · exact isTidy_of_namedMembers (isTidy_obj_iff.1 h) (fun hs => by rw [hs]; rfl) he

theorem isTidy_of_namedItems {strict : Bool} : ∀ {items : List Json} {e : String × Json},
    areTidy strict items = true → e ∈ namedItems items → e.2.isTidy strict = true
  | x :: xs, e, h, he => by
    rw [areTidy, Bool.and_eq_true] at h
    rcases List.mem_append.1 he with he | he
    · exact isTidy_of_named h.1 he
    · exact isTidy_of_namedItems h.2 he

theorem isTidy_of_namedMembers {strict whole inner : Bool} : ∀ {members : Members} {e : String × Json},
    (∀ m ∈ members, IsTidyMember whole inner m) → (strict = true → inner = true) → e ∈ namedMembers members →
      e.2.isTidy strict = true
  | (k, x) :: rest, e, h, hle, he => by
    rcases List.mem_append.1 he with he | he
    · obtain ⟨-, ⟨-, -, hfree⟩ | ⟨hx, -⟩⟩ := h _ List.mem_cons_self
      · rw [List.isEmpty_iff.1 hfree] at he
        cases he
      · refine isTidy_of_named (isTidy_mono hx fun hs => ?_) he
        rw [hle hs]
        rfl
    · exact isTidy_of_namedMembers (fun m hm => h m (List.mem_cons_of_mem _ hm)) hle he

end

end Json

/-! ### Normal forms -/

namespace Schema

open Json

variable {strict : Bool} {d : Json}

section Reworked

variable {strict : Bool} {members members' : Members} {space x type : Json} {key : String}
  {m : String × Json}

/-- What is put into a document in place of its own members is tidy, and the document stays one of its
kind. -/
structure Reworked (strict : Bool) (members members' : Members) : Prop where
  whole : isWhole members' = true → isWhole members = true
  logical : Json.lookup "logicalType" members' = Json.lookup "logicalType" members
  mem : ∀ m ∈ members', m ∈ members ∨ IsTidyMember true (strict || hasWholeType members) m

theorem Reworked.isTidy (h : Reworked strict members members') (htidy : (Json.obj members).isTidy strict = true) :
    (Json.obj members').isTidy strict = true := by
  have htype : strict || hasWholeType members' → strict || hasWholeType members := by
    simp only [hasWholeType, Bool.or_eq_true, h.logical]
    exact Or.imp_right (Or.imp_left h.whole)
  have hwhole : strict || isWhole members' → strict || isWhole members := by
    simp only [Bool.or_eq_true]
    exact Or.imp_right h.whole
  refine isTidy_obj_iff.2 fun m hm => ?_
  rcases h.mem m hm with hm | hm
  · exact (isTidy_obj_iff.1 htidy m hm).mono hwhole htype
  · exact hm.mono (fun _ => rfl) htype

theorem Reworked.put (h : Reworked strict members members') (hkey : ["type", "logicalType"].contains key = false)
    (hx : IsTidyMember true (strict || hasWholeType members) (key, x)) :
    Reworked strict members (Json.put key x members') := by
  have hlookup : ∀ k ∈ ["type", "logicalType"], Json.lookup k (Json.put key x members') = Json.lookup k members' := by
    intro k hk
    refine Json.lookup_put_of_ne ?_ x members'
    rintro rfl
    exact Bool.false_ne_true (hkey.symm.trans (List.contains_iff_mem.2 hk))
  refine ⟨?_, (hlookup _ (by decide)).trans h.logical, fun m hm => ?_⟩
  · rw [isWhole, hlookup "type" (by decide), hlookup "logicalType" (by decide)]
    exact h.whole
  · rcases mem_put hm with rfl | hm
    · exact .inr hx
    · exact h.mem m hm

theorem isTidyMember_getD (h : (Json.obj members).isTidy strict = true) (hkey : meaningful.contains key = true) :
    IsTidyMember true (strict || hasWholeType members) (key, (Json.lookup key members).getD .null) := by
  have hblank : ∀ k ∈ meaningful, Blankless k := by
    simp only [meaningful, Blankless, List.forall_mem_cons]
    decide +kernel
  refine ⟨hblank key (List.contains_iff_mem.1 hkey), .inr ?_⟩
  cases hx : Json.lookup key members with
  | none => exact ⟨rfl, fun _ => hasChar_blank.1 (by decide +kernel : hasChar ' ' Json.null.pasted = false)⟩
  | some x => exact isTidy_of_lookup h hkey hx

theorem Reworked.of_carried (h : (Json.obj members).isTidy strict = true) :
    Reworked strict members (carried members ((Json.lookup "type" members).getD .null)) := by
  have hlogical : Json.lookup "logicalType" (carried members ((Json.lookup "type" members).getD .null)) =
      Json.lookup "logicalType" members := lookup_carried (by decide) (by decide) members _
  refine ⟨?_, hlogical, fun m hm => ?_⟩
  · rw [isWhole, isWhole, lookup_carried_type, hlogical]
    cases Json.lookup "type" members with
    | none => exact fun h => absurd h Bool.false_ne_true
    | some type => exact id
  · rcases mem_carried hm with rfl | hm
    · exact .inr (isTidyMember_getD h (by decide))
    · exact .inl hm.1

theorem blankless_normalSpace (h : (Json.obj members).isTidy strict = true) (hspace : Blankless space.pasted) :
    Blankless (normalSpace space members).pasted := by
  unfold normalSpace
  cases hx : Json.lookup "namespace" members with
  | none => exact hspace
  | some x => exact (isTidy_of_lookup h (by decide) hx).2 rfl

theorem isTidyMember_name (h : (Json.obj members).isTidy strict = true) (hspace : Blankless space.pasted) :
    IsTidyMember true (strict || hasWholeType members)
      ("name", qualify (normalSpace space members) ((Json.lookup "name" members).getD .null)) := by
  have hname : IsTidyMember true (strict || hasWholeType members) ("name", (Json.lookup "name" members).getD .null) :=
    isTidyMember_getD h (by decide)
  unfold qualify
  split_ifs
  · have hpasted := (hname.of_meaningful (by decide)).2 rfl
    have hdot : Blankless "." := hasChar_blank.1 (by decide)
    have hfull := ((blankless_normalSpace h hspace).append hdot).append hpasted
    exact ⟨hname.1, .inr ⟨isTidy_str.2 hfull, fun _ => hfull⟩⟩
  · exact hname

theorem Reworked.of_withName (h : (Json.obj members).isTidy strict = true) (hspace : Blankless space.pasted) :
    Reworked strict members (withName space members) :=
  (Reworked.of_carried h).put (by decide) (isTidyMember_name h hspace)

theorem eq_fixed_of_normalIn {depth : Nat} (h : normalIn depth false space type = .str "fixed") :
    type = .str "fixed" := by
  cases depth with
  | zero => exact h
  | succ depth =>
    cases type with
    | str reference =>
      rw [normalIn, normalName] at h
      split_ifs at h
      · exact h
      · have hdot : '.' ∈ "fixed".toList := by
          rw [← Json.str.inj h]
          simp
        exact absurd hdot (by decide)
    | obj members =>
      obtain ⟨members', h'⟩ := exists_normalIn_obj (depth + 1) false space members
      rw [h'] at h
      cases h
    | _ => cases h

/-- What a normal form does to the types inside a document. -/
def KeepsTidy (normalType : Json → Json → Json) : Prop :=
  ∀ {strict : Bool} {space d : Json}, Blankless space.pasted → d.isTidy strict = true →
    (normalType space d).isTidy strict = true

variable {depth : Nat}

theorem isTidyMember_normalIn (hdepth : KeepsTidy (normalIn depth false)) (h : (Json.obj members).isTidy strict = true)
    (hspace : Blankless space.pasted) (hkey : meaningful.contains key = true) (hnaming : naming.contains key = false) :
    IsTidyMember true (strict || hasWholeType members)
      (key, normalIn depth false space ((Json.lookup key members).getD .null)) := by
  have hmember := isTidyMember_getD h hkey
  refine ⟨hmember.1, .inr ⟨hdepth hspace (hmember.of_meaningful hkey).1, fun hn => ?_⟩⟩
  exact absurd (hnaming.symm.trans hn) Bool.false_ne_true

theorem isTidy_normalField {field : Json} (hdepth : KeepsTidy (normalIn depth false))
    (h : field.isTidy strict = true) (hspace : Blankless space.pasted) :
    (normalField (normalIn depth false) space field).isTidy strict = true := by
  cases field with
  | obj members =>
    have hlogical : Json.lookup "logicalType" (Json.put "type" (normalIn depth false space
        ((Json.lookup "type" members).getD .null)) (Json.put "name" ((Json.lookup "name" members).getD .null)
          (carriedInField members))) = Json.lookup "logicalType" members := by
      rw [Json.lookup_put_of_ne (by decide), Json.lookup_put_of_ne (by decide), lookup_carriedInField (by decide)]
    refine Reworked.isTidy ⟨?_, hlogical, fun m hm => ?_⟩ h
    · rw [isWhole, isWhole, hlogical, Json.lookup_put_self, Option.any_some, Bool.and_eq_true, Bool.and_eq_true]
      refine And.imp_left fun hfixed => ?_
      have hgiven := eq_fixed_of_normalIn (eq_str_of_isStr hfixed)
      cases htype : Json.lookup "type" members with
      | none =>
        rw [htype] at hgiven
        cases hgiven
      | some type =>
        rw [htype, Option.getD_some] at hgiven
        rw [hgiven]
        rfl
    · rcases mem_put hm with rfl | hm
      · exact .inr (isTidyMember_normalIn hdepth h hspace (by decide) (by decide))
      · rcases mem_put hm with rfl | hm
        · exact .inr (isTidyMember_getD h (by decide))
        · exact .inl (mem_carriedInField hm).1
  | _ => exact h

theorem isTidyMember_fields (hdepth : KeepsTidy (normalIn depth false)) (h : (Json.obj members).isTidy strict = true)
    (hspace : Blankless space.pasted) : IsTidyMember true (strict || hasWholeType members)
      ("fields", .arr ((fieldList members).map (normalField (normalIn depth false) (normalSpace space members)))) := by
  refine ⟨(isTidyMember_getD h (by decide : meaningful.contains "fields" = true)).1, .inr ⟨?_, fun hn => ?_⟩⟩
  · refine areTidy_iff.2 fun y hy => ?_
    obtain ⟨field, hfield, rfl⟩ := List.mem_map.1 hy
    have htidy := isTidy_of_mem_fieldList h hfield
    refine isTidy_normalField hdepth (isTidy_mono htidy fun hs => ?_) (blankless_normalSpace h hspace)
    rwa [Bool.or_eq_true, or_iff_left (by decide : ¬(!structural.contains "fields") = true)] at hs
  · exact absurd hn (by decide : ¬naming.contains "fields" = true)

end Reworked

/-- The normal form of a tidy schema is tidy. -/
theorem isTidy_normalIn (depth : Nat) (hint : Bool) {space : Json} (hspace : Blankless space.pasted)
    (h : d.isTidy strict = true) : (normalIn depth hint space d).isTidy strict = true := by
  induction depth generalizing strict hint space d with
  | zero => exact h
  | succ depth ih =>
    cases d with
    | arr branches =>
      refine areTidy_iff.2 fun x hx => ?_
      obtain ⟨y, hy, rfl⟩ := List.mem_map.1 hx
      exact ih false hspace (areTidy_iff.1 h y hy)
    | str reference =>
      refine isTidy_str.2 ?_
      have hreference := isTidy_str.1 h
      unfold normalName
      split_ifs
      · exact hreference
      · exact (hspace.append (hasChar_blank.1 (by decide))).append hreference
    | obj members =>
      have hcarried := Reworked.of_carried h
      have hnamed := Reworked.of_withName h hspace
      have hrecord := hnamed.put (by decide) (isTidyMember_fields (ih false) h hspace)
      have hmarked := hrecord.put (by decide : ["type", "logicalType"].contains parsedMark = false)
        ⟨hasChar_blank.1 (by decide +kernel), .inr ⟨(rfl : (Json.bool true).isTidy _ = true),
          fun hn => absurd hn (by decide : ¬naming.contains parsedMark = true)⟩⟩
      rw [normalIn_obj]
      cases hshape : shapeOf members with
      | container key =>
        have hkey : ["type", "logicalType"].contains key = false ∧ meaningful.contains key = true ∧
            naming.contains key = false := by
          rcases key_of_container hshape with rfl | rfl <;> decide
        exact (hcarried.put hkey.1 (isTidyMember_normalIn (ih false) h hspace hkey.2.1 hkey.2.2)).isTidy h
      | leaf key =>
        have hkey : ["type", "logicalType"].contains key = false ∧ meaningful.contains key = true := by
          rcases key_of_leaf hshape with rfl | rfl <;> decide
        exact (hnamed.put hkey.1 (isTidyMember_getD h hkey.2)).isTidy h
      | record =>
        cases hint with
        | true => exact hmarked.isTidy h
        | false => exact hrecord.isTidy h
      | plain => exact hcarried.isTidy h
    | _ => exact h

theorem isTidy_normalTop (depth : Nat) (h : d.isTidy strict = true) : (normalTop depth d).isTidy strict = true := by
  have hspace : Blankless (Json.str "").pasted := hasChar_blank.1 (by decide)
  induction depth generalizing d with
  | zero => exact h
  | succ depth ih =>
    cases d with
    | arr branches =>
      refine areTidy_iff.2 fun x hx => ?_
      obtain ⟨y, hy, rfl⟩ := List.mem_map.1 hx
      exact ih (areTidy_iff.1 h y hy)
    | obj members =>
      rw [normalTop]
      split_ifs
      · exact h
      · exact isTidy_normalIn _ true hspace h
    | _ => exact isTidy_normalIn _ true hspace h

theorem isTidy_normal (h : d.isTidy strict = true) : (normal d).isTidy strict = true :=
  isTidy_normalTop _ h

theorem Defines.isTidy {schemata : Schemata} (htidy : ∀ e ∈ schemata, e.2.isTidy strict = true)
    {name : String} (h : Defines schemata name d) : d.isTidy strict = true := by
  induction h with
  | listed he => exact htidy _ he
  | normal _ ih => exact isTidy_normal ih
  | inside _ he ih => exact isTidy_of_named (isTidy_normal ih) he

end Schema

end AvroCodec
