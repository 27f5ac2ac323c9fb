import AvroCodec.Proofs.Decoding
import AvroCodec.Proofs.Naming

/-!
# Forms without defaults

Defaults play a part in writing only. Types that are the same as data have the same form but for the
defaults, so that what stands for a value of one stands for the same value of the other.
-/

namespace AvroCodec

open Json

namespace Json

variable {as bs : List (String × Json)} {key : String}

theorem same_str_iff {u : Json} {s : String} : u.same (.str s) = true ↔ u = .str s := by
  cases u <;> simp [same, number?]

theorem exists_lookup_of_same (h : sameMembers as bs = true) {a : Json} (ha : lookup key as = some a) :
    ∃ b, lookup key bs = some b ∧ a.same b = true := by
  induction as with
  | nil => cases ha
  | cons m as ih =>
    obtain ⟨k, x⟩ := m
    rw [sameMembers, Bool.and_eq_true] at h
    by_cases hk : k = key
    · subst hk
      simp only [lookup, if_true, Option.some.injEq] at ha
      subst ha
      cases hb : lookup k bs with
      | none => simp [hb] at h
      | some b => exact ⟨b, rfl, by simpa [hb] using h.1⟩
    · simp only [lookup, if_neg hk] at ha
      exact ih h.2 ha

theorem same_of_lookup (h : (obj as).same (.obj bs) = true) {a b : Json} (ha : lookup key as = some a)
    (hb : lookup key bs = some b) : a.same b = true := by
  rw [same, Bool.and_eq_true] at h
  obtain ⟨b', hb', hsame⟩ := exists_lookup_of_same h.2 ha
  cases hb.symm.trans hb'
  exact hsame

theorem forall₂_of_sameItems {as bs : List Json} (h : sameItems as bs = true) :
    List.Forall₂ (fun a b => a.same b = true) as bs := by
  induction as generalizing bs with
  | nil =>
    cases bs with
    | nil => exact .nil
    | cons b bs => cases h
  | cons a as ih =>
    cases bs with
    | nil => cases h
    | cons b bs =>
      rw [sameItems, Bool.and_eq_true] at h
      exact .cons h.1 (ih h.2)

theorem eq_of_same_strings {ss ts : List String}
    (h : (arr (ss.map .str)).same (.arr (ts.map .str)) = true) : ss = ts := by
  have hall := forall₂_of_sameItems h
  rw [List.forall₂_map_left_iff, List.forall₂_map_right_iff] at hall
  rw [← List.forall₂_eq_eq_eq]
  exact hall.imp fun a b hab => by simpa [same] using hab

theorem sizeOf_lt_of_lookup {x : Json} {members : Members}
    (h : lookup key members = some x) : sizeOf x < sizeOf members := by
  have hlt := List.sizeOf_lt_of_mem (mem_of_lookup h)
  simp only [Prod.mk.sizeOf_spec] at hlt
  omega

end Json

namespace Form

variable {f f' : Form} {members : Members}

mutual

/-- A form without the defaults of its fields. -/
def bare : Form → Form
  | .array f => .array (bare f)
  | .map f => .map (bare f)
  | .record fields => .record (bareFields fields)
  | .union branches => .union (bareBranches branches)
  | f => f

def bareFields : List (Field Form) → List (Field Form)
  | [] => []
  | ⟨name, _, f⟩ :: rest => ⟨name, none, bare f⟩ :: bareFields rest

def bareBranches : List Form → List Form
  | [] => []
  | f :: rest => bare f :: bareBranches rest

end

def bareField (field : Field Form) : Field Form := ⟨field.name, none, field.type.bare⟩

theorem bareFields_eq (fields : List (Field Form)) : bareFields fields = fields.map bareField := by
  induction fields with
  | nil => rfl
  | cons field rest ih =>
    rw [List.map_cons, ← ih]
    rfl

theorem bareBranches_eq (branches : List Form) : bareBranches branches = branches.map bare := by
  induction branches with
  | nil => rfl
  | cons f rest ih =>
    rw [List.map_cons, ← ih]
    rfl

theorem kindIn_bare (env : String → Option Form) (bound : Nat) (f : Form) :
    kindIn env bound f.bare = kindIn env bound f := by
  cases f <;> cases bound <;> rfl

theorem map_eq_of_forall₂ {α β γ : Type} {P : α → β → Prop} {g : β → γ} {as as' : List α}
    {bs bs' : List β} {R : α → α → Prop} (h : List.Forall₂ R as as') (hb : List.Forall₂ P as bs)
    (hb' : List.Forall₂ P as' bs')
    (hg : ∀ a ∈ as, ∀ a' b b', R a a' → P a b → P a' b' → g b = g b') : bs.map g = bs'.map g := by
  induction h generalizing bs bs' with
  | nil =>
    cases hb
    cases hb'
    rfl
  | cons hr _ ih =>
    cases hb with
    | cons hp hb =>
      cases hb' with
      | cons hp' hb' =>
        rw [List.map_cons, List.map_cons, hg _ List.mem_cons_self _ _ _ hr hp hp',
          ih hb hb' fun a ha => hg a (List.mem_cons_of_mem _ ha)]

/-- The type that an object with this form gives. -/
def typeName : Form → String
  | .record _ => "record"
  | .array _ => "array"
  | .map _ => "map"
  | .enum _ => "enum"
  | .fixed _ => "fixed"
  | .basic s => s
  | _ => ""

theorem lookup_type_of_describes (h : Describes members f) : lookup "type" members = some (.str f.typeName) := by
  cases h <;> assumption

theorem isBasic_typeName (h : Describes members f) (hb : Gen.isBasic f.typeName = true) : f = .basic f.typeName := by
  cases h with
  | basic => rfl
  | _ => simp [typeName, Gen.isBasic, Gen.basicTypes] at hb

theorem bareField_eq_of_same {x y : Json} {field field' : Field Form} (h : x.same y = true)
    (hx : field? x = some field) (hy : field? y = some field')
    (ih : ∀ a b g g', sizeOf a < sizeOf x → a.same b = true → form? a = some g → form? b = some g' →
      g.bare = g'.bare) : bareField field = bareField field' := by
  cases x with
  | obj as =>
    cases y with
    | obj bs =>
      obtain ⟨hname, -, -, -, type, htype, hf⟩ := field?_eq_some_iff.1 hx
      obtain ⟨hname', -, -, -, type', htype', hf'⟩ := field?_eq_some_iff.1 hy
      have hsame : field.name = field'.name := by
        simpa [same] using same_of_lookup h hname hname'
      have hlt := sizeOf_lt_of_lookup htype
      rw [bareField, bareField, hsame,
        ih _ _ _ _ (by simp only [obj.sizeOf_spec]; omega) (same_of_lookup h htype htype') hf hf']
    | _ => cases hy
  | _ => cases hx

/-- Objects that are the same differ in their defaults at most, if the types inside them do. -/
theorem bare_eq_of_describes {as bs : List (String × Json)}
    (h : (obj as).same (.obj bs) = true) (hf : Describes as f) (hf' : Describes bs f')
    (ih : ∀ a b g g', sizeOf a < sizeOf as → a.same b = true → form? a = some g → form? b = some g' →
      g.bare = g'.bare) : f.bare = f'.bare := by
  have htype : f.typeName = f'.typeName := by
    have hsame := same_of_lookup h (lookup_type_of_describes hf) (lookup_type_of_describes hf')
    simpa [same] using hsame
  by_cases hbasic : Gen.isBasic f'.typeName = true
  · rw [isBasic_typeName hf' hbasic, isBasic_typeName hf (htype ▸ hbasic), htype]
  cases hf with
  | record _ hitems hfields =>
    cases hf' with
    | record _ hitems' hfields' =>
      have hall := forall₂_of_sameItems (same_of_lookup h hitems hitems')
      rw [bare, bare, bareFields_eq, bareFields_eq, map_eq_of_forall₂ hall hfields hfields']
      intro a ha a' b b' hsame hb hb'
      have hlt := List.sizeOf_lt_of_mem ha
      have hlt' := sizeOf_lt_of_lookup hitems
      simp only [arr.sizeOf_spec] at hlt'
      exact bareField_eq_of_same hsame hb hb' fun a b g g' ha => ih a b g g' (by omega)
    | basic _ hb => exact absurd hb hbasic
    | _ => simp [typeName] at htype
  | array _ hitems hg =>
    cases hf' with
    | array _ hitems' hg' =>
      rw [bare, bare, ih _ _ _ _ (sizeOf_lt_of_lookup hitems)
        (same_of_lookup h hitems hitems') hg hg']
    | basic _ hb => exact absurd hb hbasic
    | _ => simp [typeName] at htype
  | map _ hvalues hg =>
    cases hf' with
    | map _ hvalues' hg' =>
      rw [bare, bare, ih _ _ _ _ (sizeOf_lt_of_lookup hvalues)
        (same_of_lookup h hvalues hvalues') hg hg']
    | basic _ hb => exact absurd hb hbasic
    | _ => simp [typeName] at htype
  | enum _ hs =>
    cases hf' with
    | enum _ hs' => rw [eq_of_same_strings (same_of_lookup h hs hs')]
    | basic _ hb => exact absurd hb hbasic
    | _ => simp [typeName] at htype
  | @fixed m _ hs _ =>
    cases hf' with
    | @fixed n _ hs' _ =>
      have hsame := same_of_lookup h hs hs'
      simp only [same, number?, sameNumber, beq_iff_eq] at hsame
      have hsize : m = n := by simpa using hsame
      rw [hsize]
    | basic _ hb => exact absurd hb hbasic
    | _ => simp [typeName] at htype
  | basic _ hb => exact absurd (htype ▸ hb) hbasic

/-- Types that are the same differ in their defaults at most. -/
theorem bare_eq_of_same {u t : Json} (h : u.same t = true) (hu : form? u = some f)
    (ht : form? t = some f') : f.bare = f'.bare := by
  induction hsize : sizeOf u using Nat.strong_induction_on generalizing u t f f' with
  | h size ih =>
    subst hsize
    cases u with
    | str a =>
      cases t with
      | str b =>
        have hab : a = b := by simpa [same] using h
        subst hab
        cases hu.symm.trans ht
        rfl
      | arr ts => simp [same, number?] at h
      | obj bs => simp [same, number?] at h
      | _ => cases ht
    | arr us =>
      cases t with
      | arr ts =>
        rw [form?, Option.map_eq_some_iff] at hu ht
        obtain ⟨fs, hfs, rfl⟩ := hu
        obtain ⟨fs', hfs', rfl⟩ := ht
        rw [forms?_eq_some_iff] at hfs hfs'
        rw [bare, bare, bareBranches_eq, bareBranches_eq]
        rw [map_eq_of_forall₂ (forall₂_of_sameItems h) hfs hfs']
        intro a ha a' b b' hsame hb hb'
        have hlt := List.sizeOf_lt_of_mem ha
        exact ih _ (by simp only [arr.sizeOf_spec]; omega) hsame hb hb' rfl
      | str b => simp [same, number?] at h
      | obj bs => simp [same, number?] at h
      | _ => cases ht
    | obj as =>
      cases t with
      | obj bs =>
        refine bare_eq_of_describes h (describes_of_form? hu).2 (describes_of_form? ht).2 ?_
        intro a b g g' hlt hsame hg hg'
        exact ih _ (by simp only [obj.sizeOf_spec]; omega) hsame hg hg' rfl
      | str b => simp [same, number?] at h
      | arr ts => simp [same, number?] at h
      | _ => cases ht
    | _ => cases hu

/-- What bytes stand for does not depend on the defaults. -/
theorem Decodes.of_bare {env : String → Option Form} {bytes : List UInt8} {x : Value}
    (h : Decodes env f bytes x) (hb : f'.bare = f.bare) : Decodes env f' bytes x := by
  induction h generalizing f' with
  | array bs _ ih =>
    cases f' with
    | array g => exact .array bs fun q hq => ih q hq (Form.array.inj hb)
    | _ => simp [bare] at hb
  | map bs htext _ ih =>
    cases f' with
    | map g => exact .map bs htext fun q hq => ih q hq (Form.map.inj hb)
    | _ => simp [bare] at hb
  | record parts _ ih =>
    cases f' with
    | record fields =>
      rw [bare, bare, bareFields_eq, bareFields_eq, Form.record.injEq, List.map_map] at hb
      obtain ⟨both, rfl, rfl, hboth⟩ := exists_zip hb
      have hfield : ∀ q ∈ both, q.1.name = q.2.1.name ∧ q.1.type.bare = q.2.1.type.bare := by
        intro q hq
        have he := hboth q hq
        simp only [bareField, Function.comp_apply, Field.mk.injEq] at he
        exact ⟨he.1, he.2.2⟩
      have hdecodes := Decodes.record (both.map fun q => (q.1, q.2.2)) (List.forall_mem_map.2 fun q hq =>
        ih q.2 (List.mem_map_of_mem hq) (hfield q hq).2)
      have hnames : (both.map fun q => (q.1.name, q.2.2.1)) = both.map fun q => (q.2.1.name, q.2.2.1) :=
        List.map_congr_left fun q hq => by rw [(hfield q hq).1]
      simp only [List.map_map, List.flatMap_map, Function.comp_def, hnames] at hdecodes ⊢
      exact hdecodes
    | _ => simp [bare] at hb
  | @union branches i g _ _ hi hlim _ ih =>
    cases f' with
    | union branches' =>
      rw [bare, bare, bareBranches_eq, bareBranches_eq, Form.union.injEq] at hb
      have hi' : (branches'.map bare)[i]? = some g.bare := by
        rw [hb, List.getElem?_map, hi]
        rfl
      rw [List.getElem?_map, Option.map_eq_some_iff] at hi'
      obtain ⟨g', hg', hbare⟩ := hi'
      exact .union hg' hlim (ih hbare)
    | _ => simp [bare] at hb
  | null =>
    cases f' <;> simp [bare] at hb
    exact .null
  | basic h =>
    cases f' <;> simp [bare] at hb
    exact hb ▸ .basic h
  | fixed data =>
    cases f' <;> simp [bare] at hb
    exact hb ▸ .fixed data
  | enum hi hlim =>
    cases f' <;> simp [bare] at hb
    exact hb ▸ .enum hi hlim
  | named hn h =>
    cases f' <;> simp [bare] at hb
    exact .named (hb ▸ hn) h

end Form

end AvroCodec
