import AvroCodec.Proofs.Encode
import AvroCodec.Proofs.LockstepRead

/-!
# Generated code that reads

One step of generating code that reads gives code for the form of the schema, if the steps inside it do.
The code of what is inside an array or a map draws its variables after those of the loop. With the same for
the code that writes, all code that is generated is code for the forms of schemas.
-/

namespace AvroCodec

open Code

namespace Gen

variable {σ : Setting} {recursive : String → Prop} {root : Form} {d x : Json} {p : Place} {name : String}
  {c c' : Counters}

theorem sizeOf?_eq {n : Nat} (hs : d.get? "size" = some (.int n)) (hn : n < Varint.limit) :
    Primitive.sizeOf? d = .ok n := by
  have hrange : Varint.zigzag n < Varint.modulus :=
    (Varint.zigzag_lt_modulus_iff n).2 ⟨by omega, by omega⟩
  cases d with
  | obj members =>
    simp only [Primitive.sizeOf?, show Json.lookup "size" members = _ from hs, Json.toInt?, if_pos hrange]
  | _ => cases hs

theorem suits_mono {e : Decoder} (h : e.Suits σ recursive root c' d p) (hc : c ≤ c') :
    e.Suits σ recursive root c d p :=
  ⟨fun hpart hform => (h.form hpart hform).mono fun _ => drawn_mono hc,
    fun hpart hfield => (h.field hpart hfield).mono fun _ => drawn_mono hc⟩

abbrev Reading (σ : Setting) (recursive : String → Prop) (root : Form) : Lockstep.Readers Counters :=
  fun c _ d _ p _ e _ => e.Suits σ recursive root c d p

theorem reader_union {g : Bool} {types : List Json} {f : Form} {index : String} {wrapped : Bool}
    {cs : List (Json × Decoder)} (hpart : Form.Part σ.store.form? root g f) (hform : form? (.arr types) = some f)
    (hindex : c.Drawn index) (hc : ∀ y, c'.Drawn y → c.Drawn y ∧ y ≠ index)
    (hcs : List.Forall₂ (fun x q => q.2.Suits σ recursive root c' x p) types cs) :
    Reader σ.store.form? recursive g c.Drawn f p (.union p index wrapped cs) := by
  rw [form?, Option.map_eq_some_iff] at hform
  obtain ⟨branches, hbranches, rfl⟩ := hform
  obtain ⟨parts, rfl, rfl, hparts⟩ := exists_joined (forms?_eq_some_iff.1 hbranches) hcs
  refine .union hindex hc parts rfl fun q hq => ?_
  obtain ⟨x, hx, hcode⟩ := hparts q hq
  exact hcode.form (hpart.branch (List.mem_map_of_mem hq)) hx

theorem reader_fields {g : Bool} {fields : List (Field Form)} {items : List Json} {codes : List Decoder}
    (hpart : Form.Part σ.store.form? root g (.record fields))
    (hfields : List.Forall₂ (fun x f => field? x = some f) items fields)
    (hcodes : List.Forall₂ (fun x e => e.Suits σ recursive root c x p) items codes) :
    Reader σ.store.form? recursive g c.Drawn (.record fields) p (.record p codes) := by
  obtain ⟨parts, rfl, rfl, hparts⟩ := exists_joined hfields hcodes
  refine .record parts rfl (fun q hq => ?_) fun q hq => ?_
  · obtain ⟨x, hx, -⟩ := hparts q hq
    exact isFieldName_of_field? hx
  · obtain ⟨x, hx, hcode⟩ := hparts q hq
    exact hcode.field (hpart.field (List.mem_map_of_mem hq)) hx

variable (hσ : σ.Holds recursive root) {r : Recursion}
include hσ

theorem readerRules : (leading σ recursive).ReaderRules (Same σ root) Eq (fun _ => Called σ recursive)
    (Reading σ recursive root) (Reading σ recursive root) where
  mono hw _ h := suits_mono h hw
  null _ := ⟨fun _ hform => Option.some.inj hform ▸ .null, fun _ hfield => by cases hfield⟩
  primitive {_ p _ name} hd _ hnull hstored := by
    refine ⟨fun {g f} hpart hform => ?_, fun _ hfield => by cases hfield⟩
    rw [form?, Form.ofName, if_neg hnull] at hform
    split_ifs at hform with hbasic
    · cases hform
      exact .basic
    · cases hform
      obtain ⟨f, hf⟩ := exists_form_of_part hσ.format hpart
      simp [contains_of_form? hf, hbasic] at hstored
  fixed hd _ _ htype := by
    refine ⟨fun _ hform => ?_, fun _ hfield => (not_field hfield htype (by decide)).elim⟩
    obtain ⟨n, rfl, hs, hn⟩ := fixed_of_get? hform htype
    exact .fixed (sizeOf?_eq hs hn)
  basic {_ d _ p _ name} hd _ htype hbasic := by
    refine ⟨fun _ hform => ?_, fun {field} hpart hfield => ?_⟩
    · obtain ⟨rfl, hname⟩ := basic_of_get? hform htype hbasic
      rw [Parallel.ownPlace, if_neg (by simp [hname])]
      exact .basic
    · obtain ⟨hname, hlegal, -, hform, -⟩ := field_of_get? hfield htype
      rw [← Option.some.inj ((form?_of_isBasic hbasic).symm.trans hform), Parallel.ownPlace, hname, Option.getD_some,
        if_pos (truthy_of_isFieldName hlegal)]
      exact .basic
  recur {_ _ d _ p _ name} hd _ hname _ hmet := by
    obtain ⟨hrecursive, hdot, hcycle⟩ := hmet
    refine ⟨fun hpart hform => ?_, fun hpart hfield => ?_⟩ <;> rcases hname with rfl | htype
    · cases (form?_of_hasDot hdot).symm.trans hform
      rcases hσ.format.named hpart with ⟨hplain, -⟩ | ⟨rfl, -⟩
      · cases hcycle.symm.trans hplain
      · exact .recur hrecursive
    · exact (not_form_of_hasDot hform htype hdot).elim
    · cases hfield
    · cases hcycle.symm.trans (not_cycle_of_field hσ hpart hfield htype hdot).2
  loaded {_ _ p _ name x _ a _} hd hstored hx hab := by
    refine ⟨fun hpart hform => ?_, fun _ hfield => by cases hfield⟩
    cases (form?_of_hasDot (hσ.dotted _ hstored)).symm.trans hform
    obtain ⟨f, hf, hpart', hform'⟩ := form_of_loads hσ hpart hx
    exact .named hf (hab.form hpart' hform')
  reference {_ _ d _ p _ name x _ key a _} hd htype hstored hkey hx hab := by
    have hdot := hσ.dotted _ hstored
    refine ⟨fun _ hform => (not_form_of_hasDot hform htype hdot).elim, fun {field} hpart hfield => ?_⟩
    obtain ⟨hname, -, -, hform, -⟩ := field_of_get? hfield htype
    cases hkey.symm.trans hname
    obtain ⟨f, hf, hpart', hform'⟩ := form_of_loads hσ (not_cycle_of_field hσ hpart hfield htype hdot).1 hx
    exact Option.some.inj ((form?_of_hasDot hdot).symm.trans hform) ▸ .named hf (hab.form hpart' hform')
  logical hd _ hlogical htype := by
    refine ⟨fun _ hform => ?_, fun _ hfield => ?_⟩
    · obtain ⟨members, rfl, -, hl, -⟩ := describes_of_get? hform htype
      cases hlogical.symm.trans hl
    · cases hlogical.symm.trans (field_of_get? hfield htype).2.2.1
  record hd _ _ htype hxs hab := by
    refine ⟨fun hpart hform => ?_, fun _ hfield => (not_field hfield htype (by decide)).elim⟩
    obtain ⟨items, fields, rfl, hitems, hfields⟩ := record_of_get? hform htype
    obtain rfl := elements_of_need hitems hxs
    exact reader_fields hpart hfields (hab.firsts fun hw h => suits_mono h hw)
  array hd _ hij hkl hmn htype hx hab := by
    refine ⟨fun hpart hform => ?_, fun _ hfield => (not_field hfield htype (by decide)).elim⟩
    obtain ⟨items, f, rfl, hitems, hform⟩ := array_of_get? hform htype
    cases hx.symm.trans hitems
    obtain ⟨hw₁, hindex, -⟩ := drawn_of_draws hij
    obtain ⟨hw₂, hcount, -⟩ := drawn_of_draws hkl
    obtain ⟨hw₃, hitem, hfresh⟩ := drawn_of_draws hmn
    have hw := hw₁.trans hw₂
    exact .array (drawn_mono hw₁ hcount) hindex (drawn_mono hw hitem)
      (fun y hy => ⟨drawn_mono (hw.trans hw₃) hy, hfresh y hy⟩) (hab.form hpart.items hform)
  enum hd _ htype hsymbols := by
    refine ⟨fun _ hform => ?_, fun _ hfield => (not_field hfield htype (by decide)).elim⟩
    obtain ⟨names, rfl, hnames⟩ := enum_of_get? hform htype
    cases hsymbols.symm.trans hnames
    exact .enum
  map hd _ hij hkl hmn htype hx hab := by
    refine ⟨fun hpart hform => ?_, fun _ hfield => (not_field hfield htype (by decide)).elim⟩
    obtain ⟨values, f, rfl, hvalues, hform⟩ := map_of_get? hform htype
    cases hx.symm.trans hvalues
    obtain ⟨hw₁, hkey, hfresh⟩ := drawn_of_draws hij
    obtain ⟨hw₂, hcount, -⟩ := drawn_of_draws hkl
    obtain ⟨hw₃, hindex, -⟩ := drawn_of_draws hmn
    have hw := hw₂.trans hw₃
    exact .map (drawn_mono hw₁ hcount) (drawn_mono (hw₁.trans hw₂) hindex) hkey
      (fun y hy => ⟨drawn_mono (hw₁.trans hw) hy, hfresh y (drawn_mono hw hy)⟩) (hab.form hpart.values hform)
  union hd _ hmn hcs := by
    obtain ⟨hw, hindex, hfresh⟩ := drawn_of_draws hmn
    refine ⟨fun hpart hform => ?_, fun _ hfield => by cases hfield⟩
    exact reader_union hpart hform hindex (fun y hy => ⟨drawn_mono hw hy, hfresh y hy⟩)
      (hcs.firsts fun hw' h => suits_mono h.2.2.2 hw')
  unionField {_ _ _ d _ p _ types key _ _ _ _} hd _ htype hkey hmn hcs := by
    refine ⟨fun _ hform => (not_form hform htype (by simp)).elim, fun {field} hpart hfield => ?_⟩
    obtain ⟨hname, -, -, hform, -⟩ := field_of_get? hfield htype
    cases hkey.symm.trans hname
    obtain ⟨hw, hindex, hfresh⟩ := drawn_of_draws hmn
    exact reader_union hpart hform hindex (fun y hy => ⟨drawn_mono hw hy, hfresh y hy⟩)
      (hcs.firsts fun hw' h => suits_mono h.2.2.2 hw')
  nested {_ _ d _ p _ inner key a _} hd _ htype hkey hab := by
    refine ⟨fun _ hform => (not_form hform htype (by simp)).elim, fun {field} hpart hfield => ?_⟩
    obtain ⟨hname, -, -, hform, -⟩ := field_of_get? hfield htype
    cases hkey.symm.trans hname
    exact hab.form hpart hform

theorem decodeStep_eq_ok (hr : r.Sound σ recursive root) {s t : Generator} {code : Decoder} (hd : σ.Shapes root d)
    (h : decodeStep r d p σ s = (.ok code, t)) :
    code.Suits σ recursive root s.counters d p ∧ s.Leads σ.store.form? recursive t := by
  have hreading : (leading σ recursive).Reading (Same σ root) (Same σ root) (fun _ => Called σ recursive) r r Eq
      (Reading σ recursive root) (Reading σ recursive root) :=
    { toPremises := premises hσ hr
      rules := readerRules hσ
      decode := by
        rintro w d _ p _ ⟨rfl, hd⟩ rfl s t a rfl ha
        obtain ⟨hcode, hleads⟩ := hr.decode hd ha
        exact ⟨hleads, a, hcode⟩
      value := fun h => h.1 ▸ rfl
      entry := fun hpq h => hpq ▸ h.1 ▸ rfl
      member := fun hpq => hpq ▸ rfl }
  obtain ⟨hleads, _, hcode⟩ := hreading.decodeStep (w := s.counters) ⟨rfl, hd⟩ rfl rfl h
  exact ⟨hcode, hleads⟩

omit hσ in
theorem decodeStep_reference (hl : d.get? "logicalType" = none) (htype : d.get? "type" = some (.str name))
    (hdot : Schema.hasDot name = true) (hstored : σ.store.contains name = true) :
    decodeStep r d p σ = decodeReferenceField r d name p σ := by
  have hstep : decodeStep r d p = decodeObject r d (.str name) p := by
    cases d with
    | obj members =>
      change (liftM ((Json.obj members).need "type") >>= fun type => decodeObject r (.obj members) type p) = _
      rw [Schema.need_eq_ok.2 htype]
      rfl
    | _ => cases htype
  rw [hstep, decodeObject, hl]
  · dsimp only
    rw [isBasic_of_hasDot hdot, if_neg Bool.false_ne_true]
    change (if σ.store.contains name then decodeReferenceField r d name p else throw (.unhandled d) : Gen Decoder) σ = _
    rw [if_pos hstored]
  all_goals
    rintro rfl
    exact absurd hdot (by decide)

end Gen

/-- Generating code gives code for forms, however deep it may go. -/
theorem Recursion.sound_upTo {σ : Setting} {recursive : String → Prop} {root : Form}
    (hσ : σ.Holds recursive root) (steps : Nat) : (Recursion.upTo steps).Sound σ recursive root := by
  induction steps with
  | zero => constructor <;> exact fun _ h => (Gen.throw_eq_ok.1 h).elim
  | succ steps ih => exact ⟨Gen.encodeStep_eq_ok hσ ih, Gen.decodeStep_eq_ok hσ ih⟩

end AvroCodec
