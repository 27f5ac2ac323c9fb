import AvroCodec.Proofs.Branches
import AvroCodec.Proofs.LockstepWrite
import AvroCodec.Proofs.Tracing

/-!
# Generated code that writes

One step of generating code that writes gives code for the form of the schema, if the steps inside it do.
-/

namespace AvroCodec

open Code Gen

/-- What is assumed of the schemas that a generator works with. -/
structure Setting.Holds (σ : Setting) (recursive : String → Prop) (root : Form) : Prop where
  format : σ.store.Format recursive root
  unambiguous : ∀ {g name}, Form.Part σ.store.form? root g (.named name) → σ.store.Unambiguous name
  dotted : ∀ name, σ.store.contains name = true → Schema.hasDot name = true

theorem exists_joined {α β γ : Type} {R : α → β → Prop} {Q : α → γ → Prop} {xs : List α}
    {ys : List β} {zs : List γ} (h : List.Forall₂ R xs ys) (h' : List.Forall₂ Q xs zs) :
    ∃ parts : List (β × γ), parts.map (·.1) = ys ∧ parts.map (·.2) = zs ∧
      ∀ q ∈ parts, ∃ x, R x q.1 ∧ Q x q.2 := by
  induction h generalizing zs with
  | nil =>
    cases h'
    exact ⟨[], rfl, rfl, by simp⟩
  | cons hxy _ ih =>
    cases h' with
    | cons hxz h' =>
      obtain ⟨parts, rfl, rfl, hparts⟩ := ih h'
      exact ⟨(_, _) :: parts, rfl, rfl, List.forall_mem_cons.2 ⟨⟨_, hxy, hxz⟩, hparts⟩⟩

theorem Form.isSolid_basic {type : String} (h : isBasic type = true) :
    (Form.basic type).IsSolid := by
  rcases mem_basicTypes h with rfl | rfl | rfl | rfl | rfl | rfl | rfl <;> exact ⟨_, rfl, by decide⟩

theorem Form.isSolid_of_describes {members : Members} {f : Form}
    (h : Describes members f) : f.IsSolid := by
  cases h with
  | basic _ hb _ => exact isSolid_basic hb
  | _ => exact ⟨_, rfl, by decide⟩

section

variable {d x : Json} {f : Form} {field : Field Form} {name : String}

theorem form?_of_isBasic {type : String} (h : isBasic type = true) :
    form? (.str type) = some (.basic type) := by
  rcases Form.mem_basicTypes h with rfl | rfl | rfl | rfl | rfl | rfl | rfl <;> rfl

theorem Gen.isBasic_of_hasDot (h : Schema.hasDot name = true) : isBasic name = false := by
  rw [← Bool.not_eq_true]
  intro hbasic
  rcases Form.mem_basicTypes hbasic with rfl | rfl | rfl | rfl | rfl | rfl | rfl <;>
    exact absurd h (by decide)

theorem form?_of_hasDot (h : Schema.hasDot name = true) : form? (.str name) = some (.named name) := by
  rw [form?, Form.ofName, if_neg, isBasic_of_hasDot h, if_neg Bool.false_ne_true, if_pos h]
  rintro rfl
  exact absurd h (by decide)

theorem describes_of_get? (hform : form? d = some f) (htype : d.get? "type" = some x) :
    ∃ members, d = .obj members ∧ Json.lookup "type" members = some x ∧
      Json.lookup "logicalType" members = none ∧ Describes members f := by
  cases d with
  | obj members => exact ⟨members, rfl, htype, describes_of_form? hform⟩
  | _ => cases htype

theorem record_of_get? (hform : form? d = some f) (htype : d.get? "type" = some (.str "record")) :
    ∃ items fields, f = .record fields ∧ d.get? "fields" = some (.arr items) ∧
      List.Forall₂ (fun x f => field? x = some f) items fields := by
  obtain ⟨members, rfl, htype, -, hdescribes⟩ := describes_of_get? hform htype
  cases hdescribes with
  | record _ hf h => exact ⟨_, _, rfl, hf, h⟩
  | _ => simp_all [isBasic, basicTypes]

theorem array_of_get? (hform : form? d = some f) (htype : d.get? "type" = some (.str "array")) :
    ∃ items g, f = .array g ∧ d.get? "items" = some items ∧ form? items = some g := by
  obtain ⟨members, rfl, htype, -, hdescribes⟩ := describes_of_get? hform htype
  cases hdescribes with
  | array _ hi h => exact ⟨_, _, rfl, hi, h⟩
  | _ => simp_all [isBasic, basicTypes]

theorem map_of_get? (hform : form? d = some f) (htype : d.get? "type" = some (.str "map")) :
    ∃ values g, f = .map g ∧ d.get? "values" = some values ∧ form? values = some g := by
  obtain ⟨members, rfl, htype, -, hdescribes⟩ := describes_of_get? hform htype
  cases hdescribes with
  | map _ hv h => exact ⟨_, _, rfl, hv, h⟩
  | _ => simp_all [isBasic, basicTypes]

theorem enum_of_get? (hform : form? d = some f) (htype : d.get? "type" = some (.str "enum")) :
    ∃ names : List String, f = .enum names ∧ d.get? "symbols" = some (.arr (names.map .str)) := by
  obtain ⟨members, rfl, htype, -, hdescribes⟩ := describes_of_get? hform htype
  cases hdescribes with
  | enum _ hs => exact ⟨_, rfl, hs⟩
  | _ => simp_all [isBasic, basicTypes]

theorem fixed_of_get? (hform : form? d = some f) (htype : d.get? "type" = some (.str "fixed")) :
    ∃ n : Nat, f = .fixed n ∧ d.get? "size" = some (.int n) ∧ n < Varint.limit := by
  obtain ⟨members, rfl, htype, -, hdescribes⟩ := describes_of_get? hform htype
  cases hdescribes with
  | fixed _ hs hn => exact ⟨_, rfl, hs, hn⟩
  | _ => simp_all [isBasic, basicTypes]

theorem basic_of_get? (hform : form? d = some f) (htype : d.get? "type" = some (.str name))
    (hbasic : isBasic name = true) : f = .basic name ∧ ((d.get? "name").getD .null).truthy = false := by
  obtain ⟨members, rfl, htype, -, hdescribes⟩ := describes_of_get? hform htype
  cases hdescribes with
  | basic ht _ hn =>
    cases htype.symm.trans ht
    exact ⟨rfl, hn⟩
  | _ ht =>
    cases htype.symm.trans ht
    cases hbasic

theorem not_form (hform : form? d = some f) (htype : d.get? "type" = some x) (hx : ∀ s, x ≠ .str s) : False := by
  obtain ⟨members, rfl, htype, -, hdescribes⟩ := describes_of_get? hform htype
  cases hdescribes with
  | _ ht => exact hx _ (Option.some.inj (htype.symm.trans ht))

theorem not_form_of_hasDot (hform : form? d = some f) (htype : d.get? "type" = some (.str name))
    (hdot : Schema.hasDot name = true) : False := by
  obtain ⟨members, rfl, htype, -, hdescribes⟩ := describes_of_get? hform htype
  cases hdescribes with
  | basic ht hb =>
    cases htype.symm.trans ht
    cases hb.symm.trans (isBasic_of_hasDot hdot)
  | _ ht =>
    cases htype.symm.trans ht
    exact absurd hdot (by decide)

theorem field_of_get? (hfield : field? d = some field) (htype : d.get? "type" = some x) :
    d.get? "name" = some (.str field.name) ∧ Form.isFieldName field.name = true ∧
      d.get? "logicalType" = none ∧ form? x = some field.type ∧
      field.default = match x with
        | .obj _ => (d.get? "default").filter (· ≠ .null)
        | .str s => if isBasic s then (d.get? "default").filter (· ≠ .null) else none
        | _ => none := by
  cases d with
  | obj members =>
    obtain ⟨hname, hlegal, hl, hdefault, type, hlookup, hform⟩ := field?_eq_some_iff.1 hfield
    cases htype.symm.trans hlookup
    refine ⟨hname, hlegal, hl, hform, ?_⟩
    rw [← hdefault, Form.givenDefault, hlookup]
    cases x <;> rfl
  | _ => cases hfield

theorem not_field (hfield : field? d = some field) (htype : d.get? "type" = some (.str name))
    (hname : name ∈ ["record", "array", "enum", "map", "fixed"]) : False := by
  have hform := (field_of_get? hfield htype).2.2.2.1
  simp only [List.mem_cons, List.not_mem_nil, or_false] at hname
  rcases hname with rfl | rfl | rfl | rfl | rfl <;> cases hform

theorem isFieldName_of_field? (h : field? d = some field) : Form.isFieldName field.name = true := by
  cases d with
  | obj members => exact (field?_eq_some_iff.1 h).2.1
  | _ => cases h

theorem isSolid_of_field? (h : field? d = some field) (hdefault : field.default ≠ none) : field.type.IsSolid := by
  cases d with
  | obj members =>
    obtain ⟨-, -, -, hgiven, type, htype, hform⟩ := field?_eq_some_iff.1 h
    rw [← hgiven, Form.givenDefault, htype] at hdefault
    cases type with
    | obj inner => exact Form.isSolid_of_describes (describes_of_form? hform).2
    | str s =>
      by_cases hb : isBasic s = true
      · rw [← Option.some.inj ((form?_of_isBasic hb).symm.trans hform)]
        exact Form.isSolid_basic hb
      · simp [hb] at hdefault
    | _ => simp at hdefault
  | _ => cases h

theorem truthy_of_isFieldName (h : Form.isFieldName name = true) : (Json.str name).truthy = true := by
  simpa [Json.truthy] using (Bool.and_eq_true_iff.1 h).1

theorem filledFrom_eq (h : field.default = (d.get? "default").filter (· ≠ .null)) (p : Place) (e : Encoder) :
    filledFrom d p e = field.filling p e := by
  rw [filledFrom, Field.filling, h]
  cases d.get? "default" with
  | none => rfl
  | some x => cases x <;> rfl

end

namespace Gen

variable {σ : Setting} {recursive : String → Prop} {root : Form} {d x : Json} {p : Place} {name : String}

theorem contains_of_form? {f : Form} (h : σ.store.form? name = some f) : σ.store.contains name = true := by
  obtain ⟨d, hd, -⟩ := Option.bind_eq_some_iff.1 h
  rw [Store.contains, hd]
  rfl

theorem kept_leads : Kept (Generator.Leads σ.store.form? recursive) where
  le h := h.counters
  trans := .trans
  still h _ hhelpers := ⟨h, by rw [hhelpers]; exact id⟩

abbrev leading (σ : Setting) (recursive : String → Prop) : Lockstep Counters σ σ :=
  tracing σ (kept_leads : Kept (Generator.Leads σ.store.form? recursive))

def Called (σ : Setting) (recursive : String → Prop) (name : String) : Prop :=
  recursive name ∧ Schema.hasDot name = true ∧ σ.store.isCycleStarting name = true

theorem elements_of_need {d : Json} {items xs : List Json} (hitems : d.get? "fields" = some (.arr items))
    (hxs : d.need "fields" >>= Json.needElements = .ok xs) : items = xs := by
  cases d with
  | obj members =>
    rw [Schema.need_eq_ok.2 hitems] at hxs
    exact Except.ok.inj hxs
  | _ => cases hitems

abbrev Suiting (σ : Setting) (recursive : String → Prop) (root : Form) : Lockstep.Writers Counters :=
  fun _ _ d _ p _ e _ => e.Suits σ recursive root d p

def Same (σ : Setting) (root : Form) (d d' : Json) : Prop := d = d' ∧ σ.Shapes root d

/-- What is inside a schema of the format, or a field, is of the format. -/
theorem shapes_inner (hd : σ.Shapes root d) (hx : d.Inner x) : σ.Shapes root x := by
  have hbranch : ∀ {g f types}, Form.Part σ.store.form? root g f → form? (.arr types) = some f → x ∈ types →
      σ.Shapes root x := by
    intro g f types hpart hform hx
    rw [form?, Option.map_eq_some_iff] at hform
    obtain ⟨branches, hbranches, rfl⟩ := hform
    obtain ⟨f, hf, hform⟩ := exists_mem_of_forall₂ (forms?_eq_some_iff.1 hbranches).flip hx
    exact .inl ⟨true, f, hpart.branch hf, hform⟩
  rcases hd with ⟨g, f, hpart, hform⟩ | ⟨field, hpart, hfield⟩
  · cases hx with
    | branch hx => exact hbranch hpart hform hx
    | items _ htype hx =>
      obtain ⟨items, f, rfl, hitems, hform⟩ := array_of_get? hform htype
      cases hx.symm.trans hitems
      exact .inl ⟨true, f, hpart.items, hform⟩
    | values _ htype hx =>
      obtain ⟨values, f, rfl, hvalues, hform⟩ := map_of_get? hform htype
      cases hx.symm.trans hvalues
      exact .inl ⟨true, f, hpart.values, hform⟩
    | type _ htype => exact (not_form hform htype (by simp)).elim
    | option _ htype => exact (not_form hform htype (by simp)).elim
  · cases hx with
    | branch => cases hfield
    | items _ htype => exact (not_field hfield htype (by decide)).elim
    | values _ htype => exact (not_field hfield htype (by decide)).elim
    | type _ htype => exact .inl ⟨false, _, hpart, (field_of_get? hfield htype).2.2.2.1⟩
    | option _ htype hx => exact hbranch hpart (field_of_get? hfield htype).2.2.2.1 hx

variable {r : Recursion}

variable (hσ : σ.Holds recursive root) {g : Bool} {field : Field Form} {s t : Generator}
include hσ

theorem form_of_loads (hpart : Form.Part σ.store.form? root g (.named name)) (hx : σ.store.Loads name x) :
    ∃ f, σ.store.form? name = some f ∧ Form.Part σ.store.form? root g f ∧ form? x = some f := by
  obtain ⟨f, hf⟩ := exists_form_of_part hσ.format hpart
  obtain ⟨context, r, r', hload⟩ := hx
  exact ⟨f, hf, hpart.definition hf, hσ.unambiguous hpart _ _ _ _ _ hload hf⟩

theorem shapes_of_loads (hd : σ.Shapes root d) (hname : d.Refers name) (hstored : σ.store.contains name = true)
    (hx : σ.store.Loads name x) : σ.Shapes root x := by
  have hdot := hσ.dotted name hstored
  rcases hd with ⟨g, f, hpart, hform⟩ | ⟨field, hpart, hfield⟩ <;> rcases hname with rfl | htype
  · cases (form?_of_hasDot hdot).symm.trans hform
    obtain ⟨f, -, hpart, hform⟩ := form_of_loads hσ hpart hx
    exact .inl ⟨g, f, hpart, hform⟩
  · exact (not_form_of_hasDot hform htype hdot).elim
  · cases hfield
  · rw [← Option.some.inj ((form?_of_hasDot hdot).symm.trans (field_of_get? hfield htype).2.2.2.1)] at hpart
    obtain ⟨f, -, hpart, hform⟩ := form_of_loads hσ hpart hx
    exact .inl ⟨false, f, hpart, hform⟩

theorem not_cycle_of_field (hpart : Form.Part σ.store.form? root false field.type) (hfield : field? d = some field)
    (htype : d.get? "type" = some (.str name)) (hdot : Schema.hasDot name = true) :
    Form.Part σ.store.form? root false (.named name) ∧ σ.store.isCycleStarting name = false := by
  rw [← Option.some.inj ((form?_of_hasDot hdot).symm.trans (field_of_get? hfield htype).2.2.2.1)] at hpart
  rcases hσ.format.named hpart with ⟨hplain, -⟩ | ⟨hfalse, -⟩
  · exact ⟨hpart, hplain⟩
  · cases hfalse

theorem premises (hr : r.Sound σ recursive root) : (leading σ recursive).Premises
    (Same σ root) (Same σ root) (fun _ => Called σ recursive) r r where
  fixed := by
    rw [← Bool.not_eq_true]
    exact fun hfixed => absurd (hσ.dotted _ hfixed) (by decide)
  stable := by
    rintro d _ ⟨rfl, -⟩
    exact ⟨.inl rfl, fun _ => rfl⟩
  part hd hx := ⟨rfl, shapes_inner hd.2 hx⟩
  elements := by
    rintro w d _ ⟨rfl, hd⟩ - htype s t xs rfl hxs
    obtain ⟨hneed, rfl⟩ := lift_eq_ok.1 hxs
    refine ⟨.refl _, xs, rfl, hneed, List.forall₂_same.2 fun x hx => ⟨rfl, ?_⟩⟩
    rcases hd with ⟨g, f, hpart, hform⟩ | ⟨field, hpart, hfield⟩
    · obtain ⟨items, fields, rfl, hitems, hfields⟩ := record_of_get? hform htype
      obtain rfl := elements_of_need hitems hneed
      obtain ⟨field, hfield, hx⟩ := exists_mem_of_forall₂ hfields.flip hx
      exact .inr ⟨field, hpart.field hfield, hx⟩
    · exact (not_field hfield htype (by decide)).elim
  load := by
    rintro w d _ name ⟨rfl, hd⟩ hname hstored s t x rfl hx
    exact ⟨leads_load hx, x, loads_of_load hx, fun _ => ⟨rfl, shapes_of_loads hσ hd hname hstored (loads_of_load hx)⟩⟩
  meet := by
    rintro w d _ name ⟨rfl, hd⟩ hname hbasic hcycle s t u rfl hu
    rcases hd with ⟨g, f, hpart, hform⟩ | ⟨field, hpart, hfield⟩ <;> rcases hname with rfl | ⟨htype, hstored⟩
    · rw [form?, Form.ofName] at hform
      split_ifs at hform with hnull _ hdot
      · subst hnull
        cases hform
        rw [hσ.format.null hpart] at hcycle
        cases hcycle
      · exact absurd hbasic (by simpa)
      · cases hform
        rcases hσ.format.named hpart with ⟨hplain, -⟩ | ⟨-, hname, fields, hfields⟩
        · rw [hplain] at hcycle
          cases hcycle
        · exact ⟨leads_meet hr (hσ.unambiguous hpart) hpart hfields hname hu, (), hname, hdot, hcycle⟩
    · exact (not_form_of_hasDot hform htype (hσ.dotted _ hstored)).elim
    · cases hfield
    · cases hcycle.symm.trans (not_cycle_of_field hσ hpart hfield htype (hσ.dotted _ hstored)).2

def GuardSuits (σ : Setting) (root : Form) (x : Json) (k _ : Guard) : Prop :=
  ∀ {g f}, Form.Part σ.store.form? root g f → form? x = some f → Form.HasGuard σ.store.form? f k ∧
    ∀ tag, f.tag? = some tag → ∃ name, x = .str name ∧ literalText name = tag

omit hσ in
/-- The code of fields, one after the other. -/
theorem writer_record {fields : List (Field Form)} {items : List Json} {codes : List Encoder}
    (hpart : Form.Part σ.store.form? root g (.record fields))
    (hfields : List.Forall₂ (fun x f => field? x = some f) items fields)
    (hcodes : List.Forall₂ (fun x e => e.Suits σ recursive root x p) items codes) :
    Writer σ.store.form? recursive (.record fields) p (.fields codes) := by
  obtain ⟨both, hfst, rfl, hboth⟩ := exists_joined hfields hcodes
  have hinner : ∀ q ∈ both, ∃ inner, q.2 = q.1.filling (p.member (.str q.1.name)) inner ∧
      Writer σ.store.form? recursive q.1.type (p.member (.str q.1.name)) inner := by
    intro q hq
    obtain ⟨x, hx, hcode⟩ := hboth q hq
    exact hcode.field (hpart.field (hfst ▸ List.mem_map_of_mem hq)) hx
  obtain ⟨parts, rfl, hparts⟩ := exists_companions hinner
  have hcodes : (parts.map (·.1)).map (·.2) =
      (parts.map fun q => (q.1.1, q.2)).map fun q => q.1.filling (p.member (.str q.1.name)) q.2 := by
    rw [List.map_map, List.map_map]
    exact List.map_congr_left fun q hq => (hparts q hq).1
  rw [hcodes]
  refine .record _ (by simp [← hfst]) ?_ ?_ ?_ <;> refine List.forall_mem_map.2 fun q hq => ?_
  · obtain ⟨x, hx, -⟩ := hboth q.1 (List.mem_map_of_mem hq)
    exact isFieldName_of_field? hx
  · obtain ⟨x, hx, -⟩ := hboth q.1 (List.mem_map_of_mem hq)
    exact isSolid_of_field? hx
  · exact (hparts q hq).2

omit hσ in
/-- The code of a union, for a subject at its place. -/
theorem writer_union {types : List Json} {f : Form} {subject : Subject} {data y : String}
    {bs bs' : List (Branch Encoder)} {q : Place} {w w₁ w' : Counters} (tag : String)
    (hpart : Form.Part σ.store.form? root g f) (hform : form? (.arr types) = some f) (hsubject : subject.At p)
    (hbs : Lockstep.AllBranches (GuardSuits σ root) (Suiting σ recursive root) w w₁ w' types p q data y bs bs') :
    Writer σ.store.form? recursive f p (.union subject tag data bs) := by
  rw [form?, Option.map_eq_some_iff] at hform
  obtain ⟨branches, hbranches, rfl⟩ := hform
  obtain ⟨hordered, hcover⟩ := inTrialOrder_spec (forms?_eq_some_iff.1 hbranches)
  obtain ⟨pairs, hpairs, hpairs'⟩ := exists_companions hordered
  have hforms : List.Forall₂ (fun t f => ∃ f', form? t.1 = some f ∧ f ∈ branches ∧ branches[t.2]? = some f' ∧
      f'.bare = f.bare) (inTrialOrder types) (pairs.map (·.2)) := by
    rw [← hpairs, List.forall₂_map_left_iff, List.forall₂_map_right_iff]
    exact List.forall₂_same.2 hpairs'
  obtain ⟨parts, hfst, rfl, hparts⟩ := exists_joined hforms hbs.firsts
  have hpart' : ∀ {f}, f ∈ branches → Form.Part σ.store.form? root true f := hpart.branch
  refine .union parts hsubject (fun f => ⟨fun hf => ?_, fun hf => ?_⟩) (fun q hq => ?_) (fun q hq => ?_)
    (fun q hq => ?_) (fun q hq => ?_) fun q hq => ?_
  · obtain ⟨t, ht, hform⟩ := hcover f hf
    obtain ⟨f', hf', -, hform', -⟩ := exists_mem_of_forall₂ hforms.flip ht
    cases hform.symm.trans hform'
    exact hfst ▸ hf'
  · obtain ⟨q, hq, rfl⟩ := List.mem_map.1 hf
    obtain ⟨t, ⟨_, -, hmem, -⟩, -⟩ := hparts q hq
    exact hmem
  all_goals obtain ⟨t, ⟨f', hform, hmem, hindex, hbare⟩, _, _, hb⟩ := hparts q hq
  · exact ⟨f', hb.index.1 ▸ hindex, hbare⟩
  · intro tag htag
    obtain ⟨name, hname, hliteral⟩ := (hb.guard (hpart' hmem) hform).2 tag htag
    obtain ⟨given, hgiven, hpasted, -⟩ := hb.tag
    rw [hname] at hgiven
    cases hgiven
    rw [hpasted, ← hliteral]
    rfl
  · exact (hb.guard (hpart' hmem) hform).1
  · rcases hb.plain with hplain | ⟨hnull, hplain, -⟩
    · exact hplain.form (hpart' hmem) hform
    · rw [hnull] at hform
      rw [hplain, show q.1 = .null from (Option.some.inj hform).symm]
      exact .null
  · exact hb.tagged.form (hpart' hmem) hform

theorem writerRules : (leading σ recursive).WriterRules (Same σ root) Eq (fun _ => Called σ recursive)
    (GuardSuits σ root) (Suiting σ recursive root) (Suiting σ recursive root) where
  mono _ _ h := h
  null := ⟨fun _ hform => Option.some.inj hform ▸ .null, fun _ hfield => by cases hfield⟩
  primitive {_ p _ name} hd _ hnull hstored := by
    refine ⟨fun {g f} hpart hform => ?_, fun _ hfield => by cases hfield⟩
    rw [form?, Form.ofName, if_neg hnull] at hform
    split_ifs at hform with hbasic
    · cases hform
      exact .basic hbasic
    · cases hform
      obtain ⟨f, hf⟩ := exists_form_of_part hσ.format hpart
      simp [contains_of_form? hf, hbasic] at hstored
  fixed hd _ htype := by
    refine ⟨fun _ hform => ?_, fun _ hfield => (not_field hfield htype (by decide)).elim⟩
    obtain ⟨n, rfl, -⟩ := fixed_of_get? hform htype
    exact .fixed
  recur {_ _ d _ p _ name} hd _ hname hmet := by
    obtain ⟨hrecursive, hdot, hcycle⟩ := hmet
    refine ⟨fun hpart hform => ?_, fun hpart hfield => ?_⟩ <;> rcases hname with rfl | htype
    · cases (form?_of_hasDot hdot).symm.trans hform
      exact .recur hrecursive
    · exact (not_form_of_hasDot hform htype hdot).elim
    · cases hfield
    · cases hcycle.symm.trans (not_cycle_of_field hσ hpart hfield htype hdot).2
  loaded {_ _ p _ name x _ a _} hd hstored hx hab := by
    refine ⟨fun hpart hform => ?_, fun _ hfield => by cases hfield⟩
    cases (form?_of_hasDot (hσ.dotted _ hstored)).symm.trans hform
    obtain ⟨f, hf, hpart', hform'⟩ := form_of_loads hσ hpart hx
    exact .named hf (hab.form hpart' hform')
  reference {_ _ d _ p _ name x _ key a _} hd htype hstored hkey hx hab := by
    have hdot := hσ.dotted _ hstored
    refine ⟨fun _ hform => (not_form_of_hasDot hform htype hdot).elim, fun {field} hpart hfield => ?_⟩
    obtain ⟨hname, -, -, hform, hdefault⟩ := field_of_get? hfield htype
    cases hkey.symm.trans hname
    have hnamed := Option.some.inj ((form?_of_hasDot hdot).symm.trans hform)
    obtain ⟨f, hf, hpart', hform'⟩ := form_of_loads hσ (not_cycle_of_field hσ hpart hfield htype hdot).1 hx
    refine ⟨a, ?_, hnamed ▸ .named hf (hab.form hpart' hform')⟩
    rw [Field.filling, hdefault.trans (if_neg (by simp [isBasic_of_hasDot hdot]))]
  logical hd _ hlogical htype := by
    refine ⟨fun _ hform => ?_, fun _ hfield => ?_⟩
    · obtain ⟨members, rfl, -, hl, -⟩ := describes_of_get? hform htype
      cases hlogical.symm.trans hl
    · cases hlogical.symm.trans (field_of_get? hfield htype).2.2.1
  fields hd htype hxs hab := by
    refine ⟨fun hpart hform => ?_, fun _ hfield => (not_field hfield htype (by decide)).elim⟩
    obtain ⟨items, fields, rfl, hitems, hfields⟩ := record_of_get? hform htype
    obtain rfl := elements_of_need hitems hxs
    refine writer_record hpart hfields (hab.firsts.imp ?_)
    rintro x e ⟨_, _, hcode⟩
    exact hcode
  array hd _ _ htype hx hab := by
    refine ⟨fun hpart hform => ?_, fun _ hfield => (not_field hfield htype (by decide)).elim⟩
    obtain ⟨items, f, rfl, hitems, hform⟩ := array_of_get? hform htype
    cases hx.symm.trans hitems
    exact .array (hab.form hpart.items hform)
  enum hd _ htype hsymbols := by
    refine ⟨fun _ hform => ?_, fun _ hfield => (not_field hfield htype (by decide)).elim⟩
    obtain ⟨names, rfl, hnames⟩ := enum_of_get? hform htype
    cases hsymbols.symm.trans hnames
    exact .enum
  map hd _ _ _ htype hx hab := by
    refine ⟨fun hpart hform => ?_, fun _ hfield => (not_field hfield htype (by decide)).elim⟩
    obtain ⟨values, f, rfl, hvalues, hform⟩ := map_of_get? hform htype
    cases hx.symm.trans hvalues
    exact .map (hab.form hpart.values hform)
  union hd hpq _ _ hbs :=
    ⟨fun hpart hform => writer_union _ hpart hform .value hbs, fun _ hfield => by cases hfield⟩
  unionField {_ _ _ _ d _ p _ types key k _ _ _ _ _} hd hpq htype hkey _ _ hbs := by
    refine ⟨fun _ hform => (not_form hform htype (by simp)).elim, fun {field} hpart hfield => ?_⟩
    obtain ⟨hname, hlegal, -, hform, hdefault⟩ := field_of_get? hfield htype
    cases hkey.symm.trans hname
    refine ⟨_, ?_, writer_union (variableName "type" k) hpart hform (.member hlegal rfl) hbs⟩
    rw [Field.filling, hdefault]
  nested {_ _ d _ p _ inner key a _} hd _ htype hkey hab := by
    refine ⟨fun _ hform => (not_form hform htype (by simp)).elim, fun {field} hpart hfield => ?_⟩
    obtain ⟨hname, -, -, hform, hdefault⟩ := field_of_get? hfield htype
    cases hkey.symm.trans hname
    exact ⟨a, filledFrom_eq hdefault _ a, hab.form hpart hform⟩
  basic {_ d _ p _ name} hd _ htype hbasic := by
    refine ⟨fun _ hform => ?_, fun {field} hpart hfield => ?_⟩
    · obtain ⟨rfl, hname⟩ := basic_of_get? hform htype hbasic
      rw [Parallel.ownPlace, if_neg (by simp [hname]), filledFrom]
      split
      · exact .basic hbasic
      · exact .basic hbasic
      · exact .defaulted hbasic
    · obtain ⟨hname, hlegal, -, hform, hdefault⟩ := field_of_get? hfield htype
      rw [← Option.some.inj ((form?_of_isBasic hbasic).symm.trans hform), Parallel.ownPlace, hname, Option.getD_some,
        if_pos (truthy_of_isFieldName hlegal)]
      exact ⟨_, filledFrom_eq (hdefault.trans (if_pos hbasic)) _ _, .basic hbasic⟩

omit hσ in
theorem leads_guardIn_of_field {bound : Nat} {k : Guard} (hfield : field? d = some field)
    (h : guardIn bound d σ s = (.ok k, t)) : s.Leads σ.store.form? recursive t := by
  cases bound with
  | zero => exact (throw_eq_ok.1 h).elim
  | succ bound =>
    cases d with
    | obj members => exact .of_eq (lift_eq_ok.1 h).2
    | _ => cases hfield

/-- One step gives code for the form of a schema. -/
theorem encodeStep_eq_ok (hr : r.Sound σ recursive root) {code : Encoder} (hd : σ.Shapes root d)
    (h : encodeStep r d p σ s = (.ok code, t)) :
    code.Suits σ recursive root d p ∧ s.Leads σ.store.form? recursive t := by
  have hwriting : (leading σ recursive).Writing (Same σ root) (Same σ root) (fun _ => Called σ recursive) r r Eq
      (GuardSuits σ root) (Suiting σ recursive root) (Suiting σ recursive root) :=
    { toPremises := premises hσ hr
      rules := writerRules hσ
      encode := by
        rintro w d _ p _ ⟨rfl, hd⟩ rfl s t a - ha
        obtain ⟨hcode, hleads⟩ := hr.encode hd ha
        exact ⟨hleads, a, hcode⟩
      guards := by
        rintro w x ⟨-, hx⟩ s t k - hk
        change guardIn (σ.store.database.length + 2) x σ s = (.ok k, t) at hk
        have hguard : GuardSuits σ root x k k := fun hpart hform =>
          ⟨(guardIn_eq_ok hσ.format hσ.unambiguous hpart hform hk).1, fun _ htag => exists_name_of_tag hform htag hk⟩
        rcases hx with ⟨g, f, hpart, hform⟩ | ⟨field, hpart, hfield⟩
        · exact ⟨(guardIn_eq_ok hσ.format hσ.unambiguous hpart hform hk).2, k, hguard⟩
        · exact ⟨leads_guardIn_of_field hfield hk, k, hguard⟩
      value := fun h => h.1 ▸ rfl
      member := fun _ _ _ hpq => hpq ▸ rfl
      text := fun hpq => ⟨fun hp => .inl (hpq ▸ hp), fun hq => .inl (hpq ▸ hq)⟩ }
  obtain ⟨hleads, _, hcode⟩ := hwriting.encodeStep (w := s.counters) ⟨rfl, hd⟩ rfl rfl h
  exact ⟨hcode, hleads⟩

omit hσ in
theorem encodeStep_reference (hl : d.get? "logicalType" = none) (htype : d.get? "type" = some (.str name))
    (hdot : Schema.hasDot name = true) (hstored : σ.store.contains name = true) :
    encodeStep r d p σ = encodeReferenceField r d name p σ := by
  have hstep : encodeStep r d p = encodeObject r d (.str name) p := by
    cases d with
    | obj members =>
      change (liftM ((Json.obj members).need "type") >>= fun type => encodeObject r (.obj members) type p) = _
      rw [Schema.need_eq_ok.2 htype]
      rfl
    | _ => cases htype
  rw [hstep, encodeObject, hl]
  · dsimp only
    rw [isBasic_of_hasDot hdot, if_neg Bool.false_ne_true]
    change (if σ.store.contains name then encodeReferenceField r d name p else throw (.unhandled d) : Gen Encoder) σ = _
    rw [if_pos hstored]
  all_goals
    rintro rfl
    exact absurd hdot (by decide)

end Gen

end AvroCodec
