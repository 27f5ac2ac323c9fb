import AvroCodec.Proofs.Generation

/-!
# Branches of unions

The order in which the branches of a union are tried, and their guards. Each is written under the position
of the first branch that is the same.
-/

namespace AvroCodec

open Code

namespace Gen

variable {env : String → Option Form} {types : List Json} {branches : List Form} {f : Form} {k : Guard} {bound : Nat}
  {name : String}

theorem exists_form_of_getElem? (hforms : List.Forall₂ (fun t f => form? t = some f) types branches)
    {i : Nat} {t : Json} (hi : types[i]? = some t) :
    ∃ f, form? t = some f ∧ branches[i]? = some f := by
  induction hforms generalizing i with
  | nil => cases hi
  | cons h _ ih =>
    cases i with
    | zero =>
      cases hi
      exact ⟨_, h, rfl⟩
    | succ i => exact ih hi

theorem exists_position (hforms : List.Forall₂ (fun t f => form? t = some f) types branches) {t : Json}
    (ht : t ∈ types) : ∃ f f', form? t = some f ∧ f ∈ branches ∧
      branches[types.findIdx fun u => u = t || u.same t]? = some f' ∧ f'.bare = f.bare := by
  obtain ⟨i, hi⟩ := List.mem_iff_getElem?.1 ht
  obtain ⟨f, hf, hi'⟩ := exists_form_of_getElem? hforms hi
  have hlt : (types.findIdx fun u => u = t || u.same t) < types.length :=
    List.findIdx_lt_length_of_exists ⟨t, ht, by simp⟩
  have hfound := List.findIdx_getElem (w := hlt)
  rw [Bool.or_eq_true, decide_eq_true_eq] at hfound
  obtain ⟨f', hf', hposition⟩ := exists_form_of_getElem? hforms (List.getElem?_eq_getElem hlt)
  refine ⟨f, f', hf, List.mem_of_getElem? hi', hposition, ?_⟩
  rcases hfound with heq | hsame
  · rw [heq] at hf'
    cases hf.symm.trans hf'
    rfl
  · exact Form.bare_eq_of_same hsame hf' hf

/-- Every type is tried under the position of a type that is the same, and all types are tried. -/
theorem inTrialOrder_spec (hforms : List.Forall₂ (fun t f => form? t = some f) types branches) :
    (∀ t ∈ inTrialOrder types, ∃ f f', form? t.1 = some f ∧ f ∈ branches ∧
      branches[t.2]? = some f' ∧ f'.bare = f.bare) ∧
      ∀ f ∈ branches, ∃ t ∈ inTrialOrder types, form? t.1 = some f := by
  unfold inTrialOrder
  constructor
  · intro t ht
    rcases List.mem_append.1 ht with ht | ht
    · split_ifs at ht with hnull
      · obtain ⟨u, hu, hsame⟩ := List.any_eq_true.1 hnull
        cases Json.same_str_iff.1 hsame
        rw [List.mem_singleton.1 ht]
        exact exists_position hforms hu
      · cases ht
    · obtain ⟨u, hu, rfl⟩ := List.mem_map.1 ht
      exact exists_position hforms (List.mem_filter.1 hu).1
  · intro f hf
    obtain ⟨t, ht, hform⟩ := exists_mem_of_forall₂ hforms hf
    by_cases hnull : t.same (.str "null") = true
    · cases Json.same_str_iff.1 hnull
      have hany : (types.any fun x => x.same (.str "null")) = true :=
        List.any_eq_true.2 ⟨_, ht, hnull⟩
      refine ⟨(.str "null", types.findIdx fun u => u = .str "null" || u.same (.str "null")),
        List.mem_append_left _ ?_, hform⟩
      rw [if_pos hany]
      exact List.mem_cons_self
    · exact ⟨_, List.mem_append_right _
        (List.mem_map.2 ⟨t, List.mem_filter.2 ⟨ht, by simpa using hnull⟩, rfl⟩), hform⟩

theorem guardOfObject_eq_ok {members : Members} (hform : form? (.obj members) = some f)
    (h : guardOfObject (.obj members) = .ok k) : Form.HasGuard env f k ∧ f.tag? = none := by
  obtain ⟨hl, hdescribes⟩ := describes_of_form? hform
  cases hdescribes with
  | record ht hf hfields =>
    simp only [guardOfObject, Json.get?, ht, hl, Json.need] at h
    cases h
    exact ⟨.record _, rfl⟩
  | array ht hi hitems =>
    simp only [guardOfObject, Json.get?, ht] at h
    cases h
    exact ⟨.array _, rfl⟩
  | map ht hv hvalues =>
    simp only [guardOfObject, Json.get?, ht] at h
    cases h
    exact ⟨.map _, rfl⟩
  | enum ht hs =>
    simp only [guardOfObject, Json.get?, ht, Json.need, hs] at h
    cases h
    exact ⟨.enum _, rfl⟩
  | fixed ht hs hn =>
    simp only [guardOfObject, Json.get?, ht] at h
    cases h
    exact ⟨.fixed _, rfl⟩
  | @basic s ht hb hn =>
    -- a basic type in an object has no guard
    rcases Form.mem_basicTypes hb with rfl | rfl | rfl | rfl | rfl | rfl | rfl <;>
      simp only [guardOfObject, Json.get?, ht, hl, Json.need] at h <;> cases h

variable {σ : Setting} {recursive : String → Prop} {root : Form} {s t : Generator}

theorem exists_form_of_part (hformat : σ.store.Format recursive root) {g : Bool}
    (hpart : Form.Part σ.store.form? root g (.named name)) : ∃ f, σ.store.form? name = some f := by
  rcases hformat.named hpart with ⟨-, h⟩ | ⟨-, -, fields, h⟩
  · exact h
  · exact ⟨_, h⟩

theorem valueType?_of_hasDot (h : Schema.hasDot name = true) : valueType? (.str name) = none := by
  have hne : ∀ other : String, Schema.hasDot other = false → name ≠ other := by
    rintro other hother rfl
    exact Bool.false_ne_true (hother.symm.trans h)
  simp [valueType?, hne "string" (by decide), hne "boolean" (by decide), hne "long" (by decide),
    hne "double" (by decide), hne "int" (by decide), hne "null" (by decide),
    hne "float" (by decide), hne "bytes" (by decide)]

theorem exists_valueType {type : String} (h : isBasic type = true) :
    ∃ name, valueType? (.str type) = some name ∧ name ≠ "null" := by
  rcases Form.mem_basicTypes h with rfl | rfl | rfl | rfl | rfl | rfl | rfl
  · exact ⟨"bool", by decide, by decide⟩
  · exact ⟨"int", by decide, by decide⟩
  · exact ⟨"int", by decide, by decide⟩
  · exact ⟨"float", by decide, by decide⟩
  · exact ⟨"float", by decide, by decide⟩
  · exact ⟨"bytes", by decide, by decide⟩
  · exact ⟨"str", by decide, by decide⟩

theorem guardIn_eq_ok (hformat : σ.store.Format recursive root)
    (hu : ∀ {g name}, Form.Part σ.store.form? root g (.named name) → σ.store.Unambiguous name) {g : Bool} {d : Json}
    (hpart : Form.Part σ.store.form? root g f) (hd : form? d = some f) (h : guardIn bound d σ s = (.ok k, t)) :
    Form.HasGuard σ.store.form? f k ∧ s.Leads σ.store.form? recursive t := by
  induction bound generalizing d f s with
  | zero => exact (throw_eq_ok.1 h).elim
  | succ bound ih =>
    cases d with
    | str name =>
      rw [form?, Form.ofName] at hd
      split_ifs at hd with hnull hbasic hdot
      · subst hnull
        cases hd
        have hv : valueType? (.str "null") = some "null" := by decide
        simp only [guardIn, hv, pure_eq_ok] at h
        exact ⟨h.1 ▸ .null, .of_eq h.2⟩
      · cases hd
        obtain ⟨type, hv, hne⟩ := exists_valueType hbasic
        simp only [guardIn, hv, pure_eq_ok] at h
        exact ⟨h.1 ▸ .basic hbasic hv, .of_eq h.2⟩
      · cases hd
        simp only [guardIn, valueType?_of_hasDot hdot, bind_eq_ok, read_eq_ok] at h
        obtain ⟨_, _, hread, h⟩ := h
        rw [hread.1, hread.2] at h
        by_cases hstored : σ.store.contains name = true
        · simp only [hstored, if_true, bind_eq_ok] at h
          obtain ⟨loaded, s₁, hload, h⟩ := h
          obtain ⟨f, hf⟩ := exists_form_of_part hformat hpart
          obtain ⟨hguard, hleads⟩ := ih (hpart.definition hf) (form?_of_load (hu hpart) hf hload) h
          exact ⟨.named hf hguard, (leads_load hload).trans hleads⟩
        · rw [if_neg hstored] at h
          exact (throw_eq_ok.1 h).elim
    | obj members =>
      simp only [guardIn, valueType?, lift_eq_ok] at h
      exact ⟨(guardOfObject_eq_ok hd h.1).1, .of_eq h.2⟩
    | arr types =>
      simp only [guardIn, valueType?, throw_eq_ok] at h
    | _ => cases hd

/-- A branch with a guard and a tag of its own is given by its name alone. -/
theorem exists_name_of_tag {d : Json} {tag : String} (hd : form? d = some f) (htag : f.tag? = some tag)
    (h : guardIn bound d σ s = (.ok k, t)) : ∃ name, d = .str name ∧ literalText name = tag := by
  cases bound with
  | zero => exact (throw_eq_ok.1 h).elim
  | succ bound =>
    cases d with
    | str name =>
      refine ⟨name, rfl, ?_⟩
      rw [form?, Form.ofName] at hd
      split_ifs at hd with hnull hbasic hdot
      · cases hd
        cases htag
        rw [hnull]
        decide
      · cases hd
        cases htag
        rcases Form.mem_basicTypes hbasic with rfl | rfl | rfl | rfl | rfl | rfl | rfl <;> decide
      · cases hd
        exact Option.some.inj htag
    | obj members =>
      simp only [guardIn, valueType?, lift_eq_ok] at h
      have hnone := (@guardOfObject_eq_ok σ.store.form? _ _ _ hd h.1).2
      cases hnone.symm.trans htag
    | arr types =>
      simp only [guardIn, valueType?, throw_eq_ok] at h
    | _ => cases hd

end Gen

end AvroCodec
