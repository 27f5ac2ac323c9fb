import AvroCodec.Proofs.Writer

/-!
# Writing values of a form

Code for a form writes the encoding of every value of the form, if the branches of unions are of different
kinds. How many functions it calls inside one another is bounded by the depth of the value.
-/

namespace AvroCodec

open Code Encoder

namespace Form

variable {env : String → Option Form} {known : String → Prop} {table : List (String × Routine)}
  {root : Form}

variable {f g : Form} {x : Value} {k k' : Guard} {branches : List Form} {bytes : List UInt8}

/-- Two branches that accept the same value are one and the same, even if one stands under the position
of a branch that differs in its defaults. -/
theorem Told.index_eq_of_accepts (h : Told env branches) {i j : Nat} {g' : Form} (hi : branches[i]? = some f)
    (hj : branches[j]? = some g') (hbare : g'.bare = g.bare) (hf : HasGuard env f k) (hg : HasGuard env g k')
    (hx : k.accepts x = true) (hx' : k'.accepts x = true) : j = i := by
  refine h.index_eq hj hi fun bound a b ha hb => ?_
  rw [← kindIn_bare, hbare, kindIn_bare] at ha
  exact Option.some.inj ((hg.kind?_of_accepts ha hx').symm.trans (hf.kind?_of_accepts hb hx))

theorem Told.eq_of_accepts (h : Told env branches) {i : Nat} (hi : branches[i]? = some f) (hmem : g ∈ branches)
    (hf : HasGuard env f k) (hg : HasGuard env g k') (hx : k.accepts x = true) (hx' : k'.accepts x = true) : g = f := by
  obtain ⟨j, hj⟩ := List.mem_iff_getElem?.1 hmem
  obtain rfl := h.index_eq_of_accepts hi hj rfl hf hg hx hx'
  exact Option.some.inj (hj.symm.trans hi)

/-- The guard of a form accepts its values. -/
theorem Encodes.accepts (h : Encodes env f x bytes) (hk : HasGuard env f k) : k.accepts x = true := by
  induction h generalizing k with
  | null =>
    cases hk
    rfl
  | basic hx _ =>
    cases hk with
    | basic hb hname =>
      refine (basicKind?_of_hasType hb hname).2 ?_
      cases hx <;> rfl
  | @enum symbols s i hi hlim =>
    cases hk
    obtain ⟨hlt, hget, -⟩ := List.findIdx?_eq_some_iff_getElem.1 hi
    have hmem : s ∈ symbols := eq_of_beq hget ▸ List.getElem_mem hlt
    simpa [Guard.accepts, Value.isStr, isAmong, Json.elements?, equals_str_eq] using hmem
  | named hn _ ih =>
    cases hk with
    | named hn' hk =>
      cases hn.symm.trans hn'
      exact ih hk
  | union hi hlim h ih => cases hk
  | _ =>
    cases hk
    rfl

theorem Encodes.isNull_eq (h : Encodes env f x bytes) (hf : f.IsSolid) : x.isNull = false := by
  obtain ⟨kind, hkind, hne⟩ := hf
  cases h with
  | null =>
    cases hkind
    exact absurd rfl hne
  | basic hx _ => cases hx <;> rfl
  | union _ _ _ => cases hkind
  | named _ _ => cases hkind
  | _ => rfl

theorem Encodes.ne_tuple (h : Encodes env f x bytes) (items : List Value) : x ≠ .tuple items := by
  induction h with
  | basic hx _ => cases hx <;> simp
  | union _ _ _ ih => exact ih
  | named _ _ ih => exact ih
  | _ => simp [Value.dict]

/-- How many calls inside one another writing a value can need. -/
def calls (x : Value) : Form → Nat
  | .record _ => x.depth
  | _ => x.depth + 1

theorem calls_le (x : Value) (f : Form) : f.calls x ≤ x.depth + 1 := by
  cases f <;> simp [calls]

end Form

namespace Value

variable {x : Value} {items : List Value}

theorem depth_le_depthItems (h : x ∈ items) : x.depth ≤ depthItems items := by
  induction items with
  | nil => cases h
  | cons y items ih =>
    rw [depthItems]
    rcases List.mem_cons.1 h with rfl | h
    · exact le_max_left _ _
    · exact (ih h).trans (le_max_right _ _)

theorem depth_lt_list (h : x ∈ items) : x.depth < (Value.list items).depth := by
  rw [depth]
  exact Nat.lt_succ_of_le (depth_le_depthItems h)

theorem depth_le_depthEntries {e : Value × Value} {entries : List (Value × Value)}
    (h : e ∈ entries) : e.2.depth ≤ depthEntries entries := by
  induction entries with
  | nil => cases h
  | cons e' entries ih =>
    rw [depthEntries]
    rcases List.mem_cons.1 h with rfl | h
    · exact le_max_left _ _
    · exact (ih h).trans (le_max_right _ _)

theorem depth_lt_dict {key : String} {entries : List (String × Value)}
    (h : (key, x) ∈ entries) : x.depth < (dict entries).depth := by
  rw [dict, depth]
  exact Nat.lt_succ_of_le
    (depth_le_depthEntries (e := (.str key, x)) (List.mem_map.2 ⟨(key, x), h, rfl⟩))

end Value

namespace Form

variable {env : String → Option Form} {known : String → Prop} {table : List (String × Routine)}

variable {p : Place} {e : Encoder} {host x : Value} {scope : WriteScope}

theorem writes_filling {field : Field Form} {bytes bytes' : List UInt8}
    (hsolid : field.default ≠ none → field.type.IsSolid) (hx : Encodes env field.type x bytes')
    (hwalk : host.walk (p.member (.str field.name)).keys = .ok x) (h : e.Writes scope host bytes) :
    (field.filling (p.member (.str field.name)) e).Writes scope host bytes := by
  unfold Field.filling
  split
  · exact h
  · rename_i default hdefault
    have hnull := hx.isNull_eq (hsolid (by simp [hdefault]))
    exact writes_filled hwalk hnull h

/-- Code for a record writes its fields from a dictionary that has them. What else the dictionary has is
not looked at. -/
theorem writes_record (parts : List (Field Form × Value × List UInt8)) {entries : List (String × Value)}
    (hkeys : (entries.map (·.1)).Nodup) (hentries : ∀ q ∈ parts, (q.1.name, q.2.1) ∈ entries)
    (henc : ∀ q ∈ parts, Encodes env q.1.type q.2.1 q.2.2)
    (h : ∀ q ∈ parts, ∀ p e, Writer env known q.1.type p e → host.walk p.keys = .ok q.2.1 →
      e.Writes scope host q.2.2) (he : Writer env known (.record (parts.map (·.1))) p e)
    (hwalk : host.walk p.keys = .ok (.dict entries)) : e.Writes scope host (parts.flatMap (·.2.2)) := by
  cases he with
  | record encoders hfields hfieldNames hsolid hparts =>
    obtain ⟨both, rfl, rfl, hboth⟩ := exists_zip hfields
    have hall : ∀ q ∈ both, (q.1.1.filling (p.member (.str q.1.1.name)) q.1.2).Writes scope host
        q.2.2.2 := by
      intro q hq
      have hmem := List.mem_map_of_mem (f := (·.2)) hq
      have hq' := List.mem_map_of_mem (f := (·.1)) hq
      have hname := hfieldNames q.1 hq'
      have hwriter := hparts q.1 hq'
      have hentry : (q.1.1.name, q.2.2.1) ∈ entries := by
        rw [hboth q hq]
        exact hentries q.2 hmem
      have hvalue : host.walk (p.member (.str q.1.1.name)).keys = .ok q.2.2.1 := by
        rw [Place.keys_member hname, Value.walk_append hwalk, Value.dict, Value.walk,
          Value.find?_dict_of_mem hkeys hentry]
        rfl
      have henc' : Encodes env q.1.1.type q.2.2.1 q.2.2.2 := by
        rw [hboth q hq]
        exact henc q.2 hmem
      refine writes_filling (hsolid q.1 hq') henc' hvalue ?_
      rw [hboth q hq] at hwriter hvalue
      exact h q.2 hmem _ _ hwriter hvalue
    have hwrites := writes_fields (both.map fun q =>
      (q.1.1.filling (p.member (.str q.1.1.name)) q.1.2, q.2.2.2)) (List.forall_mem_map.2 hall)
    simpa only [List.map_map, List.flatMap_map, Function.comp_def] using hwrites

/-- Code for a form writes the encodings of its values. -/
theorem Encodes.writes {f : Form} {bytes : List UInt8} (htable : WritesKnown env known table)
    (hdistinct : Distinct env root) (h : Encodes env f x bytes) {g : Bool} {K : Nat} {tags : List String}
    (hpart : Part env root g f) (he : Writer env known f p e) (hwalk : host.walk p.keys = .ok x)
    (hK : f.calls x ≤ K) : e.Writes ⟨tags, Routine.writeCall table K⟩ host bytes := by
  induction h generalizing g p e host K tags with
  | null =>
    cases he
    exact writes_null
  | basic hx h =>
    have hwrites : (primitive _ p).Writes ⟨tags, Routine.writeCall table K⟩ host _ :=
      writes_primitive hwalk h.write_eq
    cases he with
    | basic => exact hwrites
    | defaulted =>
      refine writes_filled hwalk ?_ hwrites
      cases hx <;> rfl
  | fixed data =>
    cases he
    exact writes_primitive hwalk rfl
  | enum hi hlim =>
    cases he
    exact writes_enum hwalk hi hlim
  | array parts hlen _ ih =>
    cases he with
    | array hbody =>
      refine writes_array hwalk hlen fun q hq => ih q hq hpart.items hbody rfl ?_
      have hdepth := Value.depth_lt_list (List.mem_map_of_mem (f := (·.1)) hq)
      simp only [calls] at hK
      exact (calls_le _ _).trans (by omega)
  | map parts hlen hkeys htext _ ih =>
    cases he with
    | map hbody =>
      refine writes_map hwalk hlen htext fun q hq => ih q hq hpart.values hbody rfl ?_
      have hdepth := Value.depth_lt_dict (List.mem_map_of_mem (f := fun q => (q.1, q.2.1)) hq)
      simp only [calls] at hK
      exact (calls_le _ _).trans (by omega)
  | @record parts entries hkeys hnames hentries henc ih =>
    refine writes_record parts hkeys hentries henc (fun q hq p e he hwalk => ?_) he hwalk
    have hdepth := Value.depth_lt_dict (hentries q hq)
    simp only [calls] at hK
    exact ih q hq (hpart.field (List.mem_map_of_mem hq)) he hwalk ((calls_le _ _).trans (by omega))
  | @union branches i f x bytes hi hlim h ih =>
    cases he with
    | union parts hsubject hmem hindex htag hguard hplain htagged =>
      have htold := hdistinct _ _ hpart
      have hlook := hsubject.look_eq hwalk
      have hwalk' := hwalk
      rw [← hsubject.keys_eq] at hwalk'
      have hf := List.mem_of_getElem? hi
      obtain ⟨q₀, hq₀, hform₀⟩ := List.mem_map.1 ((hmem f).1 hf)
      have hguard₀ := hguard q₀ hq₀
      rw [hform₀] at hguard₀
      have haccepts := h.accepts hguard₀
      refine writes_union hlook h.ne_tuple hlim ?_ ?_ ?_
      · exact List.forall_mem_map.2 fun q hq => (hguard q hq).passes_eq hlook hwalk'
      · exact ⟨q₀.2, List.mem_map_of_mem hq₀, haccepts⟩
      · refine List.forall_mem_map.2 fun q hq hx => ?_
        obtain ⟨f', hf', hbare⟩ := hindex q hq
        have hform : q.1 = f := htold.eq_of_accepts hi ((hmem _).2 (List.mem_map_of_mem hq)) hguard₀
          (hguard q hq) haccepts hx
        refine ⟨htold.index_eq_of_accepts hi hf' hbare hguard₀ (hguard q hq) haccepts hx,
          ih (hpart.branch hf) ?_ hwalk ((calls_le _ _).trans hK)⟩
        rw [← hform]
        exact hplain q hq
  | @named name f x bytes hn h ih =>
    cases he with
    | named hn' he =>
      cases hn.symm.trans hn'
      exact ih (hpart.definition hn) he hwalk ((calls_le _ _).trans hK)
    | recur hk =>
      obtain ⟨fields, routine, hf', hroutine, hwriter⟩ := htable _ hk
      cases hn.symm.trans hf'
      simp only [calls] at hK
      obtain ⟨K, rfl⟩ : ∃ K', K = K' + 1 := Nat.exists_eq_add_one.2 (by omega)
      have hbody : routine.writer.Writes ⟨routine.typedTags, Routine.writeCall table K⟩ x bytes :=
        ih (hpart.definition hn) hwriter rfl (by simpa [calls] using hK)
      obtain ⟨eff, hrun, hemits⟩ := hbody
      refine writes_recur hwalk ?_ hemits
      simp only [Routine.writeCall, hroutine]
      exact hrun

end Form

end AvroCodec
