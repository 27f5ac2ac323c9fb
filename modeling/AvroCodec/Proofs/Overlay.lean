import AvroCodec.Proofs.Readable

/-!
# Fields of recursive types

The code for a field whose type is recursive hands over the whole record, and not the entry of the field.
So the fields of the recursive type are written from the record itself, and what is read takes the place
of the record as far as it has been read.
-/

namespace AvroCodec

open Code Recursion Encoder

namespace Store

variable {store : Store} {recursive : String → Prop} {field : Field Form} {fields : List (Field Form)}

/-- The fields of the recursive type that a field has. -/
def tree? (store : Store) (field : Field Form) : Option (List (Field Form)) :=
  match field.type with
  | .named name =>
    match store.isCycleStarting name, store.form? name with
    | true, some (.record fields) => some fields
    | _, _ => none
  | _ => none

theorem tree?_eq_some (h : store.tree? field = some fields) : ∃ name, field.type = .named name ∧
    store.isCycleStarting name = true ∧ store.form? name = some (.record fields) := by
  unfold tree? at h
  split at h
  next name htype =>
    split at h
    next hcycle hform => exact ⟨name, htype, hcycle, Option.some.inj h ▸ hform⟩
    next => cases h
  next => cases h

/-- What is left of what is read for the fields of a record: that for the last field of a recursive type, and for the
fields after it. -/
def overlaid {α : Type} (store : Store) (parts : List (Field Form × List α)) : List α :=
  parts.foldl (fun done q => if (store.tree? q.1).isSome then q.2 else done ++ q.2) []

theorem Format.of_subset {fields' : List (Field Form)} (h : store.Format recursive (.record fields))
    (hsub : fields' ⊆ fields) : store.Format recursive (.record fields') := by
  have hpart : ∀ {g f}, Form.Part store.form? (.record fields') g f →
      (g = true ∧ f = .record fields') ∨ Form.Part store.form? (.record fields) g f := by
    intro g f hpart
    induction hpart with
    | self => exact .inl ⟨rfl, rfl⟩
    | items _ ih => exact .inr ((ih.resolve_left (by simp)).items)
    | values _ ih => exact .inr ((ih.resolve_left (by simp)).values)
    | field _ hf ih =>
      rcases ih with ⟨-, he⟩ | ih
      · cases he
        exact .inr (.field .self (hsub hf))
      · exact .inr (ih.field hf)
    | branch _ hf ih => exact .inr ((ih.resolve_left (by simp)).branch hf)
    | definition _ hn ih => exact .inr ((ih.resolve_left (by simp)).definition hn)
  exact ⟨fun h' => h.null ((hpart h').resolve_left (by simp)),
    fun h' => h.named ((hpart h').resolve_left (by simp))⟩

/-- The fields of a record one by one: those of recursive types by their types, and the others each as a record. -/
def pieces (store : Store) (fields : List (Field Form)) : List Form :=
  fields.map fun f => if (store.tree? f).isSome then f.type else .record [f]

theorem part_of_pieces {g : Bool} {f : Form} (h : Form.Part store.form? (.union (store.pieces fields)) g f) :
    f = .union (store.pieces fields) ∨ (∃ field ∈ fields, f = .record [field]) ∨
      ∃ g', Form.Part store.form? (.record fields) g' f := by
  induction h with
  | self => exact .inl rfl
  | items _ ih =>
    obtain he | ⟨_, -, he⟩ | ⟨g', hpart⟩ := ih
    · cases he
    · cases he
    · exact .inr (.inr ⟨_, hpart.items⟩)
  | values _ ih =>
    obtain he | ⟨_, -, he⟩ | ⟨g', hpart⟩ := ih
    · cases he
    · cases he
    · exact .inr (.inr ⟨_, hpart.values⟩)
  | field _ hf ih =>
    obtain he | ⟨field, hfield, he⟩ | ⟨g', hpart⟩ := ih
    · cases he
    · cases he
      rw [List.mem_singleton.1 hf]
      exact .inr (.inr ⟨_, .field .self hfield⟩)
    · exact .inr (.inr ⟨_, hpart.field hf⟩)
  | branch _ hf ih =>
    obtain he | ⟨_, -, he⟩ | ⟨g', hpart⟩ := ih
    · cases he
      obtain ⟨field, hfield, rfl⟩ := List.mem_map.1 hf
      split_ifs
      · exact .inr (.inr ⟨_, .field .self hfield⟩)
      · exact .inr (.inl ⟨field, hfield, rfl⟩)
    · cases he
    · exact .inr (.inr ⟨_, hpart.branch hf⟩)
  | definition _ hn ih =>
    obtain he | ⟨_, -, he⟩ | ⟨g', hpart⟩ := ih
    · cases he
    · cases he
    · exact .inr (.inr ⟨_, hpart.definition hn⟩)

/-- Code that writes a field of a record at a place: code for the field, or a call with the record. -/
inductive FieldWriter (store : Store) (known : String → Prop) (field : Field Form) (p : Place) : Encoder → Prop
  | own {e : Encoder} (hown : store.tree? field = none)
      (h : Writer store.form? known (.record [field]) p (.fields [e])) : FieldWriter store known field p e
  | tree {name : String} {fields : List (Field Form)} (htree : store.tree? field = some fields)
      (htype : field.type = .named name) (hname : known name) : FieldWriter store known field p (.recur name p)

/-- Code that reads a field of a record to a place. -/
inductive FieldReader (store : Store) (known : String → Prop) (V : String → Prop) (field : Field Form) (p : Place) :
    Decoder → Prop
  | own {d : Decoder} (hown : store.tree? field = none)
      (h : Reader store.form? known true V (.record [field]) p (.record p [d])) : FieldReader store known V field p d
  | tree {name : String} {fields : List (Field Form)} (htree : store.tree? field = some fields)
      (htype : field.type = .named name) (hname : known name) : FieldReader store known V field p (.recur name p)

end Store

theorem forall₂_compose {α β γ : Type} {R : α → β → Prop} {Q : α → γ → Prop} {xs : List α} {ys : List β} {zs : List γ}
    (h : List.Forall₂ R xs ys) (h' : List.Forall₂ Q xs zs) :
    List.Forall₂ (fun y z => ∃ x, R x y ∧ Q x z) ys zs := by
  induction h generalizing zs with
  | nil =>
    cases h'
    exact .nil
  | cons hxy _ ih =>
    cases h' with
    | cons hxz h' => exact .cons ⟨_, hxy, hxz⟩ (ih h')

namespace Gen

variable {σ : Setting} {recursive : String → Prop} {root : Form} {s t : Generator} {p : Place} {tree : String}
  {fields : List (Field Form)} {field : Field Form} {d : Json} {steps : Nat}

theorem record_members (hd : form? d = some (.record fields)) : ∃ members items, d = .obj members ∧
    Json.lookup "logicalType" members = none ∧ Json.lookup "type" members = some (.str "record") ∧
      Json.lookup "fields" members = some (.arr items) ∧
        List.Forall₂ (fun x f => field? x = some f) items fields := by
  cases d with
  | obj members =>
    obtain ⟨hl, hdescribes⟩ := describes_of_form? hd
    cases hdescribes with
    | record ht hf h => exact ⟨members, _, rfl, hl, ht, hf, h⟩
  | str name =>
    rw [form?, Form.ofName] at hd
    split_ifs at hd <;> cases hd
  | arr types => simp [form?] at hd
  | _ => cases hd

theorem exists_members_of_named (hd : field? d = some field) (htype : field.type = .named tree) :
    ∃ members, d = .obj members ∧ Json.lookup "logicalType" members = none ∧
      Json.lookup "type" members = some (.str tree) ∧ Schema.hasDot tree = true := by
  cases d with
  | obj members =>
    obtain ⟨-, -, hl, -, type, hlookup, hform⟩ := field?_eq_some_iff.1 hd
    rw [htype] at hform
    cases type with
    | str name =>
      rw [form?, Form.ofName] at hform
      split_ifs at hform with hnull hbasic hdot <;> cases hform
      exact ⟨members, rfl, hl, hlookup, hdot⟩
    | arr types => simp [form?] at hform
    | obj inner => cases (describes_of_form? hform).2
    | _ => cases hform
  | _ => cases hd

/-- What is known of a recursive type that a field may have. -/
structure Tree (σ : Setting) (recursive : String → Prop) (root : Form) (tree : String)
    (fields : List (Field Form)) : Prop where
  part : Form.Part σ.store.form? root true (.named tree)
  form : σ.store.form? tree = some (.record fields)
  recursive : recursive tree
  cycle : σ.store.isCycleStarting tree = true

theorem leads_of_recursive {α : Type} {c code : α} {go : Json → Generator → Gen α} (hσ : σ.Holds recursive root)
    (htree : Tree σ recursive root tree fields) (h : (do
      let x ← load tree
      let outer ← get
      setContext tree
      if (← read).store.isCycleStarting tree then
        meet (upTo steps) tree
        return c
      go x outer : Gen α) σ s = (.ok code, t)) : code = c ∧ s.Leads σ.store.form? recursive t := by
  simp only [setContext, bind_eq_ok, get_eq_ok, modify_eq_ok, read_eq_ok] at h
  obtain ⟨x, s₁, hx, _, _, ⟨rfl, rfl⟩, _, s₂, rfl, _, _, ⟨rfl, rfl⟩, h⟩ := h
  rw [if_pos htree.cycle] at h
  simp only [bind_eq_ok, pure_eq_ok] at h
  obtain ⟨_, s₃, hmeet, rfl, rfl⟩ := h
  have hleads := leads_meet (sound_upTo hσ steps) (hσ.unambiguous htree.part) htree.part htree.form
    htree.recursive hmeet
  exact ⟨rfl, (leads_load hx).trans ⟨hleads.counters, hleads.helpers⟩⟩

theorem encode_treeField (hσ : σ.Holds recursive root) (htree : Tree σ recursive root tree fields)
    (hd : field? d = some field) (htype : field.type = .named tree) {code : Encoder}
    (h : (upTo steps).encode d p σ s = (.ok code, t)) :
    code = .recur tree p ∧ s.Leads σ.store.form? recursive t := by
  obtain ⟨members, rfl, hl, hlookup, hdot⟩ := exists_members_of_named hd htype
  cases steps with
  | zero => exact (throw_eq_ok.1 h).elim
  | succ steps =>
    change encodeStep (upTo steps) (.obj members) p σ s = (.ok code, t) at h
    rw [encodeStep_reference (d := .obj members) hl hlookup hdot (contains_of_form? htree.form)] at h
    exact leads_of_recursive hσ htree h

theorem decode_treeField (hσ : σ.Holds recursive root) (htree : Tree σ recursive root tree fields)
    (hd : field? d = some field) (htype : field.type = .named tree) {code : Decoder}
    (h : (upTo steps).decode d p σ s = (.ok code, t)) :
    code = .recur tree p ∧ s.Leads σ.store.form? recursive t := by
  obtain ⟨members, rfl, hl, hlookup, hdot⟩ := exists_members_of_named hd htype
  cases steps with
  | zero => exact (throw_eq_ok.1 h).elim
  | succ steps =>
    change decodeStep (upTo steps) (.obj members) p σ s = (.ok code, t) at h
    rw [decodeStep_reference (d := .obj members) hl hlookup hdot (contains_of_form? htree.form)] at h
    exact leads_of_recursive hσ htree h

section Pieces

variable (hσ : σ.Holds recursive (.union (σ.store.pieces fields)))
  (hrecursive : ∀ field ∈ fields, ∀ name, field.type = .named name → σ.store.isCycleStarting name = true →
    recursive name)
include hσ hrecursive

omit hσ in
theorem own_or_tree (hfield : field ∈ fields) : σ.store.tree? field = none ∧
      Form.Part σ.store.form? (.union (σ.store.pieces fields)) true (.record [field]) ∨
    ∃ name inner, σ.store.tree? field = some inner ∧ field.type = .named name ∧
      Tree σ recursive (.union (σ.store.pieces fields)) name inner := by
  have hpart : Form.Part σ.store.form? (.union (σ.store.pieces fields)) true
      (if (σ.store.tree? field).isSome then field.type else .record [field]) :=
    .branch .self (List.mem_map_of_mem hfield)
  cases htree : σ.store.tree? field with
  | none =>
    rw [htree] at hpart
    exact .inl ⟨rfl, hpart⟩
  | some inner =>
    obtain ⟨name, htype, hcycle, hform⟩ := Store.tree?_eq_some htree
    rw [htree, Option.isSome_some, if_pos rfl, htype] at hpart
    exact .inr ⟨name, inner, rfl, htype, hpart, hform, hrecursive field hfield name htype hcycle, hcycle⟩

theorem encode_field (hfield : field ∈ fields) (hd : field? d = some field) {code : Encoder}
    (h : (upTo steps).encode d p σ s = (.ok code, t)) :
    s.Leads σ.store.form? recursive t ∧ σ.store.FieldWriter recursive field p code := by
  rcases own_or_tree hrecursive hfield with ⟨hown, hpart⟩ | ⟨name, inner, hinner, htype, htree⟩
  · obtain ⟨hsuits, hleads⟩ := (sound_upTo hσ steps).encode (.inr ⟨field, hpart.field (by simp), hd⟩) h
    exact ⟨hleads, .own hown (writer_record hpart (.cons hd .nil) (.cons hsuits .nil))⟩
  · obtain ⟨rfl, hleads⟩ := encode_treeField hσ htree hd htype h
    exact ⟨hleads, .tree hinner htype htree.recursive⟩

theorem decode_field {w : Counters} (hw : w ≤ s.counters) (hfield : field ∈ fields) (hd : field? d = some field)
    {code : Decoder} (h : (upTo steps).decode d p σ s = (.ok code, t)) :
    s.Leads σ.store.form? recursive t ∧ σ.store.FieldReader recursive w.Drawn field p code := by
  rcases own_or_tree hrecursive hfield with ⟨hown, hpart⟩ | ⟨name, inner, hinner, htype, htree⟩
  · obtain ⟨hsuits, hleads⟩ := (sound_upTo hσ steps).decode (.inr ⟨field, hpart.field (by simp), hd⟩) h
    exact ⟨hleads, .own hown (reader_fields hpart (.cons hd .nil) (.cons (suits_mono hsuits hw) .nil))⟩
  · obtain ⟨rfl, hleads⟩ := decode_treeField hσ htree hd htype h
    exact ⟨hleads, .tree hinner htype htree.recursive⟩

omit hσ hrecursive in
theorem forall₂_of_mapM_fields {α : Type} {go : Json → Gen α} {F : Field Form → α → Prop} {items : List Json}
    {codes : List α} (hfields : List.Forall₂ (fun x f => field? x = some f) items fields)
    (hgo : ∀ {field x s₁ t a}, field ∈ fields → s.Leads σ.store.form? recursive s₁ → field? x = some field →
      go x σ s₁ = (.ok a, t) → s₁.Leads σ.store.form? recursive t ∧ F field a)
    (h : items.mapM go σ s = (.ok codes, t)) :
    s.Leads σ.store.form? recursive t ∧ List.Forall₂ F fields codes := by
  have hstep : ∀ x ∈ items, ∀ s₁ a s₂, s.Leads σ.store.form? recursive s₁ → go x σ s₁ = (.ok a, s₂) →
      s.Leads σ.store.form? recursive s₂ ∧ ∀ field ∈ fields, field? x = some field → F field a := by
    intro x hx s₁ a s₂ hs₁ ha
    obtain ⟨field, hfield, hd⟩ := exists_mem_of_forall₂ hfields.flip hx
    exact ⟨hs₁.trans (hgo hfield hs₁ hd ha).1, fun field hfield hd => (hgo hfield hs₁ hd ha).2⟩
  obtain ⟨hleads, hcodes⟩ := mapM_eq_ok hstep (.refl s) h
  have hall := (List.forall₂_and_left _ _).2 ⟨fun f (hf : f ∈ fields) => hf, forall₂_compose hfields hcodes⟩
  exact ⟨hleads, hall.imp fun f a ⟨hf, x, hx, ha⟩ => ha f hf hx⟩

theorem encode_treeRecord (hd : form? d = some (.record fields)) {code : Encoder}
    (h : (upTo steps).encode d p σ s = (.ok code, t)) :
    s.Leads σ.store.form? recursive t ∧ ∃ codes, code = .fields codes ∧
      List.Forall₂ (fun f e => σ.store.FieldWriter recursive f p e) fields codes := by
  obtain ⟨members, items, rfl, hl, ht, hf, hfields⟩ := record_members hd
  cases steps with
  | zero => exact (throw_eq_ok.1 h).elim
  | succ steps =>
    change encodeStep (upTo steps) (.obj members) p σ s = (.ok code, t) at h
    simp only [encodeStep, bind_eq_ok, lift_eq_ok, Schema.need_eq_ok] at h
    obtain ⟨_, _, ⟨ht', rfl⟩, h⟩ := h
    cases ht.symm.trans ht'
    simp only [encodeObject, Json.get?, hl, bind_eq_ok, lift_eq_ok, Schema.need_eq_ok, pure_eq_ok] at h
    obtain ⟨_, _, ⟨hf', rfl⟩, _, _, ⟨hitems, rfl⟩, codes, _, hcodes, rfl, rfl⟩ := h
    cases hf.symm.trans hf'
    cases hitems
    obtain ⟨hleads, hwriters⟩ := forall₂_of_mapM_fields hfields
      (fun hfield _ hd ha => encode_field hσ hrecursive hfield hd ha) hcodes
    exact ⟨hleads, codes, rfl, hwriters⟩

theorem decode_treeRecord (hd : form? d = some (.record fields)) {code : Decoder}
    (h : (upTo steps).decode d p σ s = (.ok code, t)) :
    s.Leads σ.store.form? recursive t ∧ ∃ codes, code = .record p codes ∧
      List.Forall₂ (fun f e => σ.store.FieldReader recursive s.counters.Drawn f p e) fields codes := by
  obtain ⟨members, items, rfl, hl, ht, hf, hfields⟩ := record_members hd
  cases steps with
  | zero => exact (throw_eq_ok.1 h).elim
  | succ steps =>
    change decodeStep (upTo steps) (.obj members) p σ s = (.ok code, t) at h
    simp only [decodeStep, bind_eq_ok, lift_eq_ok, Schema.need_eq_ok] at h
    obtain ⟨_, _, ⟨ht', rfl⟩, h⟩ := h
    cases ht.symm.trans ht'
    simp only [decodeObject, Json.get?, hl, bind_eq_ok, lift_eq_ok, Schema.need_eq_ok, pure_eq_ok] at h
    obtain ⟨_, _, ⟨hf', rfl⟩, _, _, ⟨hitems, rfl⟩, codes, _, hcodes, rfl, rfl⟩ := h
    cases hf.symm.trans hf'
    cases hitems
    obtain ⟨hleads, hreaders⟩ := forall₂_of_mapM_fields hfields
      (fun hfield hs₁ hd ha => decode_field hσ hrecursive hs₁.counters hfield hd ha) hcodes
    exact ⟨hleads, codes, rfl, hreaders⟩

end Pieces

end Gen

namespace Store

variable {store : Store} {known V : String → Prop} {field : Field Form} {p : Place} {functions : List String}

theorem FieldWriter.callable {e : Encoder} (h : store.FieldWriter known field p e) (hs : e.isSound functions = true) :
    store.FieldWriter (fun name => known name ∧ functionSuffix name ∈ functions) field p e := by
  cases h with
  | own hown h => exact .own hown (h.callable (areSound_iff.2 (List.forall_mem_singleton.2 hs)))
  | tree htree htype hname =>
    rw [isSound, Bool.and_eq_true] at hs
    exact .tree htree htype ⟨hname, List.contains_iff_mem.1 hs.2⟩

theorem FieldReader.callable {d : Decoder} (h : store.FieldReader known V field p d) (hp : p.isSound = true)
    (hs : d.isSound functions = true) :
    store.FieldReader (fun name => known name ∧ functionSuffix name ∈ functions) V field p d := by
  cases h with
  | own hown h =>
    refine .own hown (h.callable ?_)
    rw [Decoder.isSound, Bool.and_eq_true, Decoder.areSound_iff, List.forall_mem_singleton]
    exact ⟨hp, hs⟩
  | tree htree htype hname =>
    rw [Decoder.isSound, Bool.and_eq_true] at hs
    exact .tree htree htype ⟨hname, List.contains_iff_mem.1 hs.2⟩

/-- The fields that are written for a field of a record, with their values and bytes. -/
abbrev Spread := Field Form × List (Field Form × Value × List UInt8)

/-- For a field of a recursive type the fields of the type are written, and for any other the field itself. -/
def Spreads (store : Store) (q : Spread) : Prop := q.2.map (·.1) = (store.tree? q.1).getD [q.1]

variable {table : List (String × Routine)} {K : Nat} {r r₀ : Reading} {ks : List String} {held : Value}
  {rest : List UInt8}

/-- After the code of some fields, with what is left of the fields before. -/
theorem exists_overlaid (hreads : ReadsKnown store.form? known table) (hp : p.Clear V) {parts : List Spread}
    {codes : List Decoder} (hcodes : List.Forall₂ (fun q d => store.FieldReader known V q.1 p d) parts codes)
    (hparts : ∀ q ∈ parts, store.Spreads q)
    (hdecodes : ∀ t ∈ parts.flatMap (·.2), Form.Decodes store.form? t.1.type t.2.2 t.2.1)
    (hK : ((parts.flatMap (·.2)).flatMap (·.2.2)).length < K) (hr : r.Reaches p ks held)
    (done : List (Field Form × Value × List UInt8))
    (hrest : r₀.rest = (parts.flatMap (·.2)).flatMap (·.2.2) ++ rest)
    (hstored : Reading.Stored V p ks held (.dict (Value.puts (done.map fun t => (t.1.name, t.2.1)))) r r₀) :
    ∃ r', Decoder.runParts (Routine.readCall table K) codes r₀ = .ok r' ∧ r'.rest = rest ∧
      Reading.Stored V p ks held (.dict (Value.puts ((parts.foldl
        (fun done q => if (store.tree? q.1).isSome then q.2 else done ++ q.2) done).map
          fun t => (t.1.name, t.2.1)))) r r' := by
  induction hcodes generalizing r₀ done with
  | nil => exact ⟨r₀, rfl, hrest, hstored⟩
  | @cons q d parts codes hcode _ ih =>
    simp only [List.flatMap_cons, List.flatMap_append, List.append_assoc, List.length_append] at hrest hK
    simp only [List.flatMap_cons, List.forall_mem_append] at hdecodes
    have hspreads : q.2.map (·.1) = (store.tree? q.1).getD [q.1] := hparts q List.mem_cons_self
    have hread := fun t ht => (hdecodes.1 t ht).readBack hreads
    -- the state after the code of the first field
    suffices hfirst : ∃ r₁, Decoder.run (Routine.readCall table K) d r₀ = .ok r₁ ∧
        r₁.rest = (parts.flatMap (·.2)).flatMap (·.2.2) ++ rest ∧ Reading.Stored V p ks held (.dict (Value.puts
          ((if (store.tree? q.1).isSome then q.2 else done ++ q.2).map fun t => (t.1.name, t.2.1)))) r r₁ by
      obtain ⟨r₁, hr₁, hrest₁, hstored₁⟩ := hfirst
      obtain ⟨r', hr', hrest', hstored'⟩ := ih (fun q hq => hparts q (List.mem_cons_of_mem _ hq)) hdecodes.2
        (by omega) _
        hrest₁ hstored₁
      refine ⟨r', ?_, hrest', hstored'⟩
      rw [Decoder.runParts, hr₁]
      exact hr'
    cases hcode with
    | own hown h =>
      rw [hown, Option.getD_none] at hspreads
      rw [← hspreads] at h
      obtain ⟨steps, hsteps, hvalues, hbytes, hnames, hstores⟩ :=
        (Form.readParts_of_forall hread ((parts.flatMap (·.2)).flatMap (·.2.2) ++ rest)).exists_steps h hp (K := K)
          (by omega)
      rw [← hbytes] at hrest
      obtain ⟨r₁, hr₁, hrest₁, hstored₁⟩ := Decoder.runParts_stores hp hnames hstores _ hr hrest hstored
      have hcode : [d] = steps.map (·.2.1) := by
        injection hsteps
      rw [← hcode, Decoder.runParts] at hr₁
      obtain ⟨r₂, hr₂, hnil⟩ := except_bind_eq_ok.1 hr₁
      cases hnil
      rw [hvalues, ← List.map_append] at hstored₁
      rw [hown]
      exact ⟨r₁, hr₂, hrest₁, hstored₁⟩
    | @tree name fields htree htype hname =>
      rw [htree, Option.getD_some] at hspreads
      obtain ⟨_, htype', -, hform⟩ := tree?_eq_some htree
      cases htype.symm.trans htype'
      rw [← hspreads] at hform
      have hcall := Form.readCall_eq_ok hreads hname hform ((Form.Decodes.record q.2 hdecodes.1).readBack hreads
        ((parts.flatMap (·.2)).flatMap (·.2.2) ++ rest)) (K := K) (by omega)
      obtain ⟨u, hreach, hagain⟩ := hstored.again hp hr
      obtain ⟨r₁, hr₁, hrest₁, hstored₁⟩ := Decoder.stores_recur hcall r₀ ks u hrest hreach
      rw [htree]
      exact ⟨r₁, hr₁, hrest₁, hagain _ _ hstored₁⟩

end Store

/-- A codec whose code works on the fields of a record one by one. -/
structure Codec.Overlays (codec : Codec) (store : Store) (known : String → Prop) (fields : List (Field Form)) :
    Prop where
  writer : ∃ codes, codec.routine.writer = .fields codes ∧
    List.Forall₂ (fun f e => store.FieldWriter known f (.of "data") e) fields codes
  reader : ∃ V codes, ¬ V "data" ∧ codec.routine.reader = .record (.of "data") codes ∧
    List.Forall₂ (fun f d => store.FieldReader known V f (.of "data") d) fields codes
  writes : WritesKnown store.form? known codec.routine.functions
  reads : ReadsKnown store.form? known codec.routine.functions

namespace Codec

variable {schemata : Schemata} {identifier : String} {codec : Codec} {store : Store}
  {registry : Schema.Registry} {recursive known : String → Prop} {fields : List (Field Form)}

/-- The codec of a record with fields of recursive types. -/
theorem overlays_of_build (hstore : Store.build schemata [] = (.ok store, registry))
    (hsingle : ∀ name, store.Involves identifier name → Schema.Single schemata name)
    (hbuild : build schemata identifier = .ok codec) (hrecord : store.form? identifier = some (.record fields))
    (hothers : store.Format recursive (.record (fields.filter fun f => (store.tree? f).isNone)))
    (htrees : ∀ f ∈ fields, ∀ inner, store.tree? f = some inner → store.Format recursive (.record inner))
    (hrecursive : ∀ f ∈ fields, ∀ name, f.type = .named name → store.isCycleStarting name = true → recursive name)
    (hinj : ∀ a b, recursive a → recursive b → functionSuffix a = functionSuffix b → a = b) :
    ∃ known, codec.Overlays store known fields := by
  obtain ⟨hgenerate, hcompiles⟩ := build_eq_ok hstore hbuild
  have hu : ∀ {name}, store.Involves identifier name → store.Unambiguous name :=
    fun hname => Store.unambiguous_of_single hstore (hsingle _ hname)
  have hσ : Setting.Holds { store } recursive (.union (store.pieces fields)) := by
    refine ⟨.union (List.forall_mem_map.2 fun f hf => ?_), fun hpart => hu ?_, fun _ => Store.hasDot_of_contains hstore⟩
    · cases htree : store.tree? f with
      | none =>
        refine hothers.of_subset (List.cons_subset.2 ⟨List.mem_filter.2 ⟨hf, ?_⟩, List.nil_subset _⟩)
        rw [htree]
        rfl
      | some inner =>
        obtain ⟨name, htype, hcycle, hform⟩ := Store.tree?_eq_some htree
        rw [Option.isSome_some, if_pos rfl, htype]
        exact .named_record (hrecursive f hf name htype hcycle) hform (htrees f hf inner htree)
    · obtain he | ⟨_, -, he⟩ | ⟨g', hpart⟩ := Store.part_of_pieces hpart
      · cases he
      · cases he
      · exact .inr ⟨_, g', hrecord, hpart⟩
  obtain ⟨schema, registry', t, hloaded, hmade⟩ := exists_routine_of_generate hgenerate
  have hschema := hu (.inl rfl) _ _ _ _ _ hloaded hrecord
  obtain ⟨parsed, s₁, s₂, s₃, s₄, hform, hstart, hwriter, hnext, hreader, hfunctions, -⟩ :=
    Gen.routine_cases recursive hschema hmade
  obtain ⟨hleads, codes, hwcode, hwriters⟩ := Gen.encode_treeRecord hσ hrecursive hform hwriter
  obtain ⟨hleads', codes', hrcode, hreaders⟩ := Gen.decode_treeRecord hσ hrecursive hform hreader
  have hserves : ServesAll store.form? recursive codec.routine.functions := by
    rw [hfunctions]
    refine (hstart.trans (hleads.trans (hnext.trans hleads'))).helpers fun e he => ?_
    cases he
  simp only [Routine.compiles, Routine.isSound, Decoder.isComplete, Bool.and_eq_true] at hcompiles
  obtain ⟨hwrites, hreads⟩ := hserves.writes_reads hinj (List.all_eq_true.1 hcompiles.2)
  have hwsound := hcompiles.1.1
  rw [hwcode, isSound, areSound_iff] at hwsound
  have hrsound := hcompiles.1.2.1
  rw [hrcode, Decoder.isSound, Bool.and_eq_true, Decoder.areSound_iff] at hrsound
  refine ⟨_, ⟨codes, hwcode, ?_⟩, ⟨s₃.counters.Drawn, codes', Gen.not_drawn_data _, hrcode, ?_⟩, hwrites, hreads⟩
  · exact ((List.forall₂_and_left _ _).2 ⟨hwsound, hwriters.flip⟩).flip.imp fun f e h => h.2.callable h.1
  · exact ((List.forall₂_and_left _ _).2 ⟨hrsound.2, hreaders.flip⟩).flip.imp fun f d h => h.2.callable hrsound.1 h.1

variable {parts : List Store.Spread} {entries : List (String × Value)}

/-- What is read for the fields of a record. -/
theorem Overlays.reads_of_decodes (h : codec.Overlays store known (parts.map (·.1)))
    (hparts : ∀ q ∈ parts, store.Spreads q)
    (hdecodes : ∀ t ∈ parts.flatMap (·.2), Form.Decodes store.form? t.1.type t.2.2 t.2.1) :
    Reads codec.deserializeFrom ((parts.flatMap (·.2)).flatMap (·.2.2))
      (.dict (Value.puts ((store.overlaid parts).map fun t => (t.1.name, t.2.1)))) := by
  intro rest
  have hbound := length_lt_readBound codec.routine ((parts.flatMap (·.2)).flatMap (·.2.2) ++ rest)
  change Decoder.apply (Routine.readCall codec.routine.functions (codec.routine.readBound _))
    codec.routine.reader _ = _
  generalize codec.routine.readBound ((parts.flatMap (·.2)).flatMap (·.2.2) ++ rest) = K at hbound ⊢
  rw [List.length_append] at hbound
  obtain ⟨V, codes, hV, hcode, hcodes⟩ := h.reader
  rw [List.forall₂_map_left_iff] at hcodes
  rw [hcode]
  refine Decoder.apply_eq_ok (V := V) fun r ks held hrest hr => ?_
  obtain ⟨r₀, hassign, hrest₀, hstored₀⟩ := Reading.exists_assign V hr (.map [])
  have hK : ((parts.flatMap (·.2)).flatMap (·.2.2)).length < K := by omega
  obtain ⟨r', hr', hrest', hstored'⟩ := Store.exists_overlaid h.reads (Place.clear_of hV) hcodes hparts hdecodes
    hK hr [] (hrest₀.trans hrest) hstored₀
  refine ⟨r', ?_, hrest', hstored'⟩
  rw [Decoder.run, hassign]
  exact hr'

theorem writes_entries {table : List (String × Routine)} {root : Form} {parts : List (Field Form × Value × List UInt8)}
    {e : Encoder} {K : Nat} {tags : List String} (htable : WritesKnown env known table)
    (hdistinct : Form.Distinct env root) (hpart : ∀ q ∈ parts, Form.Part env root false q.1.type)
    (hkeys : (entries.map (·.1)).Nodup) (hentries : ∀ q ∈ parts, (q.1.name, q.2.1) ∈ entries)
    (henc : ∀ q ∈ parts, Form.Encodes env q.1.type q.2.1 q.2.2)
    (he : Writer env known (.record (parts.map (·.1))) (.of "data") e) (hK : (Value.dict entries).depth ≤ K) :
    e.Writes ⟨tags, Routine.writeCall table K⟩ (.dict entries) (parts.flatMap (·.2.2)) := by
  refine Form.writes_record parts hkeys hentries henc (fun q hq p e he hwalk => ?_) he rfl
  have hdepth := Value.depth_lt_dict (hentries q hq)
  exact (henc q hq).writes htable hdistinct (hpart q hq) he hwalk ((Form.calls_le _ _).trans (by omega))

/-- The fields of recursive types are written from the record itself. -/
theorem Overlays.serialize_eq (h : codec.Overlays store known (parts.map (·.1)))
    (hparts : ∀ q ∈ parts, store.Spreads q)
    (hothers : Form.Distinct store.form? (.record ((parts.map (·.1)).filter fun f => (store.tree? f).isNone)))
    (htrees : ∀ q ∈ parts, ∀ inner, store.tree? q.1 = some inner → Form.Distinct store.form? (.record inner))
    (hkeys : (entries.map (·.1)).Nodup) (hentries : ∀ t ∈ parts.flatMap (·.2), (t.1.name, t.2.1) ∈ entries)
    (hencodes : ∀ t ∈ parts.flatMap (·.2), Form.Encodes store.form? t.1.type t.2.1 t.2.2) :
    codec.serialize (.dict entries) = ⟨.dict entries, .ok ((parts.flatMap (·.2)).flatMap (·.2.2))⟩ := by
  obtain ⟨codes, hcode, hcodes⟩ := h.writer
  rw [List.forall₂_map_left_iff] at hcodes
  have hbound : (Value.dict entries).depth + 1 ≤ codec.routine.writeBound (.dict entries) :=
    calls_le_writeBound codec.routine _ .null
  obtain ⟨K, hK⟩ : ∃ K, codec.routine.writeBound (.dict entries) = K + 1 :=
    Nat.exists_eq_add_one.2 (by omega)
  let scope : WriteScope := ⟨codec.routine.typedTags, Routine.writeCall codec.routine.functions (K + 1)⟩
  have hfield : ∀ q ∈ parts, ∀ e, store.FieldWriter known q.1 (.of "data") e →
      (fields [e]).Writes scope (.dict entries) (q.2.flatMap (·.2.2)) := by
    intro q hq e he
    have hspreads : q.2.map (·.1) = (store.tree? q.1).getD [q.1] := hparts q hq
    have hin : ∀ t ∈ q.2, t ∈ parts.flatMap (·.2) := fun t ht => List.mem_flatMap.2 ⟨q, hq, ht⟩
    cases he with
    | own hown he =>
      rw [hown, Option.getD_none] at hspreads
      rw [← hspreads] at he
      refine writes_entries h.writes hothers (fun t ht => ?_) hkeys (fun t ht => hentries t (hin t ht))
        (fun t ht => hencodes t (hin t ht)) he (by omega)
      have hfield : t.1 ∈ [q.1] := hspreads ▸ List.mem_map_of_mem ht
      rw [List.mem_singleton.1 hfield]
      refine .field .self (List.mem_filter.2 ⟨List.mem_map_of_mem hq, ?_⟩)
      rw [hown]
      rfl
    | @tree name inner htree htype hname =>
      rw [htree, Option.getD_some] at hspreads
      obtain ⟨_, htype', -, hform⟩ := Store.tree?_eq_some htree
      cases htype.symm.trans htype'
      obtain ⟨fields, routine, hfields, hroutine, hwriter⟩ := h.writes name hname
      cases hform.symm.trans hfields
      rw [← hspreads] at hwriter
      obtain ⟨eff, hrun, hemits⟩ : routine.writer.Writes
          ⟨routine.typedTags, Routine.writeCall codec.routine.functions K⟩ (.dict entries) (q.2.flatMap (·.2.2)) := by
        refine writes_entries h.writes (htrees q hq inner htree) (fun t ht => .field .self ?_) hkeys
          (fun t ht => hentries t (hin t ht)) (fun t ht => hencodes t (hin t ht)) hwriter (by omega)
        exact hspreads ▸ List.mem_map_of_mem ht
      have hcall : (recur name (.of "data")).Writes scope (.dict entries) (q.2.flatMap (·.2.2)) := by
        refine writes_recur rfl ?_ hemits
        simp only [scope, Routine.writeCall, hroutine]
        exact hrun
      have hwrites := writes_fields [(.recur name (.of "data"), q.2.flatMap (·.2.2))]
        (List.forall_mem_singleton.2 hcall)
      rwa [List.flatMap_singleton] at hwrites
  have hwrites : (fields codes).Writes scope (.dict entries) ((parts.flatMap (·.2)).flatMap (·.2.2)) := by
    clear hcode hK hbound hparts hothers htrees hentries hencodes h
    induction hcodes with
    | nil => exact writes_fields [] (by simp)
    | @cons q e parts codes he _ ih =>
      have hrest := ih fun q hq => hfield q (List.mem_cons_of_mem _ hq)
      rw [List.flatMap_cons, List.flatMap_append]
      exact writes_fields_append (hfield q List.mem_cons_self e he) hrest
  rw [← hcode] at hwrites
  obtain ⟨body, hbody, hemits⟩ := hwrites
  simp only [scope, ← hK] at hbody
  simp only [serialize, hbody, kept_self, Except.map, hemits.outputAfter, List.nil_append]

/-- The fields of a recursive type that a field refers to stand in the place of this field. They are
written from the record itself, and what is read for them takes the place of the fields before. -/
theorem serialize_and_read_of_recursive_field (parts : List Store.Spread)
    (hstore : Store.build schemata [] = (.ok store, registry))
    (hsingle : ∀ name, store.Involves identifier name → Schema.Single schemata name)
    (hbuild : build schemata identifier = .ok codec)
    (hrecord : store.form? identifier = some (.record (parts.map (·.1)))) (hparts : ∀ q ∈ parts, store.Spreads q)
    (hothers : store.Format recursive (.record ((parts.map (·.1)).filter fun f => (store.tree? f).isNone)))
    (htrees : ∀ q ∈ parts, ∀ inner, store.tree? q.1 = some inner → store.Format recursive (.record inner))
    (hrecursive : ∀ q ∈ parts, ∀ name, q.1.type = .named name → store.isCycleStarting name = true → recursive name)
    (hinj : ∀ a b, recursive a → recursive b → functionSuffix a = functionSuffix b → a = b)
    (hdistinct : Form.Distinct store.form? (.record ((parts.map (·.1)).filter fun f => (store.tree? f).isNone)))
    (hdistinct' : ∀ q ∈ parts, ∀ inner, store.tree? q.1 = some inner → Form.Distinct store.form? (.record inner)) :
    (∀ entries : List (String × Value), (entries.map (·.1)).Nodup →
      (∀ t ∈ parts.flatMap (·.2), (t.1.name, t.2.1) ∈ entries ∧ Form.Encodes store.form? t.1.type t.2.1 t.2.2) →
      codec.execute (.dict entries) = ⟨.dict entries, .ok ((parts.flatMap (·.2)).flatMap (·.2.2))⟩) ∧
    ((∀ t ∈ parts.flatMap (·.2), Form.Decodes store.form? t.1.type t.2.2 t.2.1) →
      ∀ rest, codec.deserializeFrom ((parts.flatMap (·.2)).flatMap (·.2.2) ++ rest) =
        .ok (.dict (Value.puts ((store.overlaid parts).map fun t => (t.1.name, t.2.1))), rest)) := by
  obtain ⟨known, hoverlays⟩ := overlays_of_build hstore hsingle hbuild hrecord hothers (List.forall_mem_map.2 htrees)
    (List.forall_mem_map.2 hrecursive) hinj
  refine ⟨fun entries hkeys hwritten => ?_, hoverlays.reads_of_decodes hparts⟩
  rw [execute_eq_serialize hbuild]
  exact hoverlays.serialize_eq hparts hdistinct hdistinct' hkeys (fun t ht => (hwritten t ht).1)
    fun t ht => (hwritten t ht).2

def potSchemata : Schemata :=
  [("garden.node", .record "garden.node" [
      .field "age" (.str "int"),
      .field "next" (.arr [.str "null", .str "garden.node"])]),
    ("garden.pot", .record "garden.pot" [
      .field "size" (.str "int"),
      .field "plant" (.str "garden.node"),
      .field "color" (.str "int")])]

def sizeField : Field Form := ⟨"size", none, .basic "int"⟩

def colorField : Field Form := ⟨"color", none, .basic "int"⟩

def nodeFields : List (Field Form) :=
  [⟨"age", none, .basic "int"⟩, ⟨"next", none, .union [.null, .named "garden.node"]⟩]

def potParts : List (Bool × Form) := [(true, .record [sizeField, colorField]), (false, .basic "int")]

def nodeParts : List (Bool × Form) :=
  [(true, .record nodeFields), (false, .basic "int"), (false, .union [.null, .named "garden.node"]),
    (true, .null), (true, .named "garden.node")]

def plantField : Field Form := ⟨"plant", none, .named "garden.node"⟩

def potSpreads : List Store.Spread :=
  [(sizeField, [(sizeField, .int 3, [6])]),
    (plantField, [(⟨"age", none, .basic "int"⟩, .int 5, [10]),
      (⟨"next", none, .union [.null, .named "garden.node"]⟩, .null, [0])]),
    (colorField, [(colorField, .int 1, [2])])]

theorem potSpreads_encoded (env : String → Option Form) :
    (∀ t ∈ potSpreads.flatMap (·.2), Form.Encodes env t.1.type t.2.1 t.2.2) ∧
      ∀ t ∈ potSpreads.flatMap (·.2), Form.Decodes env t.1.type t.2.2 t.2.1 := by
  have hint : ∀ (n : Int) (bytes : List UInt8), -(Varint.limit : Int) ≤ n ∧ n < Varint.limit →
      Varint.bytesOf n = bytes → Primitive.Holds "int" (.int n) ∧ Primitive.Encoded "int" (.int n) bytes := by
    rintro n bytes ⟨hlo, hhi⟩ rfl
    exact ⟨.int hlo hhi, Primitive.writeInt_int hlo hhi, fun _ => Primitive.readInt_bytesOf hlo hhi⟩
  have hsize := hint 3 [6] (by decide) (by decide +kernel)
  have hage := hint 5 [10] (by decide) (by decide +kernel)
  have hcolor := hint 1 [2] (by decide) (by decide +kernel)
  have hzero : Varint.bytesOf (0 : Nat) ++ [] = [0] := by decide +kernel
  simp only [potSpreads, List.flatMap_cons, List.flatMap_nil, List.cons_append, List.nil_append, List.forall_mem_cons]
  exact ⟨⟨.basic hsize.1 hsize.2, .basic hage.1 hage.2, hzero ▸ .union (i := 0) rfl (by decide) .null,
      .basic hcolor.1 hcolor.2, by simp⟩,
    .basic hsize.2.reads, .basic hage.2.reads, hzero ▸ .union (i := 0) rfl (by decide) .null,
    .basic hcolor.2.reads, by simp⟩

theorem pot_serialize_and_read : ∃ codec, build potSchemata "garden.pot" = .ok codec ∧
    (codec.execute (.dict [("size", .int 3), ("age", .int 5), ("next", .null), ("color", .int 1)])).result
      = .ok [6, 10, 0, 2] ∧
    ∀ rest, codec.deserializeFrom ([6, 10, 0, 2] ++ rest) =
      .ok (.dict [("age", .int 5), ("next", .null), ("color", .int 1)], rest) := by
  obtain ⟨codec, hbuild⟩ := exists_ok (x := build potSchemata "garden.pot") (by decide +kernel)
  obtain ⟨store, registry, hstore, hpot, hnode, hcycle, hinner, hinner', hallows, hallows', htells, htells'⟩ :=
    exists_store potSchemata (fun store =>
      store.form? "garden.pot" = some (.record (potSpreads.map (·.1))) ∧
      store.form? "garden.node" = some (.record nodeFields) ∧ store.isCycleStarting "garden.node" = true ∧
      (∀ q ∈ potParts, ∀ q' ∈ Form.inner store.form? q, q' ∈ potParts) ∧
      (∀ q ∈ nodeParts, ∀ q' ∈ Form.inner store.form? q, q' ∈ nodeParts) ∧
      (∀ q ∈ potParts, store.allows (· = "garden.node") q = true) ∧
      (∀ q ∈ nodeParts, store.allows (· = "garden.node") q = true) ∧
      (∀ q ∈ potParts, q.2.tells store.form? 1 = true) ∧
      ∀ q ∈ nodeParts, q.2.tells store.form? 1 = true) (by decide +kernel)
  have hsingle : ∀ name, Schema.Single potSchemata name :=
    Schema.single_of_table (Schema.derivedIn 2 potSchemata) (by decide +kernel) (by decide +kernel)
      (by decide +kernel)
  have hsize : store.tree? sizeField = none := rfl
  have hplant : store.tree? plantField = some nodeFields := by
    simp [Store.tree?, plantField, hcycle, hnode]
  have hcolor : store.tree? colorField = none := rfl
  have hothers : (potSpreads.map (·.1)).filter (fun f => (store.tree? f).isNone) = [sizeField, colorField] := by
    simp [potSpreads, hsize, hplant, hcolor]
  have htrees : ∀ q ∈ potSpreads, ∀ inner, store.tree? q.1 = some inner → inner = nodeFields := by
    simp [potSpreads, hsize, hplant, hcolor]
  have hformat : store.Format (· = "garden.node")
      (.record ((potSpreads.map (·.1)).filter fun f => (store.tree? f).isNone)) :=
    hothers ▸ Store.format_of_parts potParts List.mem_cons_self hinner hallows
  obtain ⟨hwritten, hread⟩ := serialize_and_read_of_recursive_field potSpreads hstore
    (fun name _ => hsingle name) hbuild hpot
    (by simp [potSpreads, Store.Spreads, hsize, hplant, hcolor, nodeFields]) hformat
    (fun q hq inner htree => htrees q hq inner htree ▸
      Store.format_of_parts nodeParts List.mem_cons_self hinner' hallows')
    (by simp [potSpreads, sizeField, plantField, colorField]) (fun a b ha hb _ => ha.trans hb.symm)
    (hothers ▸ Form.distinct_of_parts 1 potParts List.mem_cons_self hinner htells)
    (fun q hq inner htree => htrees q hq inner htree ▸
      Form.distinct_of_parts 1 nodeParts List.mem_cons_self hinner' htells')
  obtain ⟨hencodes, hdecodes⟩ := potSpreads_encoded store.form?
  have hserialized := hwritten ((potSpreads.flatMap (·.2)).map fun t => (t.1.name, t.2.1)) (by decide)
    fun t ht => ⟨List.mem_map_of_mem (f := fun t => (t.1.name, t.2.1)) ht, hencodes t ht⟩
  have hleft : (store.overlaid potSpreads).map (fun t => (t.1.name, t.2.1)) =
      [("age", .int 5), ("next", .null), ("color", .int 1)] := by
    simp only [Store.overlaid, potSpreads, List.foldl_cons, List.foldl_nil, hsize, hplant, hcolor]
    rfl
  refine ⟨codec, hbuild, congrArg Serialized.result hserialized, fun rest => ?_⟩
  have hall := hread hdecodes rest
  rw [hleft] at hall
  exact hall

/-- A pot with a plant cannot be written. -/
theorem pot_not_serialized : ∃ codec e, build potSchemata "garden.pot" = .ok codec ∧
    (codec.execute (.dict [("size", .int 3),
      ("plant", .dict [("age", .int 5), ("next", .null)]), ("color", .int 1)])).result = .error e := by
  obtain ⟨codec, hbuild, hfails⟩ := exists_codec potSchemata "garden.pot" (fun codec =>
    (codec.execute (.dict [("size", .int 3), ("plant", .dict [("age", .int 5), ("next", .null)]),
      ("color", .int 1)])).result.toBool = false) (by decide +kernel)
  cases hrun : (codec.execute (.dict [("size", .int 3),
      ("plant", .dict [("age", .int 5), ("next", .null)]), ("color", .int 1)])).result with
  | error e => exact ⟨codec, e, hbuild, hrun⟩
  | ok bytes =>
    rw [hrun] at hfails
    cases hfails

end Codec

end AvroCodec
