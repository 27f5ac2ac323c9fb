import AvroCodec.Proofs.Generated
import AvroCodec.Proofs.Once

/-!
# The context of a generator

Code for a definition is generated in the context of its name, and the context before it is set again
afterwards. One way out forgets this: a field whose type is the name of a recursive type leaves the context of
this type. `Setting.Leaves` says of which schemas such a field can be reached, without another definition in
between that is generated in a context of its own.
-/

namespace AvroCodec

open Code Generator

/-- Generating code for a schema may leave the context of a recursive type: there is a field of this type inside
it, or inside the definition of a recursive type that is met. -/
inductive Setting.Leaves (σ : Setting) : Json → Prop
  | field {d : Json} {type : String} (hlogical : d.get? "logicalType" = none) (htype : d.get? "type" = some (.str type))
      (hstored : σ.store.contains type = true) (hflag : σ.store.isCycleStarting type = true) : Leaves σ d
  | inner {d x : Json} (hx : d.Inner x) (h : Leaves σ x) : Leaves σ d
  | member {members : Members} {x : Json} (hlogical : Json.lookup "logicalType" members = none)
      (htype : Json.lookup "type" members = some (.str "record")) (hx : x ∈ Schema.fieldList members) (h : Leaves σ x) :
      Leaves σ (.obj members)
  | met {name : String} {x : Json} (hflag : σ.store.isCycleStarting name = true) (hx : σ.store.Loads name x)
      (h : Leaves σ (Schema.normal x)) : Leaves σ (.str name)

namespace Gen

/-- An action after which, if it succeeds, the context is what it was before, or else `leak` holds and the context
is that of a recursive type. -/
def Returns {α : Type} (σ : Setting) (leak : Prop) (x : Gen α) : Prop :=
  ∀ ⦃s t a⦄, x σ s = (.ok a, t) → t.context = s.context ∨
    leak ∧ σ.store.contains t.context = true ∧ σ.store.isCycleStarting t.context = true

namespace Returns

variable {α β : Type} {σ : Setting} {leak leak' : Prop} {x : Gen α} {f : α → Gen β}

theorem mono (h : Returns σ leak x) (hle : leak → leak') : Returns σ leak' x := by
  intro s t a ha
  exact (h ha).imp_right (And.imp_left hle)

theorem of_eq (h : ∀ {s t a}, x σ s = (.ok a, t) → t.context = s.context) : Returns σ leak x :=
  fun _ _ _ ha => .inl (h ha)

theorem pure (a : α) : Returns σ leak (Pure.pure a : Gen α) :=
  of_eq fun ha => by rw [(pure_eq_ok.1 ha).2]

theorem throw (e : SchemaError) : Returns σ leak (MonadExcept.throw e : Gen α) :=
  of_eq fun ha => (throw_eq_ok.1 ha).elim

theorem bind_run (hx : Returns σ leak x) (hf : ∀ {a s t}, x σ s = (.ok a, t) → Returns σ leak (f a)) :
    Returns σ leak (x >>= f) := by
  intro s t b hrun
  obtain ⟨a, u, ha, hb⟩ := bind_eq_ok.1 hrun
  rcases hf ha hb with heq | hleft
  · rw [heq]
    exact hx ha
  · exact .inr hleft

theorem bind (hx : Returns σ leak x) (hf : ∀ a, Returns σ leak (f a)) : Returns σ leak (x >>= f) :=
  hx.bind_run fun {a _ _} _ => hf a

theorem bind_lift {o : Except SchemaError α} (h : ∀ a, o = .ok a → Returns σ leak (f a)) :
    Returns σ leak (liftM o >>= f) := by
  intro s t b hrun
  obtain ⟨a, u, ha, hb⟩ := bind_eq_ok.1 hrun
  obtain ⟨ho, rfl⟩ := lift_eq_ok.1 ha
  exact h a ho hb

theorem bind_read {f : Setting → Gen β} (h : Returns σ leak (f σ)) : Returns σ leak (read >>= f) :=
  fun _ _ _ hb => h hb

theorem mapM {g : α → Gen β} {xs : List α} (h : ∀ a ∈ xs, Returns σ leak (g a)) : Returns σ leak (xs.mapM g) := by
  induction xs with
  | nil =>
    rw [List.mapM_nil]
    exact .pure _
  | cons a xs ih =>
    rw [List.mapM_cons]
    refine (h a List.mem_cons_self).bind fun b => ?_
    exact (ih fun a ha => h a (List.mem_cons_of_mem _ ha)).bind fun bs => .pure _

theorem fresh {kind : String} {z : Gen String} (h : Fresh kind z) : Returns σ leak z := by
  obtain ⟨n, u, -, hrun⟩ := h.exists_count
  refine of_eq fun ha => ?_
  rw [hrun] at ha
  cases ha
  rfl

theorem update {g : Generator → Generator} (h : ∀ s, (g s).context = s.context) :
    Returns σ leak (modify g : Gen PUnit) :=
  of_eq fun ha => by
    rw [modify_eq_ok.1 ha]
    exact h _

theorem declare (type name : String) : Returns σ leak (Gen.declare type name) := update fun _ => rfl

theorem withRegistry (action : Schema.WithRegistry α) : Returns σ leak (Gen.withRegistry action) :=
  of_eq fun ha => by
    obtain ⟨r, -, rfl⟩ := withRegistry_eq_ok ha
    rfl

theorem load (name : String) : Returns σ leak (Gen.load name) :=
  of_eq fun ha => by
    obtain ⟨r, -, rfl⟩ := load_eq_ok ha
    rfl

theorem requireReady : Returns σ leak Gen.requireReady :=
  of_eq fun ha => by rw [requireReady_eq_ok ha]

theorem within (context : String) : Returns σ leak (Gen.within context x) :=
  of_eq fun ha => by
    simp only [Gen.within, bind_eq_ok, get_eq_ok, setContext, modify_eq_ok, pure_eq_ok] at ha
    obtain ⟨_, _, ⟨rfl, rfl⟩, _, _, -, _, _, -, _, _, rfl, -, rfl⟩ := ha
    rfl

end Returns

end Gen

/-- Generating code for a schema returns to the context, unless the schema may leave it. -/
structure Recursion.Returns (r : Recursion) (σ : Setting) : Prop where
  encode : ∀ d p, Gen.Returns σ (σ.Leaves d) (r.encode d p)
  decode : ∀ d p, Gen.Returns σ (σ.Leaves d) (r.decode d p)

namespace Gen

variable {σ : Setting} {r : Recursion} {leak : Prop} {d : Json} {p : Place}

theorem returns_guardIn (bound : Nat) (x : Json) : Returns σ leak (guardIn bound x) := by
  induction bound generalizing x with
  | zero => exact .throw _
  | succ bound ih =>
    unfold guardIn
    split
    · exact .pure _
    · exact .pure _
    · split
      · exact .of_eq fun ha => by rw [(lift_eq_ok.1 ha).2]
      · refine .bind_read ?_
        split_ifs
        · exact (Returns.load _).bind ih
        · exact .throw _
      · exact .throw _

theorem returns_takeDeclarations : Returns σ leak takeDeclarations :=
  .of_eq fun ha => by rw [takeDeclarations_eq_ok ha]

theorem returns_encodeType (type : String) : Returns σ leak (encodeType r type p) := by
  unfold encodeType
  split_ifs
  · exact .pure _
  · refine .bind_read ?_
    split_ifs
    · exact (Returns.load _).bind fun _ => .within _
    · exact .pure _

theorem returns_decodeType (type : String) (schema : Json) : Returns σ leak (decodeType r type schema p) := by
  unfold decodeType
  split_ifs
  · exact .pure _
  · refine .bind_read ?_
    split_ifs
    · exact (Returns.load _).bind fun _ => .within _
    · exact .pure _

theorem returns_logicalType (kind base schema : Json) : Returns σ leak (logicalType kind base schema) := by
  rw [logicalType]
  refine .bind_lift fun kind _ => .bind_read ?_
  split_ifs
  · exact .throw _
  · exact .pure _

theorem returns_unionIndex : Returns σ leak unionIndex :=
  (Returns.fresh .integer).bind fun _ => (Returns.declare _ _).bind fun _ => .pure _

theorem leaves_of_field {fields x : Json} {elements : List Json} (hlogical : d.get? "logicalType" = none)
    (htype : d.get? "type" = some (.str "record")) (hfields : d.need "fields" = .ok fields)
    (helements : fields.needElements = .ok elements) (hx : x ∈ elements) (h : σ.Leaves x) : σ.Leaves d := by
  cases d with
  | obj members => exact .member hlogical htype (Parallel.fieldList_of_need hfields helements ▸ hx) h
  | _ => cases hfields

section Steps

variable (hr : r.Returns σ)
include hr

theorem returns_routine (x : Json) : Returns σ (σ.Leaves (Schema.normal x)) (routine r x) := by
  rw [routine]
  refine (Returns.update ?_).bind fun _ => (Returns.withRegistry _).bind_run fun hparsed => ?_
  · exact fun _ => rfl
  obtain ⟨_, hparse, -⟩ := withRegistry_eq_ok hparsed
  obtain rfl := Schema.parseOpen_eq hparse
  refine (hr.encode _ _).bind fun _ => returns_takeDeclarations.bind fun _ => ?_
  refine (hr.decode _ _).bind fun _ => returns_takeDeclarations.bind fun _ => .of_eq fun ha => ?_
  simp only [bind_eq_ok, get_eq_ok, set_eq_ok, pure_eq_ok] at ha
  obtain ⟨_, _, ⟨rfl, rfl⟩, _, _, rfl, -, rfl⟩ := ha
  rfl

theorem returns_meet {name : String} (hflag : σ.store.isCycleStarting name = true) :
    Returns σ (σ.Leaves (.str name)) (meet r name) := by
  rw [meet]
  refine (Returns.of_eq fun ha => by rw [(get_eq_ok.1 ha).2]).bind fun s => ?_
  split_ifs
  · rw [handle]
    refine (Returns.update ?_).bind fun _ => (Returns.load name).bind_run fun hx => ?_
    · exact fun _ => rfl
    refine ((returns_routine hr _).mono (.met hflag (loads_of_load hx))).bind fun _ => .update fun _ => ?_
    dsimp only
    split_ifs <;> rfl
  · exact .pure _

/-- A field whose type is a definition returns, unless this is the definition of a recursive type. -/
theorem returns_reference {α : Type} {type : String} {call : α} {code : Json → Json → Gen α}
    (hlogical : d.get? "logicalType" = none) (htype : d.get? "type" = some (.str type))
    (hstored : σ.store.contains type = true) :
    Returns σ (σ.Leaves d) (do
      let loaded ← load type
      let outer := (← get).context
      setContext type
      if (← read).store.isCycleStarting type then
        meet r type
        return call
      let name ← d.need "name"
      let made ← code loaded name
      setContext outer
      return made) := by
  intro s t a ha
  simp only [bind_eq_ok, get_eq_ok, read_eq_ok, setContext, modify_eq_ok] at ha
  obtain ⟨x, s₁, hx, _, _, ⟨rfl, rfl⟩, _, _, rfl, _, _, ⟨rfl, rfl⟩, ha⟩ := ha
  obtain ⟨registry, -, rfl⟩ := load_eq_ok hx
  split_ifs at ha with hflag
  · obtain ⟨_, u, hmeet, ha⟩ := bind_eq_ok.1 ha
    obtain ⟨-, rfl⟩ := pure_eq_ok.1 ha
    rcases returns_meet hr hflag hmeet with heq | ⟨-, hleft⟩
    · exact .inr ⟨.field hlogical htype hstored hflag, heq ▸ hstored, heq ▸ hflag⟩
    · exact .inr ⟨.field hlogical htype hstored hflag, hleft⟩
  · simp only [bind_eq_ok, modify_eq_ok, pure_eq_ok] at ha
    obtain ⟨_, _, -, _, _, -, _, _, rfl, -, rfl⟩ := ha
    exact .inl rfl

theorem returns_encodeReferenceField {type : String} (hlogical : d.get? "logicalType" = none)
    (htype : d.get? "type" = some (.str type)) (hstored : σ.store.contains type = true) :
    Returns σ (σ.Leaves d) (encodeReferenceField r d type p) :=
  returns_reference hr hlogical htype hstored

theorem returns_decodeReferenceField {type : String} (hlogical : d.get? "logicalType" = none)
    (htype : d.get? "type" = some (.str type)) (hstored : σ.store.contains type = true) :
    Returns σ (σ.Leaves d) (decodeReferenceField r d type p) :=
  returns_reference hr hlogical htype hstored

theorem returns_encodeBranches {types : List Json} {inner : Place} {subject : Option Subject}
    (hinner : ∀ x ∈ types, d.Inner x) : Returns σ (σ.Leaves d) (encodeBranches r types inner subject) := by
  have hpart : ∀ t ∈ inTrialOrder types, ∀ p, Returns σ (σ.Leaves d) (r.encode t.1 p) := fun t ht p =>
    (hr.encode t.1 p).mono (.inner (hinner _ (Parallel.mem_of_inTrialOrder ht)))
  rw [encodeBranches]
  split_ifs
  · exact .throw _
  · refine Returns.bind (.mapM fun t ht => ?_) fun plain => ?_
    · split_ifs
      · exact returns_encodeType _
      · exact hpart t ht _
    refine (Returns.fresh .tag).bind fun tag => (Returns.declare _ _).bind fun _ => ?_
    refine (Returns.fresh .value).bind fun data => ?_
    cases subject with
    | none => exact .throw _
    | some subject =>
      refine Returns.bind (.mapM fun t ht => ?_) fun tagged => ?_
      · refine Returns.requireReady.bind fun _ => .bind_lift fun tag _ => (hpart t ht _).bind fun _ => .pure _
      · exact (Returns.mapM fun t _ => .bind_read (returns_guardIn _ _)).bind fun _ => .pure _

theorem returns_encodeObject {type : Json} (htype : d.get? "type" = some type) :
    Returns σ (σ.Leaves d) (encodeObject r d type p) := by
  rw [encodeObject.eq_def]
  split
  · exact Returns.bind (returns_logicalType _ _ _) fun _ => .pure _
  next hlogical =>
    split
    · refine .bind_lift fun fields hfields => .bind_lift fun elements helements => ?_
      refine Returns.bind (.mapM fun x hx => ?_) fun _ => .pure _
      exact (hr.encode x p).mono (leaves_of_field hlogical htype hfields helements hx)
    · refine (Returns.fresh .value).bind fun item => .bind_lift fun items hitems => ?_
      refine ((hr.encode items _).mono (.inner ?_)).bind fun _ => .pure _
      exact .items hlogical htype (Parallel.get?_of_need hitems)
    · exact .bind_lift fun _ _ => .pure _
    · refine (Returns.fresh .map).bind fun name => (Returns.declare _ _).bind fun _ => ?_
      refine .bind_lift fun values hvalues => ?_
      refine (Returns.fresh .key).bind fun key => (Returns.fresh .value).bind fun value => ?_
      refine (Returns.declare _ _).bind fun _ => Returns.requireReady.bind fun _ => ?_
      refine ((hr.encode values _).mono (.inner ?_)).bind fun _ => .pure _
      exact .values hlogical htype (Parallel.get?_of_need hvalues)
    · exact returns_encodeType _
    · refine .bind_lift fun name _ => ((hr.encode _ _).mono (.inner ?_)).bind fun _ => .pure _
      exact .type hlogical htype
    · rw [encodeUnionField.eq_def]
      split
      · refine .bind_lift fun name _ => .bind_lift fun types htypes => .bind_lift fun elements helements => ?_
        cases (Parallel.get?_of_need htypes).symm.trans htype
        cases helements
        exact returns_encodeBranches hr fun x hx => .option hlogical htype hx
      · exact .throw _
    · split_ifs
      · exact (returns_encodeType _).bind fun _ => .pure _
      · refine .bind_read ?_
        split_ifs with hstored
        · exact returns_encodeReferenceField hr hlogical htype hstored
        · exact .throw _
    · exact .throw _

theorem returns_encodeStep (d : Json) (p : Place) : Returns σ (σ.Leaves d) (encodeStep r d p) := by
  rw [encodeStep.eq_def]
  cases d with
  | str name =>
    refine .bind_read ?_
    split_ifs with hflag
    · rw [Bool.and_eq_true] at hflag
      exact (returns_meet hr hflag.1).bind fun _ => .pure _
    · exact returns_encodeType _
  | arr types =>
    refine .bind_lift fun elements helements => ?_
    cases helements
    exact returns_encodeBranches hr fun x hx => .branch hx
  | _ => exact .bind_lift fun type htype => returns_encodeObject hr (Parallel.get?_of_need htype)

theorem returns_decodeBranches {types : Json} {index : String} (hinner : ∀ xs, types.needElements = .ok xs →
    ∀ x ∈ xs, d.Inner x) : Returns σ (σ.Leaves d) (decodeBranches r index types p) := by
  rw [decodeBranches]
  refine .bind_lift fun elements helements => ?_
  refine Returns.bind (.mapM fun x hx => Returns.requireReady.bind fun _ => ?_) fun _ => .bind_read (.pure _)
  exact ((hr.decode x _).mono (.inner (hinner _ helements x hx))).bind fun _ => .pure _

theorem returns_decodeObject {type : Json} (htype : d.get? "type" = some type) :
    Returns σ (σ.Leaves d) (decodeObject r d type p) := by
  rw [decodeObject.eq_def]
  split
  · exact Returns.bind (returns_logicalType _ _ _) fun _ => .pure _
  next hlogical =>
    split
    · refine .bind_lift fun fields hfields => .bind_lift fun elements helements => ?_
      refine Returns.bind (.mapM fun x hx => ?_) fun _ => .pure _
      exact (hr.decode x p).mono (leaves_of_field hlogical htype hfields helements hx)
    · refine (Returns.fresh .integer).bind fun index => (Returns.fresh .integer).bind fun count => ?_
      refine (Returns.fresh .value).bind fun item => (Returns.declare _ _).bind fun _ => ?_
      refine (Returns.declare _ _).bind fun _ => ?_
      refine .bind_lift fun items hitems => Returns.requireReady.bind fun _ => ?_
      refine ((hr.decode items _).mono (.inner ?_)).bind fun _ => .pure _
      exact .items hlogical htype (Parallel.get?_of_need hitems)
    · exact .bind_lift fun _ _ => .pure _
    · refine (Returns.fresh .key).bind fun key => (Returns.declare _ _).bind fun _ => ?_
      refine (Returns.fresh .integer).bind fun count => (Returns.declare _ _).bind fun _ => ?_
      refine (Returns.fresh .integer).bind fun index => (Returns.declare _ _).bind fun _ => ?_
      refine .bind_lift fun values hvalues => Returns.requireReady.bind fun _ => ?_
      refine ((hr.decode values _).mono (.inner ?_)).bind fun _ => .pure _
      exact .values hlogical htype (Parallel.get?_of_need hvalues)
    · exact returns_decodeType _ _
    · exact .bind_lift fun name _ => (hr.decode _ _).mono (.inner (.type hlogical htype))
    · rw [decodeUnionField.eq_def]
      refine returns_unionIndex.bind fun index => ?_
      split
      · refine .bind_lift fun name _ => .bind_lift fun types htypes => returns_decodeBranches hr fun xs hxs x hx => ?_
        cases (Parallel.get?_of_need htypes).symm.trans htype
        cases hxs
        exact .option hlogical htype hx
      · exact .throw _
    · split_ifs
      · exact returns_decodeType _ _
      · refine .bind_read ?_
        split_ifs with hstored
        · exact returns_decodeReferenceField hr hlogical htype hstored
        · exact .throw _
    · exact .throw _

theorem returns_decodeStep (d : Json) (p : Place) : Returns σ (σ.Leaves d) (decodeStep r d p) := by
  rw [decodeStep.eq_def]
  cases d with
  | str name =>
    refine .bind_read ?_
    split_ifs with hflag
    · rw [Bool.and_eq_true] at hflag
      exact (returns_meet hr hflag.1).bind fun _ => .pure _
    · exact returns_decodeType _ _
  | arr types =>
    refine returns_unionIndex.bind fun index => returns_decodeBranches hr fun xs hxs x hx => ?_
    cases hxs
    exact .branch hx
  | obj members => exact .bind_lift fun type htype => returns_decodeObject hr (Parallel.get?_of_need htype)
  | _ => exact .throw _

end Steps

theorem returns_upTo (σ : Setting) (steps : Nat) : (Recursion.upTo steps).Returns σ := by
  induction steps with
  | zero => exact ⟨fun _ _ => .throw _, fun _ _ => .throw _⟩
  | succ steps ih => exact ⟨returns_encodeStep ih, returns_decodeStep ih⟩

/-- Generating code for a type that is given by its name sets the context again. So does generating code for any
schema, unless it may leave the context: then the context may be that of a recursive type. -/
theorem context_restored (σ : Setting) (schema : Json) (place : Place) (s t : Generator) :
    (∀ r type code, encodeType r type place σ s = (.ok code, t) → t.context = s.context) ∧
    (∀ r type code, decodeType r type schema place σ s = (.ok code, t) → t.context = s.context) ∧
    (∀ code, encode schema place σ s = (.ok code, t) → t.context = s.context ∨
      σ.Leaves schema ∧ σ.store.contains t.context = true ∧ σ.store.isCycleStarting t.context = true) ∧
    ∀ code, decode schema place σ s = (.ok code, t) → t.context = s.context ∨
      σ.Leaves schema ∧ σ.store.contains t.context = true ∧ σ.store.isCycleStarting t.context = true := by
  refine ⟨fun r type code h => ?_, fun r type code h => ?_, fun code h => ?_, fun code h => ?_⟩
  · have hreturns : Returns σ False (encodeType r type place) := returns_encodeType type
    exact (hreturns h).resolve_right fun hleft => hleft.1
  · have hreturns : Returns σ False (decodeType r type schema place) := returns_decodeType type schema
    exact (hreturns h).resolve_right fun hleft => hleft.1
  · exact (returns_upTo σ (reach σ.store schema)).encode schema place h
  · exact (returns_upTo σ (reach σ.store schema)).decode schema place h

end Gen

/-! ### Schemas that leave no context -/

namespace Store

/-- Whether no part of a schema, down to a depth, is a field whose type is the name of a recursive type. -/
def isCalm (store : Store) : Nat → Json → Bool
  | 0, _ => true
  | depth + 1, d =>
    (match d.get? "type" with
      | some (.str type) => !store.isCycleStarting type
      | _ => true) && d.parts.all (store.isCalm depth)

variable {store : Store} {extended : Bool}

/-- A schema without such a field leaves no context, if the definitions of recursive types have none. -/
theorem not_leaves_of_isCalm (hloads : ∀ {name x}, store.isCycleStarting name = true → store.Loads name x →
      store.isCalm ((Schema.normal x).depth + 1) (Schema.normal x) = true)
    {depth : Nat} {d : Json} (hdepth : d.depth < depth) (hd : store.isCalm depth d = true) :
    ¬Setting.Leaves ⟨store, extended⟩ d := by
  intro hleaves
  induction hleaves generalizing depth with
  | field hlogical htype hstored hflag =>
    cases depth with
    | zero => exact absurd hdepth (Nat.not_lt_zero _)
    | succ depth =>
      rw [isCalm, htype] at hd
      simp only [hflag, Bool.not_true, Bool.false_and, Bool.false_eq_true] at hd
  | inner hx _ ih =>
    cases depth with
    | zero => exact absurd hdepth (Nat.not_lt_zero _)
    | succ depth =>
      rw [isCalm, Bool.and_eq_true, List.all_eq_true] at hd
      have hlt := Json.depth_lt_of_mem_parts hx.mem_parts
      exact ih (by omega) (hd.2 _ hx.mem_parts)
  | member _ _ hx _ ih =>
    cases depth with
    | zero => exact absurd hdepth (Nat.not_lt_zero _)
    | succ depth =>
      rw [isCalm, Bool.and_eq_true, List.all_eq_true] at hd
      have hpart := Json.mem_parts_fieldList hx
      have hlt := Json.depth_lt_of_mem_parts hpart
      exact ih (by omega) (hd.2 _ hpart)
  | met hflag hx _ ih => exact ih (Nat.lt_succ_self _) (hloads hflag hx)

end Store

/-- A vine that may go on, a bed with two of them, and a post that one grows on. -/
def vineSchemata : Schemata :=
  [("garden.vine", .record "garden.vine" [
      .field "next" (.arr [.str "null", .str "garden.vine"])]),
    ("garden.bed", .record "garden.bed" [
      .field "first" (.arr [.str "null", .str "garden.vine"]),
      .field "others" (.obj [("type", .str "array"), ("items", .str "garden.vine")])]),
    ("garden.post", .record "garden.post" [
      .field "plant" (.str "garden.vine")])]

def bedSchema : Json := ((Json.lookup "garden.bed" vineSchemata).getD .null)

theorem bed_context_restored : ∃ store registry code t,
    Store.build vineSchemata [] = (.ok store, registry) ∧ store.isCycleStarting "garden.vine" = true ∧
    Gen.encode bedSchema (.of "data") ⟨store, false⟩
      { new "garden.bed" [] with ready := true } = (.ok code, t) ∧
    ¬Setting.Leaves ⟨store, false⟩ bedSchema ∧ t.handled = ["garden.vine"] ∧ t.context = "garden.bed" := by
  obtain ⟨store, registry, hstore, hflag, hbed, hcalm, hok, hhandled⟩ := Codec.exists_store vineSchemata (fun store =>
    store.isCycleStarting "garden.vine" = true ∧ store.isCalm (bedSchema.depth + 1) bedSchema = true ∧
    (∀ e ∈ Schema.derivedIn 2 vineSchemata, store.isCycleStarting e.1 = true →
      store.isCalm ((Schema.normal e.2).depth + 1) (Schema.normal e.2) = true) ∧
    (Gen.encode bedSchema (.of "data") ⟨store, false⟩
      { new "garden.bed" [] with ready := true }).1.toBool = true ∧
    (Gen.encode bedSchema (.of "data") ⟨store, false⟩
      { new "garden.bed" [] with ready := true }).2.handled = ["garden.vine"]) (by decide +kernel)
  have hleaves : ¬Setting.Leaves ⟨store, false⟩ bedSchema := by
    refine Store.not_leaves_of_isCalm (fun hname hx => ?_) (Nat.lt_succ_self _) hbed
    exact hcalm _ ((hx.defines hstore).mem_table _ (by decide +kernel) (by decide +kernel)) hname
  obtain ⟨code, hcode⟩ := Codec.exists_ok hok
  refine ⟨store, registry, code, _, hstore, hflag, Prod.ext hcode rfl, hleaves, hhandled, ?_⟩
  exact ((Gen.context_restored ⟨store, false⟩ bedSchema (.of "data")
    { new "garden.bed" [] with ready := true } _).2.2.1 code (Prod.ext hcode rfl)).resolve_right
      fun hleft => hleaves hleft.1

/-- A field whose type is the name of a recursive type leaves the context of this type. -/
theorem plant_context_left : ∃ store registry code t,
    Store.build vineSchemata [] = (.ok store, registry) ∧
    Gen.encode (Gen.fieldOf (.str "plant") (.str "garden.vine")) (.of "data") ⟨store, false⟩
      { new "garden.post" [] with ready := true } = (.ok code, t) ∧ t.context = "garden.vine" := by
  obtain ⟨store, registry, hstore, hok, hcontext⟩ := Codec.exists_store vineSchemata (fun store =>
    (Gen.encode (Gen.fieldOf (.str "plant") (.str "garden.vine")) (.of "data") ⟨store, false⟩
      { new "garden.post" [] with ready := true }).1.toBool = true ∧
    (Gen.encode (Gen.fieldOf (.str "plant") (.str "garden.vine")) (.of "data") ⟨store, false⟩
      { new "garden.post" [] with ready := true }).2.context = "garden.vine") (by decide +kernel)
  obtain ⟨code, hcode⟩ := Codec.exists_ok hok
  exact ⟨store, registry, code, _, hstore, Prod.ext hcode rfl, hcontext⟩

end AvroCodec
