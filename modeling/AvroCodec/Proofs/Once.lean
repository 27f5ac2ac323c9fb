import AvroCodec.Proofs.Defined
import AvroCodec.Proofs.Ending
import AvroCodec.Proofs.Generated
import AvroCodec.Proofs.Tidy

/-!
# Every function is defined once

While code is generated, the routine of a recursive type is begun when the type is met, takes up the
routines that were waiting when it was made, and waits itself until the next one is made. So at any time
at most one routine is waiting, and in the end all functions of the types that have been met are in one.

If nothing with a blank is pasted into code, then the text of a module has a definition of each of these
functions, and no second one.
-/

namespace AvroCodec

open Code Text Json Store Routine Logical

/-! ### What code pastes from a tidy schema -/

namespace Json

variable {strict : Bool} {d x : Json} {key : String}

theorem isBlankless_of_get? (h : d.isTidy strict = true) (hx : d.get? key = some x)
    (hkey : meaningful.contains key = true) (hpasted : structural.contains key = false) :
    x.isBlankless = true := by
  cases d with
  | obj members => exact isBlankless_of_isTidy (isTidy_of_pasted h hkey hpasted hx)
  | _ => cases hx

theorem isBlankless_getD (h : d.isTidy strict = true) (other : Json) (hother : other.isBlankless = true)
    (hkey : meaningful.contains key = true) (hpasted : structural.contains key = false) :
    ((d.get? key).getD other).isBlankless = true := by
  cases hx : d.get? key with
  | none => exact hother
  | some x => exact isBlankless_of_get? h hx hkey hpasted

theorem blankless_name (h : d.isTidy strict = true) (hx : d.get? "name" = some x) : Blankless x.pasted := by
  cases d with
  | obj members => exact (isTidy_of_lookup h (by decide) hx).2 rfl
  | _ => cases hx

theorem isBlankless_base {kind : Json} (h : d.isTidy strict = true) (hlogical : d.get? "logicalType" = some kind)
    (hx : d.get? "type" = some x) : x.isBlankless = true := by
  cases d with
  | obj members =>
    have hwhole : hasWholeType members = true := by
      rw [hasWholeType, show lookup "logicalType" members = some kind from hlogical, Option.isSome_some, Bool.or_true]
    have htidy := (isTidy_of_lookup h (by decide) hx).1
    rw [hwhole, Bool.or_true, Bool.true_or] at htidy
    exact isBlankless_of_isTidy htidy
  | _ => cases hx

theorem isTidy_of_types {types : List Json} (h : d.isTidy strict = true) (htype : d.get? "type" = some (.arr types)) :
    (arr types).isTidy strict = true := by
  cases d with
  | obj members => exact isTidy_mono (isTidy_of_lookup h (by decide) htype).1 fun hs => by rw [hs]; rfl
  | _ => cases htype

theorem blankless_tag {tag : Json} (h : d.isTidy strict = true) (htag : tagOf d = .ok tag) :
    Blankless tag.pasted := by
  cases d with
  | str s =>
    cases htag
    exact isTidy_str.1 h
  | obj members =>
    cases htag
    cases hname : lookup "name" members with
    | none => exact hasChar_blank.1 (by decide +kernel : hasChar ' ' null.pasted = false)
    | some name => exact blankless_name h hname
  | _ => cases htag

theorem isBlankless_fixed (h : d.isTidy strict = true) (hlogical : d.get? "logicalType" = none)
    (htype : d.get? "type" = some (.str "fixed")) : d.isBlankless = true := by
  cases d with
  | obj members =>
    have hwhole : isWhole members = true := by
      rw [isWhole, show lookup "type" members = _ from htype, show lookup "logicalType" members = _ from hlogical]
      rfl
    refine isBlankless_of_isTidy (isTidy_obj_iff.2 fun m hm => ?_)
    refine (isTidy_obj_iff.1 h m hm).mono (fun _ => ?_) fun _ => ?_
    · rw [hwhole, Bool.or_true]
    · rw [hasWholeType, hwhole, Bool.true_or, Bool.or_true]
  | _ => cases htype

end Json

namespace Code

open Json

variable {strict : Bool} {d : Json} {p : Place} {kind : String}

theorem Place.Tidy.ownPlace (hp : p.Tidy) (h : d.isTidy strict = true) : (Parallel.ownPlace d p).Tidy := by
  unfold Parallel.ownPlace
  split_ifs with htruthy
  · cases hname : d.get? "name" with
    | none =>
      rw [hname] at htruthy
      cases htruthy
    | some name => exact hp.member (blankless_name h hname)
  · exact hp

theorem isBlankless_scaleAndSize (h : d.isTidy strict = true) :
    (obj (scaleAndSize d)).isBlankless = true := by
  have hscale := isBlankless_getD h (.int 0) rfl (by decide : meaningful.contains "scale" = true) (by decide)
  have hsize := isBlankless_getD h (.int 0) rfl (by decide : meaningful.contains "size" = true) (by decide)
  simp only [scaleAndSize, isBlankless, isBlanklessMembers, hscale, hsize]
  decide

theorem isBlankless_paramsOf (h : d.isTidy strict = true) :
    (obj (paramsOf d)).isBlankless = true := by
  have hscale := isBlankless_getD h (.int 0) rfl (by decide : meaningful.contains "scale" = true) (by decide)
  have hsize := isBlankless_getD h (.int 0) rfl (by decide : meaningful.contains "size" = true) (by decide)
  have hprecision := isBlankless_getD h (.null) rfl (by decide : meaningful.contains "precision" = true)
    (by decide)
  simp only [paramsOf, scaleAndSize, List.cons_append, List.nil_append, isBlankless,
    isBlanklessMembers, hscale, hsize, hprecision]
  decide

theorem blankless_kind (h : d.isTidy strict = true) (hkind : d.get? "logicalType" = some (.str kind)) :
    Blankless (replaceAll "-" "_" kind) := by
  have hgiven : Blankless kind :=
    (@isTidy_str true kind).1 (isBlankless_of_get? h hkind (by decide) (by decide))
  intro hblank
  rcases mem_replaceAll (b := '-') hblank with hc | hc
  · exact absurd hc (by decide)
  · exact hgiven hc

theorem Logical.tidy_logicalOf {base : Json} (h : d.isTidy strict = true)
    (hkind : d.get? "logicalType" = some (.str kind)) (hbase : d.get? "type" = some base) :
    (Parallel.logicalOf kind base d).Tidy :=
  ⟨blankless_kind h hkind, isBlankless_base h hkind hbase, isBlankless_paramsOf h⟩

theorem Logical.tidy_forTest {l : Logical} (h : d.isTidy strict = true) (hl : forTest d = .ok l) :
    l.Tidy := by
  unfold forTest at hl
  obtain ⟨given, hgiven, hl⟩ := except_bind_eq_ok.1 hl
  obtain ⟨kind, hkind, hl⟩ := except_bind_eq_ok.1 hl
  obtain ⟨base, hbase, hl⟩ := except_bind_eq_ok.1 hl
  cases hl
  have hgiven := Parallel.get?_of_need hgiven
  have hbase := isBlankless_base h hgiven (Parallel.get?_of_need hbase)
  cases given with
  | str s =>
    cases hkind
    exact ⟨blankless_kind h hgiven, hbase, isBlankless_scaleAndSize h⟩
  | _ => cases hkind

theorem Guard.tidy_of_object {g : Guard} (h : d.isTidy strict = true) (hg : Gen.guardOfObject d = .ok g) :
    g.Tidy := by
  have hword : ∀ {name : String}, hasChar ' ' name = false → (Guard.hasType name).Tidy := hasChar_blank.1
  unfold Gen.guardOfObject at hg
  split at hg
  · cases hg
    exact hword (by decide)
  · cases hg
    exact hword (by decide)
  · cases hg
    exact hword (by decide)
  · obtain ⟨symbols, hsymbols, hg⟩ := except_bind_eq_ok.1 hg
    cases hg
    exact isBlankless_of_get? h (Parallel.get?_of_need hsymbols) (by decide) (by decide)
  · split at hg
    · obtain ⟨type, -, hg⟩ := except_bind_eq_ok.1 hg
      split_ifs at hg
      cases hg
      exact hword (by decide)
    · obtain ⟨type, -, hg⟩ := except_bind_eq_ok.1 hg
      split_ifs at hg
      cases hg
      exact hword (by decide)
    · obtain ⟨l, hl, hg⟩ := except_bind_eq_ok.1 hg
      cases hg
      exact tidy_forTest h hl

theorem Guard.tidy_of_value {name : String} (h : valueType? d = some name) : (Guard.hasType name).Tidy := by
  refine hasChar_blank.1 ?_
  unfold valueType? at h
  split at h
  · cases h; rfl
  · cases h; rfl
  · cases h; rfl
  · cases h; rfl
  · split_ifs at h with hs
    cases h
    simp only [List.contains_cons, List.contains_nil, Bool.or_false, Bool.or_eq_true, beq_iff_eq] at hs
    rcases hs with rfl | rfl | rfl | rfl <;> rfl
  · cases h

end Code

namespace Store

variable {n : Nat} {p : Place}

/-- At most one routine is waiting, and nothing with a blank is pasted in it. -/
structure Waiting (helpers : List (String × Routine)) : Prop where
  single : helpers.length ≤ 1
  legible : ∀ h ∈ helpers, isPlain h.1 = true ∧ h.2.Legible

/-- A run in which nothing with a blank is pasted into code. -/
def pasting : Parallel Still where
  terms :=
    { first := fun _ _ => False
      second := fun _ _ => False
      both := fun _ _ _ _ => True }
  contexts c c' := c = c'
  line := Routine.IsDeclaration
  held _ _ helpers := Waiting helpers
  met _ name := isPlain name = true
  guard := Guard.Tidy
  encoder _ _ p a := p.Tidy → a.Legible
  decoder _ _ p a := p.Tidy → a.Legible

variable {store : Store} {extended : Bool} {types : List Json}

theorem pasting_single : pasting.Single := ⟨fun _ _ _ _ => trivial, Iff.rfl⟩

theorem word_variable {kind : String} (h : hasChar ' ' kind = false) : Word (Gen.variableName kind n) :=
  word_variableName (hasChar_blank.1 h) n

theorem legible_union {w : Still} {subject : Subject} {m : Nat} {bs : List (Branch Encoder)}
    (htypes : (arr types).isTidy extended = true) (hsubject : subject.Tidy) (hp : p.Tidy)
    (h : ∀ b ∈ bs, pasting.BranchHolds w types p (Gen.variableName "val" n) b) :
    (Encoder.union subject (Gen.variableName "type" m) (Gen.variableName "val" n) bs).Legible := by
  refine .union hsubject (word_variable (by decide)) (word_variable (by decide)) (fun b hb => ⟨?_, (h b hb).guard⟩)
    (fun b hb => ?_) fun b hb => ?_ <;> obtain ⟨type, htype, tag, htag, htext, htagged, hplain⟩ := (h b hb).exists_type
  · rw [htext]
    exact blankless_tag (areTidy_iff.1 htypes type htype) htag
  · exact htagged (Place.tidy_of (word_variable (by decide)))
  · exact hplain hp

theorem legible_filledFrom {d : Json} {a : Encoder}
    (hd : d.isTidy extended = true) (hp : p.Tidy) (h : a.Legible) : (Gen.filledFrom d p a).Legible := by
  unfold Gen.filledFrom
  split
  · exact h
  · exact h
  next value _ hvalue => exact .filled hp (isBlankless_of_get? hd hvalue (by decide) (by decide)) h

theorem pasting_encoderRules :
    pasting.EncoderRules ⟨store, extended⟩ fun d => d.isTidy extended = true where
  mono _ h := h
  null _ _ := .null
  primitive hd hname hp := .primitive (blankless_of_refers hd hname) hp
  recur _ _ hmet hp := .recur hmet hp
  loaded _ _ _ h hp := h hp
  reference hd _ hname _ h hp := h (hp.member (blankless_name hd hname))
  logical hd hkind hbase hp := .logical (tidy_logicalOf hd hkind hbase) hp
  fields _ h hp := .fields fun a ha => by
    obtain ⟨x, -, hx⟩ := exists_mem_of_forall₂ h ha
    exact hx hp
  array _ _ h hp := .array hp (word_variable (by decide)) (h (Place.tidy_of (word_variable (by decide))))
  enum hd hsymbols hp := .enum hp (isBlankless_of_get? hd hsymbols (by decide) (by decide))
  map _ _ h hp := .map hp (word_variable (by decide)) (word_variable (by decide))
    (h (Place.tidy_of (word_variable (by decide))))
  union hd h hp := legible_union hd hp hp h
  unionField hd htype hname h hp :=
    legible_union (isTidy_of_types hd htype) ⟨hp, blankless_name hd hname⟩
      (hp.member (blankless_name hd hname)) h
  nested hd _ hname h hp :=
    legible_filledFrom hd (hp.member (blankless_name hd hname)) (h (hp.member (blankless_name hd hname)))
  basic hd htype _ hp :=
    legible_filledFrom hd (hp.ownPlace hd) (.primitive (blankless_of_refers hd (.inr htype)) (hp.ownPlace hd))

theorem legible_cases {w : Still} {cs : List (Json × Decoder)} (htypes : (arr types).isTidy extended = true)
    (hp : p.Tidy)
    (h : List.Forall₂ (fun t c => c.1 = t ∧ pasting.decoder w t p c.2) types cs) :
    (Decoder.union p (Gen.variableName "i" n) extended cs).Legible := by
  refine .union hp (word_variable (by decide)) (fun hextended c hc => ?_) fun c hc => ?_ <;>
    obtain ⟨t, ht, rfl, hlegible⟩ := exists_mem_of_forall₂ h hc
  · have htidy := areTidy_iff.1 htypes c.1 ht
    rw [hextended] at htidy
    exact isBlankless_of_isTidy htidy
  · exact hlegible hp

theorem pasting_decoderRules :
    pasting.DecoderRules ⟨store, extended⟩ fun d => d.isTidy extended = true where
  mono _ h := h
  null _ hp := .null hp
  primitive hd hp := .primitive (isTidy_str.1 hd) (fun _ => rfl) hp
  fixed hd hlogical htype hp := .primitive (hasChar_blank.1 (by decide))
    (fun _ => isBlankless_fixed hd hlogical htype) hp
  basic hd htype hbasic hp := .primitive (blankless_of_refers hd (.inr htype))
    (fun hfixed => by rw [hfixed] at hbasic; cases hbasic) (hp.ownPlace hd)
  recur _ _ hmet hp := .recur hmet hp
  loaded _ _ h hp := h hp
  reference hd _ hname _ h hp := h (hp.member (blankless_name hd hname))
  logical hd hkind hbase hp := .logical (tidy_logicalOf hd hkind hbase) hp
  record _ _ _ h hp := .record hp fun a ha => by
    obtain ⟨x, -, hx⟩ := exists_mem_of_forall₂ h ha
    exact hx hp
  array _ _ h hp := .array hp (word_variable (by decide)) (word_variable (by decide)) (word_variable (by decide))
    (h (Place.tidy_of (word_variable (by decide))))
  enum hd hsymbols hp := .enum hp (isBlankless_of_get? hd hsymbols (by decide) (by decide))
  map _ _ h hp := .map hp (word_variable (by decide)) (word_variable (by decide)) (word_variable (by decide))
    (h (hp.entry (word_variable (by decide)).1))
  union hd h hp := legible_cases hd hp h
  unionField hd htype hname h hp :=
    legible_cases (isTidy_of_types hd htype) (hp.member (blankless_name hd hname)) h
  nested hd _ _ hname h hp := h (hp.member (blankless_name hd hname))

section Waiting

variable {name : String} {helpers : List (String × Routine)}

theorem Waiting.start : Waiting [] := ⟨Nat.zero_le 1, fun _ h => absurd h List.not_mem_nil⟩

theorem Waiting.make {routine : Routine} (hname : isPlain name = true) (h : routine.Legible) :
    Waiting [(name, routine)] :=
  ⟨Nat.le_refl 1, fun _ ha => List.mem_singleton.1 ha ▸ ⟨hname, h⟩⟩

theorem Waiting.legible_complete {X : Json → Prop} {w : Still} {m : Draft} (h : Waiting helpers)
    (hm : pasting.Fits X w m) : (m.complete helpers).Legible := by
  obtain ⟨x, -, hwriter, hreader⟩ := hm.exists_schema
  have hdata : (Place.of "data").Tidy := Place.tidy_of (by decide)
  exact .mk hm.writerLines (hwriter hdata) hm.readerLines (hreader hdata) (fun a ha => (h.legible a ha).1)
    fun a ha => (h.legible a ha).2

end Waiting

theorem Loads.defines {schemata : Schemata} {r r' : Schema.Registry}
    (h : build schemata r = (.ok store, r')) {name : String} {x : Json} (hx : store.Loads name x) :
    Schema.Defines schemata name x := by
  obtain ⟨context, q, q', hload⟩ := hx
  exact (standsFor_of_load hload h).defines

/-- A store whose definitions are tidy, and whose recursive types have plain names. -/
structure Neat (store : Store) (extended : Bool) : Prop where
  loads : ∀ {name x}, store.Loads name x → x.isTidy extended = true
  plain : ∀ {name}, store.isCycleStarting name = true → isPlain name = true

theorem pasting_rules (h : store.Neat extended) :
    pasting.SingleRules ⟨store, extended⟩ fun d => d.isTidy extended = true where
  toSingle := pasting_single
  parts := isTidy_of_mem_parts
  loads _ _ hx := h.loads hx
  line hdeclared := ⟨_, _, _, hdeclared, rfl⟩
  guardNull := trivial
  guardValue := Guard.tidy_of_value
  guardObject := Guard.tidy_of_object
  encoder := pasting_encoderRules
  decoder := pasting_decoderRules
  meet {_ _ name _ _} hm _ _ hflag := by
    have hname := h.plain hflag
    refine Parallel.follows_meet pasting.held (fun y => ∃ x, store.Loads name x ∧ y = Schema.normal x)
      (fun _ _ => hname) (fun hheld _ => ⟨.still, le_rfl, hheld⟩) (fun _ _ => ?_) ?_
    · exact pasting_single.follows_load_draft hm pasting_encoderRules pasting_decoderRules
        fun hx => Schema.isTidy_normal (h.loads hx)
    · exact fun _ hfits hwaiting => ⟨.make hname (hwaiting.legible_complete hfits), hname⟩

end Store

/-- Fails if more than one routine is waiting. -/
def Gen.checkWaiting : Gen Unit := do
  if 1 < (← get).helpers.length then throw .wrongShape

section Once

variable {schemata : Schemata} {store : Store} {r r' registry : Schema.Registry} {extended : Bool}
  {schema : Json} {identifier text : String} {s : Generator}

theorem Store.matches_pasting (hstore : build schemata r = (.ok store, r')) (hneat : store.Neat extended)
    (steps : Nat) : pasting.Matches ⟨store, extended⟩ (fun d => d.isTidy extended = true) (.upTo steps)
      (.visited Gen.checkWaiting steps) := by
  refine (pasting_rules hneat).matches_visited Gen.checkWaiting (hasDot_of_contains hstore) ?_ steps
  intro w s s' hs
  have hwaiting : s'.helpers.length ≤ 1 := by
    rw [← hs.congr (f := Generator.helpers) fun _ => rfl]
    exact hs.held.single
  change (if 1 < s'.helpers.length then throw .wrongShape else pure () : Gen Unit) ⟨store, extended⟩ s' = _
  rw [if_neg (Nat.not_lt.2 hwaiting)]
  rfl

/-- Nothing with a blank is pasted into the code of a routine. -/
theorem Store.legible_of_routine (hstore : build schemata r = (.ok store, r')) (hneat : store.Neat extended)
    (hschema : schema.isTidy extended = true) {steps : Nat} {a : Routine}
    (hrun : Gen.routine (.upTo steps) schema ⟨store, extended⟩ (.new identifier registry) = (.ok a, s)) :
    (Gen.routine (.visited Gen.checkWaiting steps) schema ⟨store, extended⟩ (.new identifier registry)).1 = .ok a ∧
      a.Legible := by
  have hdraft := pasting_single.follows_draft (w := .still) (X := fun d => d.isTidy extended = true) (d := schema)
    (matches_pasting hstore hneat steps) pasting_encoderRules pasting_decoderRules id
    (Schema.isTidy_normal hschema)
  have hstart : pasting.Aligned .still (.new identifier registry) (.new identifier registry) :=
    ⟨rfl, rfl, fun _ h => absurd h List.not_mem_nil, .start⟩
  have hself := Parallel.compares_routine hdraft _ _ hstart
  rcases hvisited : Gen.routine (.visited Gen.checkWaiting steps) schema ⟨store, extended⟩
    (.new identifier registry) with ⟨e | b, t⟩ <;> simp only [hrun, hvisited] at hself
  · exact hself.elim
  · obtain ⟨rfl, -, -, w, m, helpers, -, rfl, hfits, hwaiting⟩ := hself
    exact ⟨rfl, hwaiting.legible_complete hfits⟩

theorem Gen.renderModule_run (d : Json) (σ : Setting) (s : Generator) : renderModule d σ s =
    match routine (.upTo (Generator.reach σ.store d)) d σ s with
    | (.ok a, t) => (.ok (moduleText σ.extended a.render), t)
    | (.error e, t) => (.error e, t) := by
  change (renderRoutine d σ >>= fun t => pure (moduleText σ.extended t) : Action Generator String) s = _
  rw [Action.bind_run, renderRoutine_run]
  rcases routine (.upTo (Generator.reach σ.store d)) d σ s with ⟨e | a, t⟩ <;> rfl

theorem Store.neat_of_isTidy (hstore : build schemata r = (.ok store, r'))
    (htidy : ∀ e ∈ schemata, e.2.isTidy extended = true) (hplain : ∀ name ∈ store.cycles, isPlain name = true) :
    store.Neat extended where
  loads hx := (hx.defines hstore).isTidy htidy
  plain hflag := hplain _ (List.contains_iff_mem.1 hflag)

/-- The text of a module defines the two functions of each recursive type that was met exactly once, and
calls only functions of these types. At every step of generating it at most one routine is waiting. -/
theorem functions_defined_once (hstore : build schemata r = (.ok store, r'))
    (htidy : ∀ e ∈ schemata, e.2.isTidy extended = true) (hschema : schema.isTidy extended = true)
    (hplain : ∀ name ∈ store.cycles, isPlain name = true)
    (hdistinct : ∀ a ∈ store.cycles, ∀ b ∈ store.cycles, functionSuffix a = functionSuffix b → a = b)
    (hrun : Gen.renderModule schema ⟨store, extended⟩ (.new identifier registry) = (.ok text, s)) :
    (∀ name ∈ s.handled, count ("def " ++ writerName name ++ "(data, output)") text = 1 ∧
      count ("def " ++ readerName name ++ "(fo)") text = 1) ∧
    ∃ routine, text = moduleText extended routine.render ∧
      (∀ part ∈ routine :: routine.functions.map (·.2), ∀ name ∈ part.writer.calls ++ part.reader.calls,
        name ∈ s.handled) ∧
      (Gen.routine (.visited Gen.checkWaiting (Generator.reach store schema)) schema ⟨store, extended⟩
        (.new identifier registry)).1 = .ok routine := by
  obtain ⟨a, ha, rfl⟩ : ∃ a, Gen.routine (.upTo (Generator.reach store schema)) schema ⟨store, extended⟩
      (.new identifier registry) = (.ok a, s) ∧ text = moduleText extended a.render := by
    rw [Gen.renderModule_run] at hrun
    split at hrun
    next a t ha =>
      cases hrun
      exact ⟨a, ha, rfl⟩
    next => cases hrun
  obtain ⟨hvisited, hlegible⟩ :=
    legible_of_routine hstore (neat_of_isTidy hstore htidy hplain) hschema ha
  obtain ⟨htabled, ⟨hwriter, hreader⟩, -⟩ := coded_of_routine hstore ha rfl rfl
  have hcycle : ∀ name ∈ s.handled, name ∈ store.cycles :=
    fun name hname => List.contains_iff_mem.1 (htabled.recursive name hname)
  refine ⟨fun name hname => ?_, a, rfl, fun part hpart name hname => ?_, hvisited⟩
  · have hfunctions : (a.functions.map (·.1)).Perm (s.handled.map functionSuffix) := by
      have hperm := htabled.functions
      rwa [List.map_nil, List.append_nil] at hperm
    have hnodup : (s.handled.map functionSuffix).Nodup :=
      List.Nodup.map_on (fun x hx y hy => hdistinct x (hcycle x hx) y (hcycle y hy)) htabled.nodup
    have hone : (a.functions.map (·.1)).count (functionSuffix name) = 1 := by
      rw [hfunctions.count_eq]
      exact List.count_eq_one_of_mem hnodup (List.mem_map_of_mem hname)
    have hcount := hlegible.count_module extended (isPlain_functionSuffix (hplain name (hcycle name hname)))
    rw [hone] at hcount
    simpa only [writerName, readerName, String.append_assoc] using hcount
  · obtain ⟨hw, hr⟩ : part.writer.Knows (· ∈ s.handled) ∧ part.reader.Knows (· ∈ s.handled) := by
      rcases List.mem_cons.1 hpart with rfl | hpart
      · exact ⟨hwriter, hreader⟩
      · obtain ⟨f, hf, rfl⟩ := List.mem_map.1 hpart
        obtain ⟨_, -, -, hcoded⟩ := htabled.coded f hf
        exact ⟨hcoded.writer, hcoded.reader⟩
    exact (List.mem_append.1 hname).elim (hw name) (hr name)

end Once

def firmSchemata : Schemata :=
  [("town.person", .obj [("type", .str "record"), ("name", .str "person"), ("namespace", .str "town"),
      ("fields", .arr [.field "partner" (.arr [.str "null", .str "person"]),
        .field "owned" (.arr [.str "null", .str "town.firm"])])]),
    ("town.firm", .obj [("type", .str "record"), ("name", .str "firm"), ("namespace", .str "town"),
      ("doc", .str "what people own"),
      ("fields", .arr [.field "owner" (.arr [.str "null", .str "town.person"]),
        .field "parts" (.arr [.str "null", .str "firm"])])])]

theorem firm_functions_defined_once : ∃ store registry text s,
    build firmSchemata [] = (.ok store, registry) ∧ (∀ e ∈ firmSchemata, e.2.isTidy false = true) ∧
    Gen.renderModule (.str "town.person") ⟨store, false⟩ (.new "town.person" []) = (.ok text, s) ∧
    s.handled = ["town.person", "town.firm"] ∧ ∀ name ∈ s.handled,
      count ("def " ++ writerName name ++ "(data, output)") text = 1 ∧
        count ("def " ++ readerName name ++ "(fo)") text = 1 := by
  obtain ⟨store, registry, hstore, hplain, hdistinct, hok, hhandled⟩ :=
    Codec.exists_store firmSchemata (fun store =>
      (∀ name ∈ store.cycles, isPlain name = true) ∧
      (∀ a ∈ store.cycles, ∀ b ∈ store.cycles, functionSuffix a = functionSuffix b → a = b) ∧
      (Gen.renderModule (.str "town.person") ⟨store, false⟩ (.new "town.person" [])).1.isOk = true ∧
      (Gen.renderModule (.str "town.person") ⟨store, false⟩ (.new "town.person" [])).2.handled =
        ["town.person", "town.firm"]) (by decide +kernel)
  have htidy : ∀ e ∈ firmSchemata, e.2.isTidy false = true := by decide +kernel
  rcases hrun : Gen.renderModule (.str "town.person") ⟨store, false⟩ (.new "town.person" [])
    with ⟨e | text, s⟩ <;> rw [hrun] at hok hhandled
  · cases hok
  · exact ⟨store, registry, text, s, hstore, htidy, hrun, hhandled,
      (functions_defined_once hstore htidy (by decide) hplain hdistinct hrun).1⟩

/-! ### Documents that are pasted as a whole -/

/-- A type of fixed size whose comment looks like definitions. -/
def sealSchema : Json :=
  .obj [("type", .str "fixed"),
    ("doc", .str "def serialize_wood_tree(data, output), def serialize_wood_tree(data, output)"),
    ("name", .str "wood.seal"), ("size", .int 2)]

/-- A recursive type, and a record of a seal and a tree. -/
def woodSchemata : Schemata :=
  [("wood.tree", .record "wood.tree" [.field "next" (.arr [.str "null", .str "wood.tree"])]),
    ("wood.lot", .record "wood.lot" [.field "seal" sealSchema,
        .field "tree" (.arr [.str "null", .str "wood.tree"])])]

section Pasted

variable {m s t : String}

theorem isPrefixOf_append {p xs : List Char} (h : p.isPrefixOf xs = true) (ys : List Char) :
    p.isPrefixOf (xs ++ ys) = true :=
  List.isPrefixOf_iff_prefix.2 ((List.isPrefixOf_iff_prefix.1 h).trans (List.prefix_append xs ys))

theorem count_le_append_left (m s t : String) : count m s ≤ count m (s ++ t) := by
  rw [count, count, String.toList_append]
  induction s.toList with
  | nil => exact Nat.zero_le _
  | cons c cs ih =>
    rw [List.cons_append, occurrences, occurrences]
    refine Nat.add_le_add ?_ ih
    split_ifs with h h'
    · exact Nat.le_refl 1
    · exact absurd (isPrefixOf_append h t.toList) h'
    · exact Nat.zero_le _
    · exact Nat.le_refl 0

theorem count_le_append_right (m s t : String) : count m t ≤ count m (s ++ t) := by
  rw [count, count, String.toList_append]
  exact occurrences_le_append _ _

theorem count_reader_le (a : Routine) (extended : Bool) (hm : IsHead m) :
    count m a.reader.render ≤ count m (moduleText extended a.render) := by
  have hframe : ∀ front body back last : String,
      count m body ≤ count m (front ++ indentAll 4 body ++ back ++ last) := by
    intro front body back last
    calc count m body = count m (indentAll 4 body) := (count_indentAll hm.mark 4 body).symm
      _ ≤ count m (front ++ indentAll 4 body) := count_le_append_right ..
      _ ≤ count m (front ++ indentAll 4 body ++ back) := count_le_append_left ..
      _ ≤ count m (front ++ indentAll 4 body ++ back ++ last) := count_le_append_left ..
  cases a with
  | mk wd w rd r helpers =>
    rw [count_moduleText extended _ hm]
    exact (count_le_append_right m ("\n".intercalate rd ++ "\n") r.render).trans (hframe _ _ _ _)

def pastedFirst : Decoder → Option Json
  | .record _ (.primitive "fixed" schema _ :: _) => some schema
  | _ => none

theorem count_pastedFirst_le {a : Decoder} {d : Json} (h : pastedFirst a = some d) :
    count m d.pasted ≤ count m a.render := by
  unfold pastedFirst at h
  split at h
  next p schema q parts =>
    cases h
    have hpart : ∀ front inner back : String, count m d.pasted ≤ count m (front ++ (inner ++ d.pasted) ++ back) := by
      intro front inner back
      calc count m d.pasted ≤ count m (inner ++ d.pasted) := count_le_append_right ..
        _ ≤ count m (front ++ (inner ++ d.pasted)) := count_le_append_right ..
        _ ≤ count m (front ++ (inner ++ d.pasted) ++ back) := count_le_append_left ..
    have hfirst : ∀ (front part : String) (parts : List String),
        count m part ≤ count m (front ++ "\n".intercalate (part :: parts)) := by
      intro front part parts
      refine Nat.le_trans ?_ (count_le_append_right m front _)
      cases parts with
      | nil => exact Nat.le_of_eq (congrArg (count m) (String.intercalate_singleton ..).symm)
      | cons next parts =>
        rw [String.intercalate_cons_cons]
        exact (count_le_append_left m _ _).trans (count_le_append_left m _ _)
    exact (hpart _ _ _).trans (hfirst _ _ _)
  next => cases h

end Pasted

/-- A definition may be found more than once if it stands in a comment of a type of fixed size, though all
names are plain. -/
theorem comment_defined_again : ∃ store registry text s,
    build woodSchemata [] = (.ok store, registry) ∧ (∀ name ∈ store.cycles, isPlain name = true) ∧
    (∀ a ∈ store.cycles, ∀ b ∈ store.cycles, functionSuffix a = functionSuffix b → a = b) ∧
    Gen.renderModule (.str "wood.lot") ⟨store, false⟩ (.new "wood.lot" []) = (.ok text, s) ∧
    "wood.tree" ∈ s.handled ∧ 2 ≤ count ("def " ++ writerName "wood.tree" ++ "(data, output)") text := by
  obtain ⟨store, registry, hstore, hplain, hdistinct, hok, hhandled⟩ :=
    Codec.exists_store woodSchemata (fun store =>
      (∀ name ∈ store.cycles, isPlain name = true) ∧
      (∀ a ∈ store.cycles, ∀ b ∈ store.cycles, functionSuffix a = functionSuffix b → a = b) ∧
      ((Gen.routine (.upTo (Generator.reach store (.str "wood.lot"))) (.str "wood.lot") ⟨store, false⟩
        (.new "wood.lot" [])).1.toOption.bind fun a => pastedFirst a.reader) = some sealSchema ∧
      "wood.tree" ∈ (Gen.routine (.upTo (Generator.reach store (.str "wood.lot"))) (.str "wood.lot") ⟨store, false⟩
        (.new "wood.lot" [])).2.handled) (by decide +kernel)
  rcases hrun : Gen.routine (.upTo (Generator.reach store (.str "wood.lot"))) (.str "wood.lot") ⟨store, false⟩
    (.new "wood.lot" []) with ⟨e | a, s⟩ <;> rw [hrun] at hok hhandled
  · cases hok
  · have hmodule : Gen.renderModule (.str "wood.lot") ⟨store, false⟩ (.new "wood.lot" []) =
        (.ok (moduleText false a.render), s) := by
      rw [Gen.renderModule_run, hrun]
    have htwice : 2 ≤ count ("def " ++ writerName "wood.tree" ++ "(data, output)") sealSchema.pasted := by
      decide +kernel
    refine ⟨store, registry, _, s, hstore, hplain, hdistinct, hmodule, hhandled, htwice.trans ?_⟩
    have hhead : IsHead ("def " ++ writerName "wood.tree" ++ "(data, output)") := by
      have hsuffix : isPlain (functionSuffix "wood.tree") = true := by decide +kernel
      simpa only [writerName, String.append_assoc] using isHead_of_writer hsuffix
    exact (count_pastedFirst_le hok).trans (count_reader_le a false hhead)

end AvroCodec
