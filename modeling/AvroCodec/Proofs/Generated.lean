import AvroCodec.Proofs.Begun
import AvroCodec.Proofs.Compiled
import AvroCodec.Proofs.Legible
import AvroCodec.Proofs.Twice

/-!
# The code of a codec

All code of a codec comes from steps of the generator: that of its own writer from the schema, and that of
the functions of recursive types from their definitions. In a consistent store, code that was generated for
one definition is a copy of any other code that was.
-/

namespace AvroCodec

open Code Encoder Schema Recursion

/-- Fails unless the types whose routines have been begun have dotted names, as all definitions have. -/
def Gen.checkHandled : Gen Unit := do
  let s ← get
  if s.handled.all hasDot then return () else throw .wrongShape

/-- Generating code with at most so many steps inside one another, where before and after each of them the
types whose routines have been begun are checked. -/
def Recursion.checked : Nat → Recursion := visited Gen.checkHandled

namespace Setting

/-- Code that writes was generated at a place for a type, or for one that is alike. Of the recursive types that
had been met then `known` holds. -/
def Encodes (σ : Setting) (known : String → Prop) (d : Json) (p : Place) (a : Encoder) : Prop :=
  ∃ d' steps s t, d.Alike d' ∧ (checked steps).encode d' p σ s = (.ok a, t) ∧ ∀ name ∈ t.handled, known name

def Decodes (σ : Setting) (known : String → Prop) (d : Json) (p : Place) (a : Decoder) : Prop :=
  ∃ d' steps s t, d.Alike d' ∧ (checked steps).decode d' p σ s = (.ok a, t) ∧ ∀ name ∈ t.handled, known name

variable {σ : Setting} {known known' : String → Prop} {d : Json} {p : Place}

theorem Encodes.imp {a : Encoder} (h : σ.Encodes known d p a) (hle : known ≤ known') : σ.Encodes known' d p a := by
  obtain ⟨d', steps, s, t, hd, hrun, hknown⟩ := h
  exact ⟨d', steps, s, t, hd, hrun, fun name hname => hle name (hknown name hname)⟩

theorem Decodes.imp {a : Decoder} (h : σ.Decodes known d p a) (hle : known ≤ known') : σ.Decodes known' d p a := by
  obtain ⟨d', steps, s, t, hd, hrun, hknown⟩ := h
  exact ⟨d', steps, s, t, hd, hrun, fun name hname => hle name (hknown name hname)⟩

end Setting

namespace Gen

variable {σ : Setting} {s t : Generator}

theorem checkHandled_run (σ : Setting) (s : Generator) : checkHandled σ s =
    if s.handled.all hasDot then (.ok (), s) else (.error .wrongShape, s) := by
  change (if s.handled.all hasDot then pure () else throw .wrongShape : Gen Unit) σ s = _
  split_ifs <;> rfl

theorem checkHandled_eq_ok : checkHandled σ s = (.ok (), t) ↔
    t = s ∧ ∀ name ∈ s.handled, hasDot name = true := by
  rw [checkHandled_run]
  split_ifs with hall
  · constructor
    · intro h
      cases h
      exact ⟨rfl, List.all_eq_true.1 hall⟩
    · rintro ⟨rfl, -⟩
      rfl
  · constructor
    · intro h
      cases h
    · exact fun h => absurd (List.all_eq_true.2 h.2) hall

theorem exists_of_visiting {α : Type} {x : Gen α} {a : α} (h : visiting checkHandled x σ s = (.ok a, t)) :
    (∀ name ∈ s.handled, hasDot name = true) ∧ ∃ s', x σ s = (.ok a, s') := by
  simp only [visiting, bind_eq_ok, pure_eq_ok] at h
  obtain ⟨_, s₁, hcheck, a', s₂, ha, _, s₃, -, rfl, -⟩ := h
  obtain ⟨rfl, hhandled⟩ := checkHandled_eq_ok.1 hcheck
  exact ⟨hhandled, s₂, ha⟩

theorem loads_or_mem_of_meet {r : Recursion} {name : String} {u : Unit} (h : meet r name σ s = (.ok u, t)) :
    (∃ x, σ.store.Loads name x) ∨ name ∈ s.handled := by
  simp only [meet, bind_eq_ok, get_eq_ok] at h
  obtain ⟨_, _, ⟨rfl, rfl⟩, h⟩ := h
  split_ifs at h with hnew
  · simp only [handle, bind_eq_ok] at h
    obtain ⟨_, _, -, x, _, hx, -⟩ := h
    exact .inl ⟨x, loads_of_load hx⟩
  · rw [Bool.not_eq_true', Bool.not_eq_false, List.contains_eq_mem, decide_eq_true_eq] at hnew
    exact .inr hnew

end Gen

namespace Store

open Gen

variable {schemata : Schemata} {store : Store} {g g' : Schema.Registry} {extended : Bool}
  {d d' : Json} {name : String} (h : Store.build schemata g = (.ok store, g'))
include h

theorem Loads.hasDot {x : Json} (hx : store.Loads name x) : hasDot name = true := by
  obtain ⟨context, q, q', hload⟩ := hx
  exact hasDot_of_load hload h

/-- Nothing is done for `null`, even if the name is taken for that of a recursive type: there is no definition
that a routine could be made from. -/
theorem encode_null {steps : Nat} {p : Place} {s t : Generator} {a : Encoder}
    (ha : (checked steps).encode (.str "null") p ⟨store, extended⟩ s = (.ok a, t)) : a = .null := by
  have hdotted : ¬hasDot "null" = true := by decide
  cases steps with
  | zero => exact (throw_eq_ok.1 ha).elim
  | succ steps =>
    obtain ⟨hhandled, s₁, ha⟩ := exists_of_visiting ha
    have hstep : (if store.isCycleStarting "null" && !isBasic "null" then
        (do meet (checked steps) "null"; return .recur "null" p)
      else encodeType (checked steps) "null" p : Gen Encoder) ⟨store, extended⟩ s = (.ok a, s₁) := ha
    split_ifs at hstep with hflag
    · rw [Gen.bind_eq_ok] at hstep
      obtain ⟨_, s₂, hmeet, -⟩ := hstep
      rcases loads_or_mem_of_meet hmeet with ⟨x, hx⟩ | hmem
      · exact absurd (hx.hasDot h) hdotted
      · exact absurd (hhandled "null" hmem) hdotted
    · cases hstep
      rfl

variable (hc : store.Consistent)
include hc

theorem pairs_checked (steps steps' : Nat) (p q : Place) (halike : d.Alike d') :
    Pairs ⟨store, extended⟩ ((checked steps).encode d p) ((checked steps').encode d' q)
      (Copied p q) := by
  induction steps generalizing steps' d d' p q with
  | zero => exact Pairs.throw _
  | succ steps ih =>
    cases steps' with
    | zero => exact Pairs.throw_right _
    | succ steps' =>
      exact Pairs.visiting (pairs_encodeStep h hc (fun p q hd => ih steps' p q hd) (fun p q hd => ih steps p q hd)
        (encode_null h) halike p q)

theorem copied_of_encodes {p q : Place} {a b : Encoder} {known known' : String → Prop}
    (ha : Setting.Encodes ⟨store, extended⟩ known d p a) (hb : Setting.Encodes ⟨store, extended⟩ known' d' q b)
    (halike : d.Alike d') : Copied p q a b := by
  obtain ⟨x, steps, s, t, hx, hrun, -⟩ := ha
  obtain ⟨y, steps', s', t', hy, hrun', -⟩ := hb
  exact pairs_checked h hc steps steps' p q (hx.symm.trans (halike.trans hy)) hrun hrun'

end Store

namespace Parallel

variable {W α β : Type} [Preorder W] {R : Parallel W} {σ : Setting} {w : W} {x : Gen α} {y : Gen β}
  {Q : W → α → β → Prop}

theorem Follows.with_run (h : R.Follows σ w x y Q) : R.Follows σ w x y fun w a b =>
    Q w a b ∧ ∃ s t s' t', x σ s = (.ok a, t) ∧ y σ s' = (.ok b, t') ∧ R.Aligned w t t' := by
  intro s s' hs
  have hxy := h s s' hs
  rcases hx : x σ s with ⟨e | a, t⟩ <;> rcases hy : y σ s' with ⟨e' | b, t'⟩ <;> simp only [hx, hy] at hxy ⊢
  · exact hxy
  · exact hxy
  · exact hxy
  · obtain ⟨w', hw', ht, hab⟩ := hxy
    exact ⟨w', hw', ht, hab, s, t, s', t', hx, hy, ht⟩

end Parallel

/-! ### Code that calls -/

namespace Code

def Encoder.Knows (known : String → Prop) (a : Encoder) : Prop := ∀ name ∈ a.calls, known name

def Decoder.Knows (known : String → Prop) (a : Decoder) : Prop := ∀ name ∈ a.calls, known name

theorem Encoder.knows_filledFrom {known : String → Prop} {d : Json} {p : Place} {a : Encoder} (h : a.Knows known) :
    (Gen.filledFrom d p a).Knows known := by
  unfold Gen.filledFrom
  split <;> exact h

end Code

namespace Store

open Gen

variable {store : Store} {extended : Bool}

/-- A routine whose code was generated from a definition of a name. -/
def Drafted (store : Store) (extended : Bool) (name : String) (routine : Routine) : Prop :=
  ∃ x, store.Loads name x ∧
    (∃ steps s t, (upTo steps).encode (normal x) (.of "data") ⟨store, extended⟩ s =
      (.ok routine.writer, t)) ∧
    ∃ steps s t, (upTo steps).decode (normal x) (.of "data") ⟨store, extended⟩ s =
      (.ok routine.reader, t)

/-- A routine whose code was generated for a definition of a name, and calls what is known. -/
structure Coded (store : Store) (extended : Bool) (known : String → Prop) (name : String) (routine : Routine) :
    Prop where
  exists_schema : ∃ x, store.Loads name x ∧
    Setting.Encodes ⟨store, extended⟩ known (normal x) (.of "data") routine.writer ∧
    Setting.Decodes ⟨store, extended⟩ known (normal x) (.of "data") routine.reader
  drafted : store.Drafted extended name routine
  writer : routine.writer.Knows known
  reader : routine.reader.Knows known

theorem Coded.imp {known known' : String → Prop} {name : String} {routine : Routine}
    (h : store.Coded extended known name routine) (hle : known ≤ known') :
    store.Coded extended known' name routine := by
  obtain ⟨x, hx, hwriter, hreader⟩ := h.exists_schema
  exact ⟨⟨x, hx, hwriter.imp hle, hreader.imp hle⟩, h.drafted, fun c hc => hle c (h.writer c hc),
    fun c hc => hle c (h.reader c hc)⟩

/-- The functions of recursive types that have been met, but for those that are pending. -/
structure Tabled (store : Store) (extended : Bool) (pending handled : List String) (table : List (String × Routine)) :
    Prop extends store.Begun pending handled table where
  dotted : ∀ name ∈ handled, hasDot name = true
  made : ∀ name ∈ handled, name ∈ pending ∨
    ∃ routine, (functionSuffix name, routine) ∈ table ∧ store.Coded extended (· ∈ handled) name routine
  coded : ∀ f ∈ table, ∃ name ∈ handled, functionSuffix name = f.1 ∧ store.Coded extended (· ∈ handled) name f.2

namespace Tabled

variable {name : String} {pending handled : List String} {table : List (String × Routine)}

theorem start : store.Tabled extended [] [] [] :=
  ⟨.start, fun _ h => absurd h List.not_mem_nil, fun _ h => absurd h List.not_mem_nil,
    fun _ h => absurd h List.not_mem_nil⟩

theorem meet (h : store.Tabled extended pending handled table) (hflag : store.isCycleStarting name = true)
    (hname : hasDot name = true) (hnew : name ∉ handled) :
    store.Tabled extended (name :: pending) (handled ++ [name]) table := by
  have hle : ∀ a, a ∈ handled → a ∈ handled ++ [name] := fun a ha => List.mem_append_left _ ha
  refine ⟨h.toBegun.meet hflag hnew, ?_, ?_, ?_⟩
  · intro a ha
    rcases List.mem_append.1 ha with ha | ha
    · exact h.dotted a ha
    · exact List.mem_singleton.1 ha ▸ hname
  · intro a ha
    rcases List.mem_append.1 ha with ha | ha
    · refine (h.made a ha).imp (List.mem_cons_of_mem _) ?_
      rintro ⟨routine, hmem, hcoded⟩
      exact ⟨routine, hmem, hcoded.imp hle⟩
    · exact .inl (List.mem_singleton.1 ha ▸ List.mem_cons_self)
  · intro f hf
    obtain ⟨a, ha, hsuffix, hcoded⟩ := h.coded f hf
    exact ⟨a, hle a ha, hsuffix, hcoded.imp hle⟩

theorem make {routine : Routine} (h : store.Tabled extended (name :: pending) handled table)
    (hcoded : store.Coded extended (· ∈ handled) name routine) :
    store.Tabled extended pending handled ((functionSuffix name, routine) :: table) := by
  refine ⟨h.toBegun.make routine, h.dotted, ?_, ?_⟩
  · intro a ha
    rcases h.made a ha with hpending | ⟨other, hmem, hother⟩
    · rcases List.mem_cons.1 hpending with rfl | hpending
      · exact .inr ⟨routine, List.mem_cons_self, hcoded⟩
      · exact .inl hpending
    · exact .inr ⟨other, List.mem_cons_of_mem _ hmem, hother⟩
  · intro f hf
    rcases List.mem_cons.1 hf with rfl | hf
    · exact ⟨name, h.met name List.mem_cons_self, rfl, hcoded⟩
    · exact h.coded f hf

end Tabled

/-- What is said of code that writes, and of code that reads, while types are met. -/
structure Report where
  encoder : (String → Prop) → Json → Place → Encoder → Prop
  decoder : (String → Prop) → Json → Place → Decoder → Prop

namespace Report

def calls : Report := ⟨fun known _ _ a => a.Knows known, fun known _ _ a => a.Knows known⟩

def generated (σ : Setting) : Report :=
  ⟨fun known d p a => a.Knows known ∧ σ.Encodes known d p a ∧ ∃ n s t, (upTo n).encode d p σ s = (.ok a, t),
    fun known d p a => a.Knows known ∧ σ.Decodes known d p a ∧ ∃ n s t, (upTo n).decode d p σ s = (.ok a, t)⟩

end Report

/-- A run with some routines pending, in which functions are generated for the definitions of types. -/
def coding (store : Store) (extended : Bool) (report : Report) (pending : List String) : Parallel (String → Prop) where
  terms :=
    { first := fun _ _ => False
      second := fun _ _ => False
      both := fun _ _ _ _ => True }
  contexts c c' := c = c'
  line _ := True
  held known handled helpers := known = (· ∈ handled) ∧
    store.Tabled extended pending handled (Routine.helperFunctions helpers)
  met known name := known name
  guard _ := True
  encoder := report.encoder
  decoder := report.decoder

section Coding

variable {pending : List String} {report report' : Report} {known : String → Prop} {α β : Type} {x : Gen α} {y : Gen β}
  {Q : (String → Prop) → α → β → Prop}

variable {s s' : Generator}

theorem coding_single : (store.coding extended report pending).Single := ⟨fun _ _ _ _ => trivial, Iff.rfl⟩

theorem aligned_coding (h : (store.coding extended report pending).Aligned known s s') :
    (store.coding extended report' pending).Aligned known s s' :=
  ⟨h.contexts, h.core, h.lines, h.held⟩

theorem follows_coding (h : (store.coding extended report pending).Follows ⟨store, extended⟩ known x y Q) :
    (store.coding extended report' pending).Follows ⟨store, extended⟩ known x y Q := by
  refine Compares.mono h (fun _ _ => aligned_coding) ?_
  rintro a t b t' ⟨w', hw', ht, hab⟩
  exact ⟨w', hw', aligned_coding ht, hab⟩

theorem handled_of_aligned (h : (store.coding extended report pending).Aligned known s s') :
    known = (· ∈ s'.handled) ∧ ∀ name ∈ s'.handled, hasDot name = true := by
  have hhandled : s.handled = s'.handled := h.congr fun _ => rfl
  exact hhandled ▸ ⟨h.held.1, h.held.2.dotted⟩

theorem checkHandled_of_aligned (h : (store.coding extended report pending).Aligned known s s') :
    checkHandled ⟨store, extended⟩ s' = (.ok (), s') :=
  checkHandled_eq_ok.2 ⟨rfl, (handled_of_aligned h).2⟩

theorem calls_encoderRules :
    (store.coding extended .calls pending).EncoderRules ⟨store, extended⟩ fun _ => True where
  mono hle h c hc := hle c (h c hc)
  null _ _ h := absurd h List.not_mem_nil
  primitive _ _ _ h := absurd h List.not_mem_nil
  recur _ _ hmet _ h := List.mem_singleton.1 h ▸ hmet
  loaded _ _ _ h := h
  reference _ _ _ _ h := h
  logical _ _ _ _ h := absurd h List.not_mem_nil
  fields _ h c hc := by
    obtain ⟨a, ha, hc⟩ := Encoder.mem_callsParts.1 hc
    obtain ⟨d, -, hd⟩ := exists_mem_of_forall₂ h ha
    exact hd c hc
  array _ _ h := h
  enum _ _ _ h := absurd h List.not_mem_nil
  map _ _ h := h
  union _ h c hc := by
    obtain ⟨b, hb, hc⟩ := Encoder.mem_callsBranches.1 hc
    obtain ⟨type, -, tag, -, -, htagged, hplain⟩ := (h b hb).exists_type
    exact hc.elim (htagged c) (hplain c)
  unionField _ _ _ h c hc := by
    obtain ⟨b, hb, hc⟩ := Encoder.mem_callsBranches.1 hc
    obtain ⟨type, -, tag, -, -, htagged, hplain⟩ := (h b hb).exists_type
    exact hc.elim (htagged c) (hplain c)
  nested _ _ _ h := Encoder.knows_filledFrom h
  basic _ _ _ := Encoder.knows_filledFrom fun _ h => absurd h List.not_mem_nil

theorem calls_decoderRules :
    (store.coding extended .calls pending).DecoderRules ⟨store, extended⟩ fun _ => True where
  mono hle h c hc := hle c (h c hc)
  null _ _ h := absurd h List.not_mem_nil
  primitive _ _ h := absurd h List.not_mem_nil
  fixed _ _ _ _ h := absurd h List.not_mem_nil
  basic _ _ _ _ h := absurd h List.not_mem_nil
  recur _ _ hmet _ h := List.mem_singleton.1 h ▸ hmet
  loaded _ _ h := h
  reference _ _ _ _ h := h
  logical _ _ _ _ h := absurd h List.not_mem_nil
  record _ _ _ h c hc := by
    obtain ⟨a, ha, hc⟩ := Decoder.mem_callsParts.1 hc
    obtain ⟨d, -, hd⟩ := exists_mem_of_forall₂ h ha
    exact hd c hc
  array _ _ h := h
  enum _ _ _ h := absurd h List.not_mem_nil
  map _ _ h := h
  union _ h c hc := by
    obtain ⟨a, ha, hc⟩ := Decoder.mem_callsCases.1 hc
    obtain ⟨d, -, -, hd⟩ := exists_mem_of_forall₂ h ha
    exact hd c hc
  unionField _ _ _ h c hc := by
    obtain ⟨a, ha, hc⟩ := Decoder.mem_callsCases.1 hc
    obtain ⟨d, -, -, hd⟩ := exists_mem_of_forall₂ h ha
    exact hd c hc
  nested _ _ _ _ h := h

theorem coding_guardRules :
    (store.coding extended report pending).GuardRules ⟨store, extended⟩ fun _ _ => True where
  null := trivial
  value _ := trivial
  object _ _ := trivial
  load {_ _ name} _ _ := (coding_single.follows_load name).imp fun _ x _ _ h => ⟨h.1 ▸ .refl x, trivial⟩
  exhausted _ _ := trivial

theorem generated_mono {known known' : String → Prop} {d : Json} {p : Place} {σ : Setting} (hle : known ≤ known') :
    (∀ {a}, (Report.generated σ).encoder known d p a → (Report.generated σ).encoder known' d p a) ∧
      ∀ {a}, (Report.generated σ).decoder known d p a → (Report.generated σ).decoder known' d p a :=
  ⟨fun h => ⟨fun c hc => hle c (h.1 c hc), h.2.1.imp hle, h.2.2⟩,
    fun h => ⟨fun c hc => hle c (h.1 c hc), h.2.1.imp hle, h.2.2⟩⟩

variable {schemata : Schemata} {g g' : Schema.Registry} {name : String}
  (h : Store.build schemata g = (.ok store, g'))
include h

/-- Meeting a recursive type, if making its routine follows. -/
theorem follows_meet_coding {r r' : Recursion} (hflag : store.isCycleStarting name = true)
    (hm : ∀ pending, (store.coding extended (.generated ⟨store, extended⟩) pending).Matches ⟨store, extended⟩
      (fun _ => True) r r') :
    (store.coding extended (.generated ⟨store, extended⟩) pending).Follows ⟨store, extended⟩ known (meet r name)
      (meet r' name) fun known _ _ => known name := by
  have hdraft : ∀ {known pending}, (store.coding extended (.generated ⟨store, extended⟩) pending).Follows
      ⟨store, extended⟩ known (Gen.load name >>= draft r) (Gen.load name >>= draft r') fun known m m' => m = m' ∧
        (store.coding extended (.generated ⟨store, extended⟩) pending).Fits
          (fun y => ∃ x, store.Loads name x ∧ y = normal x) known m := by
    intro known pending
    refine (coding_single.follows_load name).bind ?_
    rintro _ x _ - ⟨rfl, hx⟩
    refine Parallel.follows_draft (hm pending) (fun hle => (generated_mono hle).1) (fun hle => (generated_mono hle).2)
      (fun _ => trivial) fun q q' => ?_
    refine (coding_single.outcomes_parseOpen _ q q').imp ?_
    rintro y _ ⟨rfl, rfl⟩
    exact ⟨.refl _, x, hx, rfl⟩
  by_cases hname : hasDot name = true
  · refine Parallel.follows_meet (store.coding extended (.generated ⟨store, extended⟩) (name :: pending)).held
      (fun y => ∃ x, store.Loads name x ∧ y = normal x) ?_ ?_ (fun _ _ => hdraft) ?_
    · rintro handled helpers ⟨rfl, -⟩ hmem
      exact hmem
    · rintro handled helpers ⟨rfl, htabled⟩ hnew
      exact ⟨_, fun a ha => List.mem_append_left _ ha, rfl, htabled.meet hflag hname hnew⟩
    · rintro known m handled helpers - hfits ⟨rfl, htabled⟩
      obtain ⟨_, ⟨x, hx, rfl⟩, hwriter, hreader⟩ := hfits.exists_schema
      refine ⟨⟨rfl, ?_⟩, htabled.met name List.mem_cons_self⟩
      rw [Routine.helperFunctions, Routine.helperFunctions, List.append_nil]
      exact htabled.make ⟨⟨x, hx, hwriter.2.1, hreader.2.1⟩, ⟨x, hx, hwriter.2.2, hreader.2.2⟩, hwriter.1, hreader.1⟩
  · -- The name is noted, and then no definition is found.
    have habsent : ∀ {x}, ¬store.Loads name x := fun hx => hname (hx.hasDot h)
    refine Parallel.follows_meet (fun _ _ _ => True) (fun y => ∃ x, store.Loads name x ∧ y = normal x) ?_
      (fun _ _ => ⟨_, le_rfl, trivial⟩) (fun _ _ => ?_) ?_
    · rintro handled helpers ⟨rfl, -⟩ hmem
      exact hmem
    · have hsingle : ((store.coding extended (.generated ⟨store, extended⟩) pending).holding
        fun _ _ _ => True).Single :=
        ⟨fun _ _ _ _ => trivial, Iff.rfl⟩
      exact (hsingle.follows_load name).bind fun _ _ _ _ hxy => absurd hxy.2 habsent
    · intro _ m _ _ _ hfits _
      obtain ⟨_, ⟨x, hx, -⟩, -⟩ := hfits.exists_schema
      exact absurd hx habsent

/-- Every step of a run generates code. -/
theorem matches_coding (steps : Nat) (pending : List String) :
    (store.coding extended (.generated ⟨store, extended⟩) pending).Matches ⟨store, extended⟩ (fun _ => True)
      (.upTo steps) (.checked steps) := by
  induction steps generalizing pending with
  | zero => exact ⟨fun _ _ => Tracks.throw fun _ _ _ => trivial, fun _ _ => Tracks.throw fun _ _ _ => trivial⟩
  | succ steps ih =>
    have hp : (store.coding extended .calls pending).Premises ⟨store, extended⟩ (fun _ => True) (fun _ => True)
        (.upTo steps) (.checked steps) :=
      { lenient := coding_single.lenient
        contexts := fun _ => rfl
        dotted := hasDot_of_contains h
        parts := fun _ _ => trivial
        load := fun {_ _ name} _ _ _ => (coding_single.follows_load name).imp fun _ x _ _ h =>
          ⟨h.1 ▸ .refl x, h.2, fun _ => trivial⟩
        meet := fun _ _ hflag => follows_coding (follows_meet_coding h hflag ih)
        guard := fun _ => Parallel.follows_guardOf coding_single.lenient coding_guardRules trivial
        line := fun _ => trivial
        inner :=
          { encode := fun hd halike =>
              (follows_coding ((ih pending).encode hd halike)).imp fun _ _ _ _ h => ⟨h.1, h.2.1⟩
            decode := fun hd halike =>
              (follows_coding ((ih pending).decode hd halike)).imp fun _ _ _ _ h => ⟨h.1, h.2.1⟩ } }
    have hnext := Parallel.Matches.next (fun _ => True) hp calls_encoderRules calls_decoderRules
    constructor
    · intro known d d' p hd halike
      have hrun := (Parallel.follows_visiting checkHandled_of_aligned
        (hnext.encode (w := known) (p := p) hd halike)).with_run
      refine (follows_coding hrun).imp ?_
      rintro known' a _ - ⟨⟨rfl, hcalls⟩, s, t, s', t', hst, hst', ht⟩
      obtain ⟨rfl, -⟩ := handled_of_aligned ht
      exact ⟨rfl, hcalls, ⟨d', steps + 1, s', t', halike, hst', fun _ hname => hname⟩, steps + 1, s, t, hst⟩
    · intro known d d' p hd halike
      have hrun := (Parallel.follows_visiting checkHandled_of_aligned
        (hnext.decode (w := known) (p := p) hd halike)).with_run
      refine (follows_coding hrun).imp ?_
      rintro known' a _ - ⟨⟨rfl, hcalls⟩, s, t, s', t', hst, hst', ht⟩
      obtain ⟨rfl, -⟩ := handled_of_aligned ht
      exact ⟨rfl, hcalls, ⟨d', steps + 1, s', t', halike, hst', fun _ hname => hname⟩, steps + 1, s, t, hst⟩

/-- The code of a routine, and of the functions that it calls. -/
theorem coded_of_routine {steps : Nat} {d : Json} {t : Generator} {a : Routine}
    (hrun : Gen.routine (.upTo steps) d ⟨store, extended⟩ s = (.ok a, t)) (hhandled : s.handled = [])
    (hhelpers : s.helpers = []) :
    store.Tabled extended [] t.handled a.functions ∧
      (a.writer.Knows (· ∈ t.handled) ∧ a.reader.Knows (· ∈ t.handled)) ∧
      ∀ {name}, store.Loads name d → store.Coded extended (· ∈ t.handled) name a := by
  have hdraft : (store.coding extended (.generated ⟨store, extended⟩) []).Follows ⟨store, extended⟩ (· ∈ [])
      (draft (.upTo steps) d) (draft (.checked steps) d) fun w m m' => m = m' ∧
        (store.coding extended (.generated ⟨store, extended⟩) []).Fits (· = normal d) w m := by
    refine Parallel.follows_draft (matches_coding h steps []) (fun hle => (generated_mono hle).1)
      (fun hle => (generated_mono hle).2) (fun _ => trivial) fun q q' => ?_
    refine (coding_single.outcomes_parseOpen d q q').imp ?_
    rintro y _ ⟨rfl, rfl⟩
    exact ⟨.refl _, rfl⟩
  have hstart : (store.coding extended (.generated ⟨store, extended⟩) []).Aligned (· ∈ []) s s := by
    refine ⟨rfl, rfl, fun _ _ => trivial, ?_⟩
    rw [hhandled, hhelpers]
    exact ⟨rfl, .start⟩
  have hself := Parallel.compares_routine hdraft s s hstart
  rw [hrun] at hself
  rcases hchecked : routine (.checked steps) d ⟨store, extended⟩ s with ⟨e | b, t'⟩ <;> rw [hchecked] at hself
  · exact hself.elim
  · obtain ⟨-, -, -, known, m, helpers, -, rfl, hfits, rfl, htabled⟩ := hself
    obtain ⟨_, rfl, hwriter, hreader⟩ := hfits.exists_schema
    refine ⟨htabled, ⟨hwriter.1, hreader.1⟩, fun hd => ?_⟩
    exact ⟨⟨d, hd, hwriter.2.1, hreader.2.1⟩, ⟨d, hd, hwriter.2.2, hreader.2.2⟩, hwriter.1, hreader.1⟩

end Coding

end Store

namespace Codec

variable {schemata : Schemata} {identifier : String} {codec : Codec} {store : Store}
  {registry : Schema.Registry}

/-- The code of a codec is generated for the definition of its schema, and that of its functions for the
definitions of recursive types. -/
theorem coded_of_build (hstore : Store.build schemata [] = (.ok store, registry))
    (hbuild : build schemata identifier = .ok codec) :
    ∃ handled, store.Coded false (· ∈ handled) identifier codec.routine ∧
      store.Tabled false [] handled codec.routine.functions := by
  obtain ⟨schema, registry', t, hschema, hmade⟩ := exists_routine_of_generate (build_eq_ok hstore hbuild).1
  obtain ⟨htabled, -, hcoded⟩ := Store.coded_of_routine hstore hmade rfl rfl
  exact ⟨t.handled, hcoded ⟨identifier, _, _, hschema⟩, htabled⟩

end Codec

end AvroCodec
