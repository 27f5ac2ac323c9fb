import AvroCodec.Proofs.Ending
import AvroCodec.Proofs.Halting
import AvroCodec.Proofs.Readable
import AvroCodec.Proofs.Visited

/-!
# Deserializing ends

The function of a recursive type may call that of another, or itself, before it has read anything: if the
definition is a name only, or if the type of a field is such a name. Anywhere else something is read before.
If no function comes back to itself in this way then reading ends, whatever the bytes are.
-/

namespace AvroCodec

open Code Schema

namespace Json

/-- The types inside a type that reading may begin with: those of a record's fields. -/
def leading : Json → List Json
  | .obj members =>
    match lookup "type" members with
    | some (.str "record") => fieldList members
    | some (.obj nested) => [.obj nested]
    | _ => []
  | _ => []

theorem leading_record {members : Members}
    (h : lookup "type" members = some (.str "record")) :
    leading (.obj members) = fieldList members := by
  simp only [leading, h]

theorem mem_leading_nested {d : Json} {inner : Members}
    (h : d.get? "type" = some (.obj inner)) : .obj inner ∈ d.leading := by
  cases d with
  | obj members =>
    rw [get?] at h
    rw [leading, h]
    exact List.mem_cons_self
  | _ => cases h

theorem mem_parts_of_mem_leading {d x : Json} (h : x ∈ d.leading) : x ∈ d.parts := by
  cases d with
  | obj members =>
    rw [leading] at h
    split at h
    next => exact mem_parts_fieldList h
    next inner htype =>
      rw [List.mem_singleton.1 h]
      exact mem_parts_type htype
    next => cases h
  | _ => cases h

theorem Alike.leading_eq {d d' : Json} (h : Alike d d') : d.leading = d'.leading := by
  refine h.congr (F := leading) fun ms ms' hms => ?_
  rw [leading, leading, fieldList, fieldList,
    lookup_eq_of_unmarkedMembers hms (show "type" ≠ parsedMark by decide),
    lookup_eq_of_unmarkedMembers hms (show "fields" ≠ parsedMark by decide)]

/-- The names that reading may begin with, down to a depth. -/
def openers : Nat → Json → List String
  | 0, _ => []
  | depth + 1, d => d.referred ++ d.leading.flatMap (openers depth)

end Json

namespace Store

variable {store : Store} {extended : Bool}

/-- Reading a value of a type may begin with a call of the function of a recursive type. -/
inductive Enters (store : Store) : Json → String → Prop
  | recursive {d : Json} {name : String} (hname : d.Refers name)
      (hflag : store.isCycleStarting name = true) : Enters store d name
  | loaded {d x : Json} {name callee : String} (hname : d.Refers name) (hx : store.Loads name x)
      (h : Enters store x callee) : Enters store d callee
  | inside {d x : Json} {callee : String} (hx : x ∈ d.leading) (h : Enters store x callee) :
      Enters store d callee

/-- The function of a recursive type, named as its functions are, may call that of another before it has
read anything. -/
def Hands (store : Store) (a b : String) : Prop :=
  ∃ name x callee, functionSuffix name = a ∧ store.isCycleStarting name = true ∧ store.Loads name x ∧
    store.Enters (normal x) callee ∧ functionSuffix callee = b

/-- A function that was made from a definition of a recursive type. -/
def Made (store : Store) (f : String × Routine) : Prop :=
  ∃ name x, functionSuffix name = f.1 ∧ store.isCycleStarting name = true ∧ store.Loads name x ∧
    ∀ callee ∈ f.2.reader.immediate, store.Enters (normal x) callee

/-- A run in which functions are made from definitions. -/
def making (store : Store) : Parallel Still where
  terms :=
    { first := fun _ _ => False
      second := fun _ _ => False
      both := fun _ _ _ _ => True }
  contexts c c' := c = c'
  line _ := True
  held _ _ helpers := ∀ f ∈ Routine.helperFunctions helpers, store.Made f
  met _ name := store.isCycleStarting name = true
  guard _ := True
  encoder _ _ _ _ := True
  decoder _ d _ a := ∀ callee ∈ a.immediate, store.Enters d callee

theorem making_single : store.making.Single := ⟨fun _ _ _ _ => trivial, Iff.rfl⟩

theorem enters_of_mem_parts {fields : List Json} {parts : List Decoder} {callee : String}
    (h : List.Forall₂ (fun x a => ∀ callee ∈ a.immediate, store.Enters x callee) fields parts)
    (hcallee : callee ∈ Decoder.immediateParts parts) : ∃ x ∈ fields, store.Enters x callee := by
  induction h with
  | nil => cases hcallee
  | cons hx _ ih =>
    rcases List.mem_append.1 hcallee with hcallee | hcallee
    · exact ⟨_, List.mem_cons_self, hx callee hcallee⟩
    · obtain ⟨x, hx, hcall⟩ := ih hcallee
      exact ⟨x, List.mem_cons_of_mem _ hx, hcall⟩

theorem making_decoderRules :
    store.making.DecoderRules ⟨store, extended⟩ fun _ => True where
  mono _ h := h
  null _ _ h := absurd h List.not_mem_nil
  primitive _ _ h := absurd h List.not_mem_nil
  fixed _ _ _ _ h := absurd h List.not_mem_nil
  basic _ _ _ _ h := absurd h List.not_mem_nil
  recur _ hname hflag callee hcallee := List.mem_singleton.1 hcallee ▸ .recursive hname hflag
  loaded _ hx h callee hcallee := .loaded (.inl rfl) hx (h callee hcallee)
  reference _ htype _ hx h callee hcallee := .loaded (.inr htype) hx (h callee hcallee)
  logical _ _ _ _ h := absurd h List.not_mem_nil
  record _ _ htype h callee hcallee := by
    obtain ⟨x, hx, hcall⟩ := enters_of_mem_parts h hcallee
    exact .inside (Json.leading_record htype ▸ hx) hcall
  array _ _ _ _ h := absurd h List.not_mem_nil
  enum _ _ _ h := absurd h List.not_mem_nil
  map _ _ _ _ h := absurd h List.not_mem_nil
  union _ _ _ h := absurd h List.not_mem_nil
  unionField _ _ _ _ _ h := absurd h List.not_mem_nil
  nested _ _ htype _ h callee hcallee := .inside (Json.mem_leading_nested htype) (h callee hcallee)

theorem making_encoderRules : store.making.EncoderRules ⟨store, extended⟩ fun _ => True := by
  constructor <;> intros <;> trivial

theorem making_rules : store.making.SingleRules ⟨store, extended⟩ fun _ => True where
  toSingle := making_single
  parts _ _ := trivial
  loads _ _ _ := trivial
  line _ := trivial
  guardNull := trivial
  guardValue _ := trivial
  guardObject _ _ := trivial
  encoder := making_encoderRules
  decoder := making_decoderRules
  meet {_ _ name _ _} hm _ _ hflag := by
    refine Parallel.follows_meet store.making.held
      (fun y => ∃ x, store.Loads name x ∧ y = normal x) (fun _ _ => hflag)
      (fun hheld _ => ⟨.still, le_rfl, hheld⟩) (fun _ _ => ?_) ?_
    · exact making_single.follows_load_draft hm making_encoderRules making_decoderRules fun _ => trivial
    · intro _ m handled helpers _ hfits hheld
      obtain ⟨_, ⟨x, hx, rfl⟩, -, hreader⟩ := hfits.exists_schema
      refine ⟨fun f hf => ?_, hflag⟩
      rw [Routine.helperFunctions, Routine.helperFunctions, List.append_nil] at hf
      rcases List.mem_cons.1 hf with rfl | hf
      · exact ⟨name, x, rfl, hflag, hx, hreader⟩
      · exact hheld f hf

section Making

variable {schemata : Schemata} {r r' : Schema.Registry} {extended : Bool}
  (h : Store.build schemata r = (.ok store, r'))
include h

theorem matches_making (steps : Nat) :
    store.making.Matches ⟨store, extended⟩ (fun _ => True) (.upTo steps) (.upTo steps) := by
  have hvisited := making_rules.matches_visited (σ := ⟨store, extended⟩) (pure ()) (hasDot_of_contains h)
    (fun _ => rfl) steps
  rwa [Recursion.visited_pure] at hvisited

theorem made_of_routine {steps : Nat} {d : Json} {s t : Generator} {a : Routine}
    (hrun : Gen.routine (.upTo steps) d ⟨store, extended⟩ s = (.ok a, t)) (hs : s.helpers = []) :
    ∀ f ∈ a.functions, store.Made f := by
  have hdraft := making_single.follows_draft (σ := ⟨store, extended⟩) (w := .still) (X := fun _ => True) (d := d)
    (matches_making h steps) making_encoderRules making_decoderRules id trivial
  have hstart : store.making.Aligned .still s s := by
    refine ⟨rfl, rfl, fun _ _ => trivial, ?_⟩
    rw [hs]
    exact fun _ hf => absurd hf List.not_mem_nil
  have hself := Parallel.compares_routine hdraft s s hstart
  rw [hrun] at hself
  obtain ⟨-, -, -, _, m, helpers, -, rfl, -, hheld⟩ := hself
  exact hheld

end Making

section Openers

variable {schemata : Schemata} {r r' : Schema.Registry} (h : Store.build schemata r = (.ok store, r'))
  (hc : store.Consistent) {callee : String}
include h hc

/-- Reading begins with no call if no name that it may begin with is stored, or that of a recursive type. -/
theorem not_enters_of_openers {depth : Nat} {d : Json} (hdepth : d.depth < depth) (hopeners : ∀ name ∈ d.openers depth,
      (store.isCycleStarting name || store.contains name) = false) : ¬store.Enters d callee := by
  simp only [Bool.or_eq_false_iff] at hopeners
  intro henters
  induction henters generalizing depth with
  | recursive hname hflag =>
    cases depth with
    | zero => exact absurd hdepth (Nat.not_lt_zero _)
    | succ depth =>
      rw [(hopeners _ (List.mem_append_left _ hname.mem_referred)).1] at hflag
      cases hflag
  | loaded hname hx _ _ =>
    cases depth with
    | zero => exact absurd hdepth (Nat.not_lt_zero _)
    | succ depth =>
      obtain ⟨e, he, -⟩ := hx.exists_lookup h hc
      have hfalse := (hopeners _ (List.mem_append_left _ hname.mem_referred)).2
      rw [contains, he] at hfalse
      cases hfalse
  | inside hx _ ih =>
    cases depth with
    | zero => exact absurd hdepth (Nat.not_lt_zero _)
    | succ depth =>
      have hlt := Json.depth_lt_of_mem_parts (Json.mem_parts_of_mem_leading hx)
      refine ih (Nat.lt_of_lt_of_le hlt (Nat.le_of_lt_succ hdepth)) fun name hname => ?_
      exact hopeners name (List.mem_append_right _ (List.mem_flatMap.2 ⟨_, hx, hname⟩))

omit h hc in
theorem Enters.alike {d d' : Json} (henters : store.Enters d callee)
    (halike : d.Alike d') : store.Enters d' callee := by
  cases henters with
  | recursive hname hflag => exact .recursive (halike.refers hname) hflag
  | loaded hname hx henters => exact .loaded (halike.refers hname) hx henters
  | inside hx henters => exact .inside (halike.leading_eq ▸ hx) henters

theorem Hands.exists_lookup {a b : String} (hands : store.Hands a b) : ∃ name d callee,
    functionSuffix name = a ∧ store.isCycleStarting name = true ∧
      Json.lookup name store.database = some d ∧ store.Enters d callee ∧ functionSuffix callee = b := by
  obtain ⟨name, x, callee, ha, hflag, hx, henters, hb⟩ := hands
  obtain ⟨d, hd, halike⟩ := hx.exists_lookup h hc
  obtain ⟨y, t, hy, hyx⟩ := ((hc.parsed hd).alike halike).exists_parseOpen []
  rw [parseOpen_eq hy] at hyx
  exact ⟨name, d, callee, ha, hflag, hd, henters.alike (hyx.trans halike.symm), hb⟩

end Openers

end Store

theorem CodecError.isRaised_or_eq {e : CodecError} (h : e ≠ .endless) : e.isRaised = true ∨ e = .unchecked := by
  cases e <;> simp_all [isRaised]

namespace Codec

variable {schemata : Schemata} {identifier : String} {codec : Codec} {store : Store}
  {registry : Schema.Registry}

theorem made_of_build (hstore : Store.build schemata [] = (.ok store, registry))
    (hbuild : build schemata identifier = .ok codec) : ∀ f ∈ codec.routine.functions, store.Made f := by
  obtain ⟨schema, registry', t, -, hmade⟩ := exists_routine_of_generate (build_eq_ok hstore hbuild).1
  exact Store.made_of_routine hstore hmade rfl

/-- Reading ends if no function of a recursive type comes back to itself before anything is read: with a value, with
something raised or where something is used that is not checked. The same comes out however many more calls are
followed. -/
theorem deserializing_ends (hstore : Store.build schemata [] = (.ok store, registry))
    (hbuild : build schemata identifier = .ok codec)
    (hhands : ∀ name, ¬Relation.TransGen store.Hands name name) (bytes : List UInt8) :
    ((∃ y, codec.deserialize bytes = .ok y) ∨
      ∃ e, codec.deserialize bytes = .error e ∧ (e.isRaised = true ∨ e = .unchecked)) ∧
      ∀ depth, codec.routine.readBound bytes ≤ depth →
        codec.routine.reader.apply (Routine.readCall codec.routine.functions depth) bytes =
          codec.deserializeFrom bytes := by
  have hmade := made_of_build hstore hbuild
  have hcalls : ∀ name, ¬Relation.TransGen (Routine.Hands codec.routine.functions) name name := by
    intro name hname
    refine hhands name (Relation.TransGen.mono ?_ name name hname)
    rintro a b ⟨r, hr, callee, hcallee, rfl⟩
    obtain ⟨name, x, hsuffix, hflag, hx, henters⟩ := hmade _ hr
    exact ⟨name, x, callee, hsuffix, hflag, hx, henters callee hcallee, rfl⟩
  have hends := fun depth (hdepth : codec.routine.readBound bytes ≤ depth) =>
    Routine.ends_read hcalls bytes hdepth
  refine ⟨?_, fun depth hdepth => (hends depth hdepth).eq.symm⟩
  have hne : codec.deserializeFrom bytes ≠ .error .endless := (hends _ (Nat.le_refl _)).ne_endless
  change (∃ y, (·.1) <$> codec.deserializeFrom bytes = .ok y) ∨
    ∃ e, (·.1) <$> codec.deserializeFrom bytes = .error e ∧ _
  cases hrun : codec.deserializeFrom bytes with
  | ok a => exact .inl ⟨a.1, rfl⟩
  | error e =>
    rw [hrun] at hne
    exact .inr ⟨e, rfl, CodecError.isRaised_or_eq fun he => hne (by rw [he])⟩

/-- The code for a chain of links ends with all bytes. -/
theorem deserializing_ends_chain : ∃ store registry codec,
    Store.build chainSchemata [] = (.ok store, registry) ∧ build chainSchemata "net.link" = .ok codec ∧
    (∀ name, ¬Relation.TransGen store.Hands name name) ∧ store.isCycleStarting "net.link" = true ∧
    ∀ bytes, (∃ y, codec.deserialize bytes = .ok y) ∨
      ∃ e, codec.deserialize bytes = .error e ∧ (e.isRaised = true ∨ e = .unchecked) := by
  obtain ⟨store, registry, hstore, hcheck, hflag, hopeners⟩ :=
    exists_store chainSchemata (fun store =>
      store.isConsistent = true ∧ store.isCycleStarting "net.link" = true ∧
      ∀ e ∈ store.database, ∀ name ∈ e.2.openers e.2.depth.succ,
        (store.isCycleStarting name || store.contains name) = false) (by decide +kernel)
  obtain ⟨codec, hbuild, -⟩ := exists_codec chainSchemata "net.link" (fun _ => True) (by decide +kernel)
  have hc := Store.consistent_of_isConsistent hcheck
  have hhands : ∀ a b, ¬store.Hands a b := by
    intro a b hands
    obtain ⟨name, d, callee, -, -, hd, henters, -⟩ := hands.exists_lookup hstore hc
    exact Store.not_enters_of_openers hstore hc (Nat.lt_succ_self _)
      (hopeners (name, d) (Json.mem_of_lookup hd)) henters
  have hcycle : ∀ name, ¬Relation.TransGen store.Hands name name := by
    intro name hname
    obtain ⟨b, hb, -⟩ := Relation.TransGen.head'_iff.1 hname
    exact hhands name b hb
  exact ⟨store, registry, codec, hstore, hbuild, hcycle, hflag,
    fun bytes => (deserializing_ends hstore hbuild hcycle bytes).1⟩

def fieldNames : Nat → Json → List String
  | 0, _ => []
  | depth + 1, d => (d.leading.flatMap Json.referred) ++ d.parts.flatMap (fieldNames depth)

def isEndless {α : Type} : Except CodecError α → Bool
  | .error .endless => true
  | _ => false

theorem eq_of_isEndless {α : Type} {o : Except CodecError α} (h : isEndless o = true) :
    o = .error .endless := by
  unfold isEndless at h
  split at h
  · rfl
  · cases h

def ringSchemata : Schemata :=
  [("net.hub", .record "net.hub" [
      .field "first" (.record "net.ring" [.field "next" (.arr [.str "null", .str "net.ring"])])]),
    ("net.ring", .str "net.ring")]

/-- A function may call itself without end although the type of no field is the name of a recursive type,
or one that is stored for such a name. -/
theorem ring_deserializing_endless : ∃ store registry codec,
    Store.build ringSchemata [] = (.ok store, registry) ∧ build ringSchemata "net.ring" = .ok codec ∧
    (∀ e ∈ store.database, ∀ name ∈ fieldNames e.2.depth.succ e.2,
      (store.isCycleStarting name || store.contains name) = false) ∧
    codec.deserialize [0] = .error .endless := by
  obtain ⟨store, registry, hstore, hnames⟩ := exists_store ringSchemata (fun store =>
    ∀ e ∈ store.database, ∀ name ∈ fieldNames e.2.depth.succ e.2,
      (store.isCycleStarting name || store.contains name) = false) (by decide +kernel)
  obtain ⟨codec, hbuild, hendless⟩ := exists_codec ringSchemata "net.ring"
    (fun codec => isEndless (codec.deserialize [0]) = true) (by decide +kernel)
  exact ⟨store, registry, codec, hstore, hbuild, hnames, eq_of_isEndless hendless⟩

end Codec

end AvroCodec
