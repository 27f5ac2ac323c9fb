import AvroCodec.Proofs.Compiled
import AvroCodec.Proofs.Scope
import AvroCodec.Proofs.Tracing
import AvroCodec.Proofs.Visited

/-!
# The variables of generated code

A generator never draws a variable twice, and it never forgets a recursive type that it has met. So all code
that writes keeps to its variables, and a codec writes what it would write without them.
-/

namespace AvroCodec

open Code

/-- The variables that code may have which is made from now on. All dictionaries have the same one. -/
def Counters.Free (c : Counters) (y : String) : Prop := c.Drawn y ∨ y = "datum"

/-- The code of a function, which keeps to its variables. -/
def Code.Encoder.Hygienic (e : Encoder) : Prop := ∃ V, ¬ V "data" ∧ e.Scoped V "data"

/-- What a generator has drawn and begun is kept, and the functions stay such that they keep to their variables. -/
structure Generator.Grows (s t : Generator) : Prop where
  counters : s.counters ≤ t.counters
  handled : s.handled ⊆ t.handled
  functions : (∀ f ∈ Routine.helperFunctions s.helpers, f.2.writer.Hygienic) →
    ∀ f ∈ Routine.helperFunctions t.helpers, f.2.writer.Hygienic

theorem Generator.Grows.refl (s : Generator) : s.Grows s := ⟨le_rfl, List.Subset.refl _, id⟩

theorem Generator.Grows.trans {s t u : Generator} (h : s.Grows t) (h' : t.Grows u) : s.Grows u :=
  ⟨h.counters.trans h'.counters, List.Subset.trans h.handled h'.handled, h'.functions ∘ h.functions⟩

/-- The two kinds of code that are generated for a schema. -/
inductive Mode where
  | write
  | read

def Mode.Code : Mode → Type
  | write => Encoder
  | read => Decoder

def Recursion.make (r : Recursion) : (mode : Mode) → Json → Place → Gen mode.Code
  | .write => r.encode
  | .read => r.decode

theorem Code.Place.IsIn.member {p : Place} {x : String} (h : p.IsIn x) (f : Json) : (p.member f).IsIn x := by
  refine ⟨h.root, ?_⟩
  simp only [Place.member, Variables.keyVariables_append, Variables.keyVariables, h.plain, List.append_nil]

theorem Code.Place.isIn_of (x : String) : (Place.of x).IsIn x := ⟨rfl, rfl⟩

namespace Gen

variable {σ : Setting} {r : Recursion} {s t : Generator} {α : Type} {name : String} {c c' : Counters}

theorem free_mono (h : c ≤ c') {y : String} (hy : c'.Free y) : c.Free y := hy.imp_left (drawn_mono h)

theorem not_free_data (c : Counters) : ¬ c.Free "data" := by
  rintro (h | h)
  · exact not_drawn_data c h
  · exact absurd h (by decide)

theorem free_of_draws {T : Generator → Generator → Prop} {hT : Kept T} {kind : String} {m n : Nat}
    (h : (tracing σ hT).Draws c c' kind m n) :
    c.Free (variableName kind m) ∧ ∀ y, c'.Free y → c.Free y ∧ y ≠ variableName kind m := by
  obtain ⟨hle, hdrawn, hfresh⟩ := drawn_of_draws h
  refine ⟨.inl hdrawn, fun y hy => ⟨free_mono hle hy, ?_⟩⟩
  rcases hy with hy | rfl
  · exact hfresh y hy
  · rintro heq
    exact not_drawn (by decide) c (heq ▸ hdrawn)

/-- What making the code of a routine comes down to. -/
theorem draft_eq_ok {d : Json} {m : Draft} : draft r d σ s = (.ok m, t) ↔
    ∃ x registry s₁ s₂, Schema.parseOpen d s.registry = (.ok x, registry) ∧
      r.encode x (.of "data") σ { s with ready := true, registry } = (.ok m.writer, s₁) ∧
      r.decode x (.of "data") σ { s₁ with declarations := [] } = (.ok m.reader, s₂) ∧
      m.writerDeclarations = s₁.declarations ∧ m.readerDeclarations = s₂.declarations ∧
      t = { s₂ with declarations := [] } := by
  constructor
  · intro h
    simp only [draft, bind_eq_ok, modify_eq_ok, pure_eq_ok] at h
    obtain ⟨_, _, rfl, x, s₁, hx, writer, s₂, hwriter, lines, s₃, htake, reader, s₄, hreader, lines', s₅, htake',
      rfl, rfl⟩ := h
    obtain ⟨registry, hparse, rfl⟩ := withRegistry_eq_ok hx
    cases htake
    cases htake'
    exact ⟨x, registry, s₂, s₄, hparse, hwriter, hreader, rfl, rfl, rfl⟩
  · rintro ⟨x, registry, s₁, s₂, hparse, hwriter, hreader, hlines, hlines', rfl⟩
    obtain ⟨_, _, _, _⟩ := m
    simp only at hwriter hreader hlines hlines'
    simp only [draft, bind_eq_ok, modify_eq_ok, pure_eq_ok]
    refine ⟨(), _, rfl, x, _, ?_, _, s₁, hwriter, s₁.declarations, _, rfl, _, s₂, hreader, s₂.declarations, _, rfl, ?_⟩
    · rw [Parallel.withRegistry_run, hparse]
    · rw [hlines, hlines']
      exact ⟨rfl, rfl⟩

theorem meet_of_mem (h : name ∈ s.handled) : meet r name σ s = (.ok (), s) := by
  change (if !s.handled.contains name then handle r name else pure () : Gen Unit) σ s = _
  rw [if_neg]
  · rfl
  · simpa using h

theorem meet_eq_ok {u : Unit} (hnew : name ∉ s.handled) : meet r name σ s = (.ok u, t) ↔
    ∃ x s₁ m s₂, load name σ { s with handled := s.handled ++ [name] } = (.ok x, s₁) ∧
      draft r x σ s₁ = (.ok m, s₂) ∧ t = { s₂ with helpers := [(name, m.complete s₂.helpers)] } := by
  have hmeet : meet r name σ s = handle r name σ s := by
    change (if !s.handled.contains name then handle r name else pure () : Gen Unit) σ s = _
    rw [if_pos]
    simpa using hnew
  rw [hmeet, handle_eq]
  simp only [bind_eq_ok, modify_eq_ok]
  constructor
  · rintro ⟨_, _, rfl, m, s₂, ⟨x, s₁, hx, hm⟩, rfl⟩
    exact ⟨x, s₁, m, s₂, hx, hm, rfl⟩
  · rintro ⟨x, s₁, m, s₂, hx, hm, rfl⟩
    exact ⟨(), _, rfl, m, s₂, ⟨x, s₁, hx, hm⟩, rfl⟩

def Grows (σ : Setting) (x : Gen α) : Prop := ∀ ⦃s t a⦄, x σ s = (.ok a, t) → s.Grows t

theorem visiting_eq_ok {visit : Gen Unit} (hvisit : ∀ {s t u}, visit σ s = (.ok u, t) → t = s) {x : Gen α} {a : α}
    (h : visiting visit x σ s = (.ok a, t)) : x σ s = (.ok a, t) := by
  simp only [visiting, bind_eq_ok, pure_eq_ok] at h
  obtain ⟨_, s₁, hfirst, a', s₂, ha, _, s₃, hlast, rfl, rfl⟩ := h
  obtain rfl := hvisit hfirst
  obtain rfl := hvisit hlast
  exact ha

end Gen

open Gen

/-- Generating code keeps what the generator has, and all code that writes keeps to variables that were free. -/
structure Recursion.Hygienic (r : Recursion) (σ : Setting) : Prop where
  grows : ∀ mode d p, Gen.Grows σ (r.make mode d p)
  keeps : ∀ {d p s t a x}, r.encode d p σ s = (.ok a, t) → p.IsIn x → a.Scoped s.counters.Free x

namespace Gen

variable {σ : Setting} {r : Recursion} {s t : Generator} {name : String}

theorem grows_draft (hr : r.Hygienic σ) {d : Json} {m : Draft} (h : draft r d σ s = (.ok m, t)) :
    s.Grows t ∧ m.writer.Hygienic := by
  obtain ⟨x, registry, s₁, s₂, -, hwriter, hreader, -, -, rfl⟩ := draft_eq_ok.1 h
  have hfirst := hr.grows .write x (.of "data") hwriter
  have hsecond := hr.grows .read x (.of "data") hreader
  refine ⟨⟨hfirst.counters.trans hsecond.counters, List.Subset.trans hfirst.handled hsecond.handled, ?_⟩,
    _, not_free_data _, hr.keeps hwriter (Place.isIn_of "data")⟩
  exact hsecond.functions ∘ hfirst.functions

theorem grows_meet (hr : r.Hygienic σ) {u : Unit} (h : meet r name σ s = (.ok u, t)) :
    s.Grows t ∧ name ∈ t.handled := by
  by_cases hmem : name ∈ s.handled
  · rw [meet_of_mem hmem] at h
    cases h
    exact ⟨.refl _, hmem⟩
  · obtain ⟨x, s₁, m, s₂, hx, hm, rfl⟩ := (meet_eq_ok hmem).1 h
    obtain ⟨registry, -, rfl⟩ := load_eq_ok hx
    obtain ⟨⟨hcounters, hhandled, hfunctions⟩, hwriter⟩ := grows_draft hr hm
    obtain ⟨hold, hnew⟩ := List.append_subset.1 hhandled
    refine ⟨⟨hcounters, hold, fun hs f hf => ?_⟩, hnew List.mem_cons_self⟩
    rw [Routine.helperFunctions, Routine.helperFunctions, List.append_nil] at hf
    rcases List.mem_cons.1 hf with rfl | hf
    · exact hwriter
    · exact hfunctions hs f hf

theorem kept_grows : Kept Generator.Grows where
  le h := h.counters
  trans := .trans
  still h hhandled hhelpers := ⟨h, hhandled ▸ List.Subset.refl _, by rw [hhelpers]; exact id⟩

theorem grows_guardOf (d : Json) : Grows σ (guardOf d) := by
  intro s t a ha
  have hguard : (tracing σ kept_grows).holds s.counters (guardOf d) (guardOf d) fun _ _ _ => True :=
    (tracing σ kept_grows).bind_read ((tracing σ kept_grows).guardIn (G := fun _ => Json.Alike)
      ⟨Parallel.stable_of_alike, trivial, fun _ => trivial, fun _ _ => trivial,
        fun _ _ _ _ x _ hx => ⟨kept_grows.load hx, x, .refl x⟩, fun _ _ _ _ _ ha => (throw_eq_ok.1 ha).elim⟩ (.refl d))
  exact (hguard rfl ha).1

theorem scoped_filledFrom {V : String → Prop} {x : String} {d : Json} {p : Place} {e : Encoder} (hp : p.IsIn x)
    (h : e.Scoped V x) : (filledFrom d p e).Scoped V x := by
  unfold filledFrom
  split
  · exact h
  · exact h
  · exact .filled _ hp h

theorem scoped_branches {guard : Json → Guard → Guard → Prop} {w w₁ w' : Counters} {types : List Json} {p q : Place}
    {x y z : String} {bs bs' : List (Branch Encoder)} (hp : p.IsIn z)
    (h : Lockstep.AllBranches guard (fun w _ _ _ p _ a _ => ∀ x, p.IsIn x → a.Scoped w.Free x) w w₁ w' types p q x y
      bs bs') : ∀ b ∈ bs, b.tagged.Scoped w₁.Free x ∧ b.plain.Scoped w.Free z := by
  intro b hb
  obtain ⟨_, _, _, ht⟩ := Rows.exists_of_mem h hb
  refine ⟨ht.tagged x (Place.isIn_of x), ?_⟩
  rcases ht.plain with hplain | ⟨-, hnull, -⟩
  · exact hplain z hp
  · rw [hnull]
    exact .null

/-- The rules of code that keeps to its variables. -/
theorem hygiene : (tracing σ kept_grows).WriterRules (· = ·) Eq (fun _ _ => True) (fun _ _ _ => True)
    (fun w _ _ _ p _ a _ => ∀ x, p.IsIn x → a.Scoped w.Free x)
    fun w _ _ _ p _ a _ => ∀ x, p.IsIn x → a.Scoped w.Free x where
  mono hw _ h x hx := (h x hx).mono fun _ => free_mono hw
  null _ _ := .null
  primitive _ _ _ _ x hx := .primitive _ hx
  fixed _ _ _ x hx := .primitive _ hx
  recur _ _ _ _ x hx := .recur _ hx
  loaded _ _ _ h := h
  reference _ _ _ _ _ h x hx := h x (hx.member _)
  logical _ _ _ _ x hx := .logical _ hx
  fields _ _ _ h x hx := by
    refine .fields fun e he => ?_
    obtain ⟨_, _, _, he⟩ := h.exists_of_mem he
    exact he x hx
  array _ _ hmn _ _ h x hx := by
    obtain ⟨hitem, hinner⟩ := free_of_draws hmn
    exact .array hx hitem hinner (h _ (Place.isIn_of _))
  enum _ _ _ _ x hx := .enum _ hx
  map _ _ hkl hmn _ _ h x hx := by
    obtain ⟨hkey, hrest⟩ := free_of_draws hkl
    obtain ⟨hvalue, hinner⟩ := free_of_draws hmn
    exact .map hx (.inr rfl) hkey (hrest _ hvalue).1 (hrest _ hvalue).2.symm
      (fun y hy => (hinner y hy).imp_left fun hy => (hrest y hy).1) (h _ (Place.isIn_of _))
  union _ _ hkl hmn h x hx := by
    obtain ⟨htag, hrest⟩ := free_of_draws hkl
    obtain ⟨hdata, hinner⟩ := free_of_draws hmn
    have hbranches := scoped_branches hx h
    exact .union hx htag (hrest _ hdata).1 (hrest _ hdata).2.symm
      (fun y hy => (hinner y hy).imp_left fun hy => (hrest y hy).1) (fun b hb => (hbranches b hb).1)
      fun b hb => (hbranches b hb).2
  unionField _ _ _ _ hkl hmn h x hx := by
    obtain ⟨htag, hrest⟩ := free_of_draws hkl
    obtain ⟨hdata, hinner⟩ := free_of_draws hmn
    have hbranches := scoped_branches (hx.member _) h
    exact .union hx htag (hrest _ hdata).1 (hrest _ hdata).2.symm
      (fun y hy => (hinner y hy).imp_left fun hy => (hrest y hy).1) (fun b hb => (hbranches b hb).1)
      fun b hb => (hbranches b hb).2
  nested _ _ _ _ h x hx := scoped_filledFrom (hx.member _) (h x (hx.member _))
  basic {_ d _ p _ _} _ _ _ _ x hx := by
    have hown : (Parallel.ownPlace d p).IsIn x := by
      rw [Parallel.ownPlace]
      split_ifs
      · exact hx.member _
      · exact hx
    exact scoped_filledFrom hown (.primitive _ hown)

end Gen

namespace Recursion

variable {store : Store} {extended : Bool} {visit : Gen Unit}
  (hdotted : ∀ {name}, store.contains name = true → Schema.hasDot name = true)
  (hvisit : ∀ {s t u}, visit ⟨store, extended⟩ s = (.ok u, t) → t = s)
include hdotted

theorem Hygienic.premises {r : Recursion} (hr : r.Hygienic ⟨store, extended⟩) :
    (tracing ⟨store, extended⟩ kept_grows).Premises (· = ·) (fun _ _ => True) (fun _ _ => True) r r :=
  .of_alike (fun hd => hd ▸ .refl _) (fun _ _ => trivial)
    (by rw [← Bool.not_eq_true]; exact fun hfixed => absurd (hdotted hfixed) (by decide))
    (fun _ _ _ _ _ x _ hx => ⟨kept_grows.load hx, x, loads_of_load hx, fun _ => trivial⟩)
    fun _ _ _ _ _ _ _ _ ha => ⟨(grows_meet hr ha).1, (), trivial⟩

theorem Hygienic.encodeStep {r : Recursion} (hr : r.Hygienic ⟨store, extended⟩) {d : Json} {p : Place}
    {s t : Generator} {a : Encoder} (ha : r.next.encode d p ⟨store, extended⟩ s = (.ok a, t)) :
    s.Grows t ∧ ∀ x, p.IsIn x → a.Scoped s.counters.Free x := by
  have hwriting : (tracing ⟨store, extended⟩ kept_grows).Writing (· = ·) (fun _ _ => True) (fun _ _ => True)
      r r Eq (fun _ _ _ => True) (fun w _ _ _ p _ a _ => ∀ x, p.IsIn x → a.Scoped w.Free x)
      fun w _ _ _ p _ a _ => ∀ x, p.IsIn x → a.Scoped w.Free x :=
    { toPremises := hr.premises hdotted
      rules := hygiene
      encode := by
        rintro w d d' p _ - rfl s t a rfl ha
        exact ⟨hr.grows .write d p ha, a, fun x hx => hr.keeps ha hx⟩
      guards := fun _ _ _ g _ ha => ⟨grows_guardOf _ ha, g, trivial⟩
      value := fun h => h.1 ▸ rfl
      member := fun _ _ _ hpq => hpq ▸ rfl
      text := fun hpq => ⟨fun hp => .inl (hpq ▸ hp), fun hq => .inl (hpq ▸ hq)⟩ }
  obtain ⟨hgrows, _, hscoped⟩ := hwriting.encodeStep (w := s.counters) (p := p) rfl rfl rfl ha
  exact ⟨hgrows, hscoped⟩

theorem Hygienic.decodeStep {r : Recursion} (hr : r.Hygienic ⟨store, extended⟩) (d : Json) (p : Place) :
    Gen.Grows ⟨store, extended⟩ (r.next.decode d p) := by
  intro s t a ha
  have hreading : (tracing ⟨store, extended⟩ kept_grows).Reading (· = ·) (fun _ _ => True) (fun _ _ => True)
      r r Eq (fun _ _ _ _ _ _ _ _ => True) fun _ _ _ _ _ _ _ _ => True :=
    { toPremises := hr.premises hdotted
      rules := by constructor <;> intros <;> trivial
      decode := fun _ _ _ _ b _ ha => ⟨hr.grows .read _ _ ha, b, trivial⟩
      value := fun h => h.1 ▸ rfl
      entry := fun hpq h => hpq ▸ h.1 ▸ rfl
      member := fun hpq => hpq ▸ rfl }
  exact (hreading.decodeStep (w := s.counters) (p := p) rfl rfl rfl ha).1

include hvisit

/-- All code that is generated for writing keeps to its variables. -/
theorem hygienic_visited (n : Nat) : (visited visit n).Hygienic ⟨store, extended⟩ := by
  induction n with
  | zero => exact ⟨fun mode _ _ _ _ _ ha => by cases mode <;> exact (throw_eq_ok.1 ha).elim,
      fun ha => (throw_eq_ok.1 ha).elim⟩
  | succ n ih =>
    refine ⟨?_, fun ha hx => (ih.encodeStep hdotted (visiting_eq_ok hvisit ha)).2 _ hx⟩
    rintro (_ | _) d p s t a ha
    · exact (ih.encodeStep hdotted (visiting_eq_ok hvisit ha)).1
    · exact ih.decodeStep hdotted d p (visiting_eq_ok hvisit ha)

end Recursion

namespace Codec

variable {schemata : Schemata} {identifier : String} {codec : Codec}

theorem hygienic_of_build (hbuild : build schemata identifier = .ok codec) :
    codec.routine.writer.Hygienic ∧ ∀ f ∈ codec.routine.functions, f.2.writer.Hygienic := by
  obtain ⟨store, registry, hstore⟩ := exists_store_of_build hbuild
  obtain ⟨x, registry', t, -, hmade⟩ := exists_routine_of_generate (build_eq_ok hstore hbuild).1
  have hygienic : (Recursion.upTo (Generator.reach store x)).Hygienic { store } := by
    rw [← Recursion.visited_pure]
    exact Recursion.hygienic_visited (Store.hasDot_of_contains hstore)
      (fun hpure => (Gen.pure_eq_ok.1 hpure).2) _
  rw [Gen.routine_eq] at hmade
  simp only [Gen.bind_eq_ok, Gen.get_eq_ok, Gen.set_eq_ok, Gen.pure_eq_ok] at hmade
  obtain ⟨m, s, hm, _, _, ⟨rfl, rfl⟩, _, _, rfl, hroutine, -⟩ := hmade
  obtain ⟨hgrows, hwriter⟩ := Gen.grows_draft hygienic hm
  rw [hroutine]
  exact ⟨hwriter, hgrows.functions fun _ hf => absurd hf List.not_mem_nil⟩

end Codec

namespace Code.Routine

theorem executeCall_eq {table : List (String × Routine)} (h : ∀ f ∈ table, f.2.writer.Hygienic) (depth : Nat) :
    executeCall table depth = writeCall table depth := by
  induction depth with
  | zero => rfl
  | succ depth ih =>
    funext name v
    rw [executeCall, writeCall, ih]
    cases hr : function? table name with
    | none => rfl
    | some r =>
      obtain ⟨V, hdata, hscoped⟩ := h _ (mem_of_function? hr)
      exact congrFun (hscoped.applied_eq hdata _) v

end Code.Routine

/-- A codec writes what it would write without the variables of its code. -/
theorem Codec.execute_eq_serialize {schemata : Schemata} {identifier : String} {codec : Codec}
    (hbuild : build schemata identifier = .ok codec) : codec.execute = codec.serialize := by
  obtain ⟨⟨V, hdata, hscoped⟩, hfunctions⟩ := hygienic_of_build hbuild
  funext v
  rw [execute, serialize, Routine.executeCall_eq hfunctions, hscoped.applied_eq hdata]

end AvroCodec
