import AvroCodec.Proofs.Lockstep
import AvroCodec.Proofs.Reader
import AvroCodec.Proofs.Writer

/-!
# Steps of a generator

A generator draws variables that it has not drawn before, and the routines of recursive types that it
keeps are made of code for the forms of these types. `Generator.Leads` says so of the states before and
after a step.
-/

namespace AvroCodec

open Code

/-- A routine that writes and reads the record of a recursive type. -/
def Serves (env : String → Option Form) (recursive : String → Prop) (name : String)
    (routine : Routine) : Prop :=
  recursive name ∧ ∃ fields V, env name = some (.record fields) ∧ ¬ V "data" ∧
    Writer env recursive (.record fields) (.of "data") routine.writer ∧
      Reader env recursive false V (.record fields) (.of "data") routine.reader

/-- Functions that are named after recursive types and serve them. -/
def ServesAll (env : String → Option Form) (recursive : String → Prop)
    (table : List (String × Routine)) : Prop :=
  ∀ f ∈ table, ∃ name, f.1 = functionSuffix name ∧ Serves env recursive name f.2

namespace Generator

/-- What a step of a generator does to its state. -/
structure Leads (env : String → Option Form) (recursive : String → Prop) (s t : Generator) : Prop where
  counters : s.counters ≤ t.counters
  helpers : ServesAll env recursive (Routine.helperFunctions s.helpers) →
    ServesAll env recursive (Routine.helperFunctions t.helpers)

variable {env : String → Option Form} {recursive : String → Prop} {s t u : Generator}

theorem Leads.refl (s : Generator) : Leads env recursive s s := ⟨le_rfl, id⟩

theorem Leads.of_eq (h : t = s) : Leads env recursive s t := by
  rw [h]
  exact .refl s

theorem Leads.trans (h : Leads env recursive s t) (h' : Leads env recursive t u) :
    Leads env recursive s u :=
  ⟨h.counters.trans h'.counters, fun hs => h'.helpers (h.helpers hs)⟩

end Generator

/-- The variables that a generator may draw from now on. -/
def Counters.Drawn (c : Counters) (y : String) : Prop :=
  ∃ kind i, c.number kind ≤ i ∧ y = Gen.variableName kind i

namespace Gen

variable {name : String} {d : Json} {c c' : Counters} {n : Nat}

theorem toList_variableName (kind : String) (i : Nat) :
    (variableName kind i).toList = kind.toList ++ '_' :: Nat.toDigits 10 i := by
  have hdigits : (toString i).toList = Nat.toDigits 10 i := String.toList_ofList
  simp only [variableName, String.toList_append, hdigits, List.append_assoc]
  rfl

theorem append_underscore_inj {k k' ds ds' : List Char} (h : '_' ∉ ds) (h' : '_' ∉ ds')
    (heq : k ++ '_' :: ds = k' ++ '_' :: ds') : k = k' ∧ ds = ds' := by
  rcases List.append_eq_append_iff.1 heq with ⟨as, rfl, has⟩ | ⟨as, rfl, has⟩
  all_goals
    cases as with
    | nil => simp_all
    | cons c as => simp_all

/-- The number of a variable has no underscore, so that the last one is in front of it. -/
theorem variableName_inj {kind kind' : String} {i j : Nat} :
    variableName kind i = variableName kind' j ↔ kind = kind' ∧ i = j := by
  constructor
  · intro h
    have hlists := congrArg String.toList h
    rw [toList_variableName, toList_variableName] at hlists
    obtain ⟨hkinds, hdigits⟩ := append_underscore_inj Nat.underscore_not_in_toDigits Nat.underscore_not_in_toDigits
      hlists
    refine ⟨String.toList_inj.1 hkinds, ?_⟩
    rw [← @Nat.ofDigitChars_toDigits 10 i (by decide) (by decide), hdigits,
      Nat.ofDigitChars_toDigits (by decide) (by decide)]
  · rintro ⟨rfl, rfl⟩
    rfl

theorem not_drawn {y : String} (hy : '_' ∉ y.toList) (c : Counters) : ¬ c.Drawn y := by
  rintro ⟨kind, i, -, rfl⟩
  exact hy (by simp [toList_variableName])

theorem not_drawn_data (c : Counters) : ¬ c.Drawn "data" := not_drawn (by decide) c

theorem drawn_mono (h : c ≤ c') {y : String} (hy : c'.Drawn y) : c.Drawn y := by
  obtain ⟨kind, i, hi, rfl⟩ := hy
  exact ⟨kind, i, (h kind).trans hi, rfl⟩

theorem drawn_of_drew {kind : String} (h : Counters.Drew kind c c' n) :
    c.Drawn (variableName kind n) ∧ ∀ y, c'.Drawn y → y ≠ variableName kind n := by
  refine ⟨⟨kind, n, h.eq.ge, rfl⟩, ?_⟩
  rintro _ ⟨kind', i, hi, rfl⟩ he
  obtain ⟨rfl, rfl⟩ := variableName_inj.1 he
  have := h.next
  omega

variable {env : String → Option Form} {recursive : String → Prop} {σ : Setting} {s t : Generator}

theorem requireReady_eq_ok {u : Unit} (h : requireReady σ s = (.ok u, t)) : t = s := by
  simp only [requireReady, bind_eq_ok, get_eq_ok] at h
  obtain ⟨_, _, ⟨rfl, rfl⟩, h⟩ := h
  split_ifs at h
  · exact (throw_eq_ok.1 h).elim
  · exact (pure_eq_ok.1 h).2

theorem withRegistry_eq_ok {α : Type} {action : Schema.WithRegistry α} {a : α}
    (h : withRegistry action σ s = (.ok a, t)) :
    ∃ r, action s.registry = (.ok a, r) ∧ t = { s with registry := r } := by
  simp only [withRegistry, bind_eq_ok, get_eq_ok] at h
  obtain ⟨_, _, hget, h⟩ := h
  rw [hget.1, hget.2] at h
  cases haction : action s.registry with
  | mk result r =>
    simp only [haction, bind_eq_ok, set_eq_ok, lift_eq_ok] at h
    obtain ⟨_, _, rfl, rfl, rfl⟩ := h
    exact ⟨r, rfl, rfl⟩

theorem load_eq_ok (h : load name σ s = (.ok d, t)) :
    ∃ r, σ.store.load name s.context s.registry = (.ok d, r) ∧ t = { s with registry := r } := by
  simp only [load, bind_eq_ok, get_eq_ok, read_eq_ok] at h
  obtain ⟨_, _, ⟨rfl, rfl⟩, _, _, ⟨rfl, rfl⟩, h⟩ := h
  exact withRegistry_eq_ok h

theorem loads_of_load (h : load name σ s = (.ok d, t)) : σ.store.Loads name d := by
  obtain ⟨r, hload, -⟩ := load_eq_ok h
  exact ⟨s.context, s.registry, r, hload⟩

theorem form?_of_load {f : Form} (hu : σ.store.Unambiguous name)
    (hf : σ.store.form? name = some f) (h : load name σ s = (.ok d, t)) : form? d = some f := by
  obtain ⟨r, hload, -⟩ := load_eq_ok h
  exact hu _ _ _ _ _ hload hf

theorem leads_load (h : load name σ s = (.ok d, t)) :
    Generator.Leads env recursive s t := by
  obtain ⟨r, -, rfl⟩ := load_eq_ok h
  exact ⟨le_rfl, id⟩

end Gen

/-- A schema of the format, or a field of one of its records. -/
def Setting.Shapes (σ : Setting) (root : Form) (d : Json) : Prop :=
  (∃ g f, Form.Part σ.store.form? root g f ∧ form? d = some f) ∨
    ∃ field : Field Form, Form.Part σ.store.form? root false field.type ∧ field? d = some field

/-- Code that writes what a schema or a field describes. -/
structure Code.Encoder.Suits (σ : Setting) (recursive : String → Prop) (root : Form) (d : Json) (p : Place)
    (e : Encoder) : Prop where
  form : ∀ {g f}, Form.Part σ.store.form? root g f → form? d = some f → Writer σ.store.form? recursive f p e
  field : ∀ {field : Field Form}, Form.Part σ.store.form? root false field.type → field? d = some field →
    ∃ inner, e = field.filling (p.member (.str field.name)) inner ∧
      Writer σ.store.form? recursive field.type (p.member (.str field.name)) inner

/-- Code that reads what a schema or a field describes, with variables that were drawn after the given count. -/
structure Code.Decoder.Suits (σ : Setting) (recursive : String → Prop) (root : Form) (c : Counters) (d : Json)
    (p : Place) (e : Decoder) : Prop where
  form : ∀ {g f}, Form.Part σ.store.form? root g f → form? d = some f → Reader σ.store.form? recursive g c.Drawn f p e
  field : ∀ {field : Field Form}, Form.Part σ.store.form? root false field.type → field? d = some field →
    Reader σ.store.form? recursive false c.Drawn field.type (p.member (.str field.name)) e

/-- Generating code gives code for the forms of schemas and of fields. -/
structure Recursion.Sound (σ : Setting) (recursive : String → Prop) (root : Form) (r : Recursion) : Prop where
  encode : ∀ {d p s t code}, σ.Shapes root d → r.encode d p σ s = (.ok code, t) →
    code.Suits σ recursive root d p ∧ s.Leads σ.store.form? recursive t
  decode : ∀ {d p s t code}, σ.Shapes root d → r.decode d p σ s = (.ok code, t) →
    code.Suits σ recursive root s.counters d p ∧ s.Leads σ.store.form? recursive t

namespace Gen

variable {σ : Setting} {recursive : String → Prop} {root : Form} {r : Recursion} {s t : Generator} {g : Bool}
  {fields : List (Field Form)} {made : Routine}

theorem takeDeclarations_eq_ok {lines : List String} (h : takeDeclarations σ s = (.ok lines, t)) :
    t = { s with declarations := [] } := by
  cases h
  rfl

variable (recursive) in
theorem routine_cases {f : Form} {d : Json} (hd : form? d = some f) (h : routine r d σ s = (.ok made, t)) :
    ∃ parsed s₁ s₂ s₃ s₄, form? parsed = some f ∧ s.Leads σ.store.form? recursive s₁ ∧
      r.encode parsed (.of "data") σ s₁ = (.ok made.writer, s₂) ∧
      s₂.Leads σ.store.form? recursive s₃ ∧
      r.decode parsed (.of "data") σ s₃ = (.ok made.reader, s₄) ∧
      made.functions = Routine.helperFunctions s₄.helpers ∧
      s₄.counters = t.counters ∧ t.helpers = [] := by
  simp only [routine, bind_eq_ok, modify_eq_ok, get_eq_ok, set_eq_ok, pure_eq_ok] at h
  obtain ⟨_, _, rfl, parsed, s₁, hparsed, writer, s₂, hwriter, _, s₃, htake, reader, s₄, hreader,
    _, s₅, htake', s₆, _, ⟨rfl, rfl⟩, _, _, rfl, rfl, rfl⟩ := h
  obtain ⟨registry, hparse, rfl⟩ := withRegistry_eq_ok hparsed
  obtain rfl := takeDeclarations_eq_ok htake
  obtain rfl := takeDeclarations_eq_ok htake'
  refine ⟨parsed, _, s₂, _, s₄, Schema.form?_of_parseOpen hd hparse, ?_, hwriter, ?_, hreader, rfl, rfl,
    rfl⟩ <;> exact ⟨le_rfl, id⟩

theorem routine_eq_ok (hr : r.Sound σ recursive root) {f : Form} {d : Json} (hpart : Form.Part σ.store.form? root g f)
    (hd : form? d = some f) (h : routine r d σ s = (.ok made, t)) :
    Writer σ.store.form? recursive f (.of "data") made.writer ∧
      (∃ V, ¬ V "data" ∧ Reader σ.store.form? recursive g V f (.of "data") made.reader) ∧
      (ServesAll σ.store.form? recursive (Routine.helperFunctions s.helpers) →
        ServesAll σ.store.form? recursive made.functions) ∧
      s.counters ≤ t.counters ∧ t.helpers = [] := by
  obtain ⟨parsed, s₁, s₂, s₃, s₄, hform, hstart, hwriter, hnext, hreader, hfunctions, hcounters, hempty⟩ :=
    routine_cases recursive hd h
  obtain ⟨hw, hleads⟩ := hr.encode (.inl ⟨g, f, hpart, hform⟩) hwriter
  obtain ⟨hrd, hleads'⟩ := hr.decode (.inl ⟨g, f, hpart, hform⟩) hreader
  have hall : s.Leads σ.store.form? recursive s₄ := hstart.trans (hleads.trans (hnext.trans hleads'))
  rw [hfunctions, ← hcounters]
  exact ⟨hw.form hpart hform, ⟨_, not_drawn_data _, hrd.form hpart hform⟩, hall.helpers, hall.counters, hempty⟩

theorem reader_record {env : String → Option Form} {g' : Bool} {V : String → Prop} {p : Place} {d : Decoder}
    (h : Reader env recursive g V (.record fields) p d) : Reader env recursive g' V (.record fields) p d := by
  cases h with
  | record parts hfields hnames h => exact .record parts hfields hnames h

/-- Meeting a recursive type adds at most its routine. -/
theorem leads_meet (hr : r.Sound σ recursive root) {name : String} (hu : σ.store.Unambiguous name) {u : Unit}
    (hpart : Form.Part σ.store.form? root g (.named name)) (hform : σ.store.form? name = some (.record fields))
    (hname : recursive name) (h : meet r name σ s = (.ok u, t)) : s.Leads σ.store.form? recursive t := by
  simp only [meet, bind_eq_ok, get_eq_ok] at h
  obtain ⟨_, _, hget, h⟩ := h
  rw [hget.1, hget.2] at h
  by_cases hhandled : s.handled.contains name = true
  · simp only [hhandled, Bool.not_true, Bool.false_eq_true, if_false, pure_eq_ok] at h
    exact .of_eq h.2
  · rw [Bool.not_eq_true] at hhandled
    simp only [hhandled, Bool.not_false, if_true, handle, bind_eq_ok, modify_eq_ok] at h
    obtain ⟨_, _, rfl, schema, s₁, hload, made, s₂, hmade, hadd⟩ := h
    have hschema := form?_of_load hu hform hload
    have hleads : Generator.Leads σ.store.form? recursive _ s₁ := leads_load hload
    obtain ⟨hw, ⟨V, hV, hrd⟩, hfunctions, hcounters, hempty⟩ :=
      routine_eq_ok hr (hpart.definition hform) hschema hmade
    have hserves : Serves σ.store.form? recursive name made :=
      ⟨hname, fields, V, hform, hV, hw, reader_record hrd⟩
    simp only [addHelper, modify_eq_ok, hempty, List.any_nil, Bool.false_eq_true, if_false,
      List.nil_append] at hadd
    subst hadd
    refine ⟨hleads.counters.trans hcounters, fun hs => ?_⟩
    have hmade' := hfunctions (hleads.helpers hs)
    simp only [Routine.helperFunctions, List.append_nil]
    intro f hf
    rcases List.mem_cons.1 hf with rfl | hf
    · exact ⟨name, rfl, hserves⟩
    · exact hmade' f hf

end Gen

end AvroCodec
