import AvroCodec.Proofs.Elsewhere
import AvroCodec.Proofs.Lacking
import AvroCodec.Proofs.Twice

/-!
# Where generated code works

Code that is generated at a place works at that place and inside what is there (`Encoder.Under`). This is shown
for one step of the generator and then for any number of them. Nothing need be known of the generator's state.
The code of a field with an entry of its own works there, after a default has been put in.
-/

namespace AvroCodec

open Code

namespace Json

/-- Whether a field of this type works at its own entry. A type given by one of these words alone, and a recursive
type, are worked at where the record is. -/
def hasEntry (cycles : List String) : Json → Bool
  | .obj _ | .arr _ => true
  | .str name => !(["record", "array", "enum", "map", "fixed"] ++ cycles).contains name
  | _ => false

/-- Whether a field has a name, under which its code works. -/
def isKeyed (cycles : List String) (field : Json) : Bool :=
  match field.get? "name", field.get? "logicalType", field.get? "type" with
  | some (.str name), none, some type => Form.isFieldName name && type.hasEntry cycles
  | _, _, _ => false

theorem exists_of_isKeyed {cycles : List String} {field : Json} (h : field.isKeyed cycles = true) :
    ∃ name type, field.get? "name" = some (.str name) ∧ Form.isFieldName name = true ∧
      field.get? "logicalType" = none ∧ field.get? "type" = some type ∧ type.hasEntry cycles = true := by
  unfold isKeyed at h
  split at h
  next name type hname hlogical htype =>
    obtain ⟨hfield, hentry⟩ := Bool.and_eq_true_iff.1 h
    exact ⟨name, type, hname, hfield, hlogical, htype, hentry⟩
  next => cases h

end Json

namespace Code.Encoder

/-- Code that works at the end of a path and inside what is there. -/
def Under (path : List String) (e : Encoder) : Prop := ∀ ks ∈ e.paths, path <+: ks

variable {path : List String} {e : Encoder} {parts : List Encoder}

theorem Under.of_path (h : e.paths = [path]) : e.Under path := by
  rw [Under, h]
  exact fun ks hks => List.mem_singleton.1 hks ▸ List.prefix_rfl

theorem Under.trans {path' : List String} (h : e.Under path') (hpath : path <+: path') : e.Under path :=
  fun ks hks => hpath.trans (h ks hks)

theorem forall_mem_pathsParts {P : List String → Prop} :
    (∀ ks ∈ pathsParts parts, P ks) ↔ ∀ e ∈ parts, ∀ ks ∈ e.paths, P ks := by
  induction parts with
  | nil => simp [pathsParts]
  | cons e parts ih => rw [pathsParts, List.forall_mem_append, List.forall_mem_cons, ih]

theorem Under.fields (h : ∀ e ∈ parts, e.Under path) : (Encoder.fields parts).Under path :=
  forall_mem_pathsParts.2 h

theorem mem_pathsBranches {bs : List (Branch Encoder)} {ks : List String} :
    ks ∈ pathsBranches bs ↔ ∃ b ∈ bs, ks ∈ b.plain.paths := by
  induction bs with
  | nil => simp [pathsBranches]
  | cons b bs ih => simp only [pathsBranches, List.mem_append, ih, List.mem_cons, exists_eq_or_imp]

end Code.Encoder

namespace Gen

open Encoder Parallel

variable {cycles : List String} {d type f : Json} {p : Place} {a next : Encoder} {path : List String}

theorem prefix_member (p : Place) (name : Json) : p.keys <+: (p.member name).keys := by
  simp [Place.keys, Place.member]

theorem under_filledFrom (hp : path <+: p.keys) (hnext : next.Under path) : (filledFrom d p next).Under path := by
  unfold filledFrom
  split
  · exact hnext
  · exact hnext
  · intro ks hks
    rcases List.mem_cons.1 hks with rfl | hks
    · exact hp
    · exact hnext ks hks

theorem ownPlace_of_name {name : String} (h : d.get? "name" = some (.str name)) (hname : Form.isFieldName name = true)
    (p : Place) : ownPlace d p = p.member (.str name) := by
  have htruthy : Json.truthy (.str name) = true := (Bool.and_eq_true_iff.1 hname).1
  rw [ownPlace, h, Option.getD_some, if_pos htruthy]

/-- Code for a schema works at its place. If the schema is a field with an entry of its own then the code works at this
entry, where the default is put in first if the type of the field takes it. -/
structure Placed (cycles : List String) (d : Json) (p : Place) (a : Encoder) : Prop where
  under : a.Under p.keys
  entry : d.isKeyed cycles = true → ∃ name type next, d.get? "name" = some (.str name) ∧ d.get? "type" = some type ∧
    next.Under (p.member (.str name)).keys ∧
    (a = filledFrom d (p.member (.str name)) next ∨ type.takesDefault = false ∧ a = next)

theorem Placed.plain (h : a.Under p.keys)
    (hd : ∀ type, d.get? "logicalType" = none → d.get? "type" = some type → type.hasEntry cycles = false) :
    Placed cycles d p a := by
  refine ⟨h, fun hkeyed => ?_⟩
  obtain ⟨-, type, -, -, hlogical, htype, hentry⟩ := Json.exists_of_isKeyed hkeyed
  rw [hd type hlogical htype] at hentry
  cases hentry

theorem Placed.of_type (h : a.Under p.keys) (htype : d.get? "type" = some type)
    (hentry : type.hasEntry cycles = false) :
    Placed cycles d p a :=
  .plain h fun _ _ htype' => by
    cases htype.symm.trans htype'
    exact hentry

theorem Placed.entered (hname : d.get? "name" = some f) (htype : d.get? "type" = some type)
    (h : next.Under (p.member f).keys)
    (ha : a = filledFrom d (p.member f) next ∨ type.takesDefault = false ∧ a = next) :
    Placed cycles d p a where
  under := by
    have hunder := h.trans (prefix_member p f)
    rcases ha with rfl | ⟨-, rfl⟩
    · exact under_filledFrom (prefix_member p f) hunder
    · exact hunder
  entry hkeyed := by
    obtain ⟨name, -, hname', -⟩ := Json.exists_of_isKeyed hkeyed
    cases hname.symm.trans hname'
    exact ⟨name, type, next, hname, htype, h, ha⟩

theorem under_union {guard : Json → Guard → Guard → Prop} {types : List Json} {q : Place} {subject : Subject}
    {tag x y : String} {bs bs' : List (Branch Encoder)} (hsubject : p.keys <+: subject.keys)
    (h : Lockstep.AllBranches guard (fun (_ _ : Unit) d _ p _ a _ => Placed cycles d p a) ()
      () () types p q x y bs bs') :
    (Encoder.union subject tag x bs).Under p.keys := by
  intro ks hks
  rcases List.mem_cons.1 hks with rfl | hks
  · exact hsubject
  · obtain ⟨b, hb, hks⟩ := mem_pathsBranches.1 hks
    obtain ⟨t, -, u, b', hbranch⟩ := exists_mem_of_forall₂ h.firsts hb
    rcases hbranch.plain with hplain | ⟨-, hnull, -⟩
    · exact hplain.under ks hks
    · rw [hnull] at hks
      cases hks

variable {σ : Setting} (hdotted : ∀ {name}, σ.store.contains name = true → Schema.hasDot name = true)
include hdotted

/-- The rules of code that works at its place. -/
theorem placing : (pairing σ).WriterRules (· = ·) (fun _ _ => True) (fun _ name => σ.store.isCycleStarting name = true)
    (fun _ _ _ => True) (fun _ _ d _ p _ a _ => Placed σ.store.cycles d p a)
    fun _ _ d _ p _ a _ => Placed σ.store.cycles d p a where
  mono _ _ h := h
  null := .plain (fun _ hks => by cases hks) nofun
  primitive _ _ _ _ := .plain (.of_path rfl) nofun
  fixed _ _ htype := .of_type (.of_path rfl) htype rfl
  recur {_ _ _ _ _ _ name} _ _ hname hflag := by
    refine .plain (.of_path rfl) fun type _ htype => ?_
    rcases hname with rfl | hname
    · cases htype
    · cases hname.symm.trans htype
      rw [Json.hasEntry, List.contains_append, show σ.store.cycles.contains name = true from hflag, Bool.or_true]
      rfl
  loaded _ _ _ h := .plain h.under nofun
  reference {_ _ _ _ _ _ name _ _ _ _ _} _ htype hstored hname _ h := by
    refine .entered hname htype h.under (.inr ⟨?_, rfl⟩)
    rw [Json.takesDefault, ← Bool.not_eq_true]
    intro hbasic
    rcases Form.mem_basicTypes hbasic with rfl | rfl | rfl | rfl | rfl | rfl | rfl <;>
      exact absurd (hdotted hstored) (by decide)
  logical _ _ hkind _ := .plain (.of_path rfl) fun _ hlogical _ => by cases hkind.symm.trans hlogical
  fields _ htype _ h := by
    refine .of_type (.fields fun e he => ?_) htype rfl
    obtain ⟨x, -, _, _, hx⟩ := exists_mem_of_forall₂ h.firsts he
    exact hx.under
  array _ _ _ htype _ _ := .of_type (.of_path rfl) htype rfl
  enum _ _ htype _ := .of_type (.of_path rfl) htype rfl
  map _ _ _ _ htype _ _ := .of_type (.of_path rfl) htype rfl
  union _ _ _ _ h := .plain (under_union List.prefix_rfl h) nofun
  unionField {_ _ _ _ _ _ p _ _ key _ _ _ _ _ _} _ _ htype hname _ _ h := by
    refine .entered hname htype (under_union ?_ h) (.inr ⟨rfl, rfl⟩)
    simp [Subject.keys, Place.keys, Place.member, Json.pasted]
  nested _ _ htype hname h := .entered hname htype h.under (.inl rfl)
  basic {_ d _ p _ name} _ _ htype _ := by
    have hplace : p.keys <+: (ownPlace d p).keys := by
      unfold ownPlace
      split_ifs
      · exact prefix_member p _
      · exact List.prefix_rfl
    refine ⟨under_filledFrom hplace (.trans (.of_path rfl) hplace), fun hkeyed => ?_⟩
    · obtain ⟨given, -, hname, hfield, -⟩ := Json.exists_of_isKeyed hkeyed
      rw [ownPlace_of_name hname hfield]
      exact ⟨given, _, _, hname, htype, .of_path rfl, .inl rfl⟩

theorem placed_upTo {n : Nat} {s t : Generator} (h : (Recursion.upTo n).encode d p σ s = (.ok a, t)) :
    Placed σ.store.cycles d p a := by
  induction n generalizing d p a s t with
  | zero => exact (throw_eq_ok.1 h).elim
  | succ n ih =>
    have hwriting : (pairing σ).Writing (· = ·) (fun _ _ => True) (fun _ name => σ.store.isCycleStarting name = true)
        (.upTo n) (.upTo n) (fun _ _ => True) (fun _ _ _ => True) (fun _ _ d _ p _ a _ => Placed σ.store.cycles d p a)
        fun _ _ d _ p _ a _ => Placed σ.store.cycles d p a :=
      { toPremises := .of_alike (fun hd => hd ▸ .refl _) (fun _ _ => trivial)
          (by rw [← Bool.not_eq_true]; exact fun hfixed => absurd (hdotted hfixed) (by decide))
          (fun _ _ _ _ _ _ _ _ _ hx _ => ⟨loads_of_load hx, fun _ => trivial⟩)
          fun _ _ _ hflag _ _ _ _ _ _ _ _ => hflag
        rules := placing hdotted
        encode := fun _ _ _ _ _ _ _ _ ha _ => ih ha
        guards := fun _ _ _ _ _ _ _ _ _ => trivial
        value := fun _ => trivial
        member := fun _ _ _ _ => trivial
        text := fun _ => ⟨fun _ => .inr fun ha _ => (throw_eq_ok.1 ha).elim,
          fun _ => .inr fun _ hb => (throw_eq_ok.1 hb).elim⟩ }
    exact hwriting.encodeStep (w := ()) (q := p) rfl trivial h h

end Gen

end AvroCodec
