import AvroCodec.Proofs.Kind
import AvroCodec.Proofs.Naming

/-!
# Schemas of the format

`Store.Format` says what a schema may be made of, through all the definitions it refers to. Names that do
not start a cycle stand for their definitions. A name that does is allowed for a record, anywhere but as
the type of a field.
-/

namespace AvroCodec

variable {store : Store} {recursive : String → Prop}

namespace Form

/-- The parts of a form, through the definitions of names. The index is false for a part that stands as
the type of a field. -/
inductive Part (env : String → Option Form) (root : Form) : Bool → Form → Prop
  | self : Part env root true root
  | items {g : Bool} {f : Form} (h : Part env root g (.array f)) : Part env root true f
  | values {g : Bool} {f : Form} (h : Part env root g (.map f)) : Part env root true f
  | field {g : Bool} {fields : List (Field Form)} {field : Field Form}
      (h : Part env root g (.record fields)) (hf : field ∈ fields) : Part env root false field.type
  | branch {g : Bool} {branches : List Form} {f : Form} (h : Part env root g (.union branches))
      (hf : f ∈ branches) : Part env root true f
  | definition {g : Bool} {name : String} {f : Form} (h : Part env root g (.named name))
      (hn : env name = some f) : Part env root g f

/-- Forms that have one kind each, and no two the same. -/
def Told (env : String → Option Form) (branches : List Form) : Prop :=
  ∃ (bound : Nat) (kinds : List Kind), branches.map (kindIn env bound) = kinds.map some ∧ kinds.Nodup

/-- In all unions the branches are of different kinds. -/
def Distinct (env : String → Option Form) (root : Form) : Prop :=
  ∀ (g : Bool) (branches : List Form), Part env root g (.union branches) → Told env branches

/-- The fields of every record have different names. -/
def NamesApart (env : String → Option Form) (root : Form) : Prop :=
  ∀ (g : Bool) (fields : List (Field Form)), Part env root g (.record fields) →
    (fields.map (·.name)).Nodup

theorem Told.index_eq {env : String → Option Form} {branches : List Form} (h : Told env branches)
    {i j : Nat} {f g : Form} (hi : branches[i]? = some f) (hj : branches[j]? = some g)
    (hkind : ∀ bound a b, kindIn env bound f = some a → kindIn env bound g = some b → a = b) :
    i = j := by
  obtain ⟨bound, kinds, hkinds, hnodup⟩ := h
  have hexists : ∀ (n : Nat) (e : Form), branches[n]? = some e → ∃ kind, kinds[n]? = some kind ∧
      kindIn env bound e = some kind := by
    intro n e hn
    have hn' : (kinds.map some)[n]? = some (kindIn env bound e) := by
      rw [← hkinds, List.getElem?_map, hn]
      rfl
    rw [List.getElem?_map, Option.map_eq_some_iff] at hn'
    obtain ⟨kind, hk, he⟩ := hn'
    exact ⟨kind, hk, he.symm⟩
  obtain ⟨a, ha, hfa⟩ := hexists i f hi
  obtain ⟨b, hb, hgb⟩ := hexists j g hj
  rw [← hkind bound a b hfa hgb, ← ha] at hb
  exact (List.getElem?_inj (List.getElem?_eq_some_iff.1 ha).1 hnodup).1 hb.symm

end Form

/-- What a schema may be made of. -/
structure Store.Format (store : Store) (recursive : String → Prop) (root : Form) : Prop where
  null : ∀ {g : Bool}, Form.Part store.form? root g .null → store.isCycleStarting "null" = false
  named : ∀ {g : Bool} {name : String}, Form.Part store.form? root g (.named name) →
    (store.isCycleStarting name = false ∧ ∃ f, store.form? name = some f) ∨
      (g = true ∧ recursive name ∧ ∃ fields, store.form? name = some (.record fields))

namespace Form

variable {f root : Form} {env : String → Option Form}

def isRecord : Form → Bool
  | .record _ => true
  | _ => false

def inner (env : String → Option Form) : Bool × Form → List (Bool × Form)
  | (_, .array f) | (_, .map f) => [(true, f)]
  | (_, .record fields) => fields.map fun field => (false, field.type)
  | (_, .union branches) => branches.map fun f => (true, f)
  | (g, .named name) => ((env name).map fun f => (g, f)).toList
  | _ => []

theorem Part.mem {parts : List (Bool × Form)} (hroot : (true, root) ∈ parts)
    (hinner : ∀ q ∈ parts, ∀ q' ∈ inner env q, q' ∈ parts) {g : Bool} (h : Part env root g f) : (g, f) ∈ parts := by
  induction h with
  | self => exact hroot
  | items _ ih => exact hinner _ ih _ List.mem_cons_self
  | values _ ih => exact hinner _ ih _ List.mem_cons_self
  | @field g fields field _ hf ih =>
    exact hinner _ ih _ (List.mem_map_of_mem (f := fun field => (false, field.type)) hf)
  | @branch g branches f _ hf ih =>
    exact hinner _ ih _ (List.mem_map_of_mem (f := fun f => (true, f)) hf)
  | definition _ hn ih => exact hinner _ ih _ (by simp [inner, hn])

/-- The parts of a form that is not a record are those of what is one step inside it, besides itself. -/
theorem Part.of_root (hroot : ∀ q ∈ inner env (true, root), q.1 = true) {g : Bool} (h : Part env root g f) :
    (g = true ∧ f = root) ∨ ∃ q ∈ inner env (true, root), Part env q.2 g f := by
  induction h with
  | self => exact .inl ⟨rfl, rfl⟩
  | @items g f _ ih =>
    rcases ih with ⟨-, rfl⟩ | ⟨q, hq, h⟩
    · exact .inr ⟨(true, f), List.mem_cons_self, .self⟩
    · exact .inr ⟨q, hq, h.items⟩
  | @values g f _ ih =>
    rcases ih with ⟨-, rfl⟩ | ⟨q, hq, h⟩
    · exact .inr ⟨(true, f), List.mem_cons_self, .self⟩
    · exact .inr ⟨q, hq, h.values⟩
  | @field g fields field _ hf ih =>
    rcases ih with ⟨-, rfl⟩ | ⟨q, hq, h⟩
    · have hfalse := hroot _ (List.mem_map_of_mem (f := fun field => (false, field.type)) hf)
      cases hfalse
    · exact .inr ⟨q, hq, h.field hf⟩
  | @branch g branches f _ hf ih =>
    rcases ih with ⟨-, rfl⟩ | ⟨q, hq, h⟩
    · exact .inr ⟨(true, f), List.mem_map_of_mem (f := fun f => (true, f)) hf, .self⟩
    · exact .inr ⟨q, hq, h.branch hf⟩
  | @definition g name f _ hn ih =>
    rcases ih with ⟨rfl, rfl⟩ | ⟨q, hq, h⟩
    · exact .inr ⟨(true, f), by simp [inner, hn], .self⟩
    · exact .inr ⟨q, hq, h.definition hn⟩

end Form

theorem Store.Format.of_root {root : Form} (hroot : ∀ q ∈ Form.inner store.form? (true, root), q.1 = true)
    (h : ∀ q ∈ Form.inner store.form? (true, root), store.Format recursive q.2) (hnull : root ≠ .null)
    (hnamed : ∀ name, root = .named name →
      recursive name ∧ ∃ fields, store.form? name = some (.record fields)) :
    store.Format recursive root where
  null hpart := by
    rcases hpart.of_root hroot with ⟨-, he⟩ | ⟨q, hq, hpart⟩
    · exact absurd he.symm hnull
    · exact (h q hq).null hpart
  named hpart := by
    rcases hpart.of_root hroot with ⟨hg, he⟩ | ⟨q, hq, hpart⟩
    · exact .inr ⟨hg, hnamed _ he.symm⟩
    · exact (h q hq).named hpart

theorem Store.Format.array {f : Form} (h : store.Format recursive f) : store.Format recursive (.array f) :=
  .of_root (by simp [Form.inner]) (by simpa [Form.inner] using h) (by simp) (by simp)

theorem Store.Format.map {f : Form} (h : store.Format recursive f) : store.Format recursive (.map f) :=
  .of_root (by simp [Form.inner]) (by simpa [Form.inner] using h) (by simp) (by simp)

theorem Store.Format.union {branches : List Form}
    (h : ∀ f ∈ branches, store.Format recursive f) : store.Format recursive (.union branches) :=
  .of_root (by simp [Form.inner]) (by simpa [Form.inner] using h) (by simp) (by simp)

theorem Store.Format.named_record {name : String} {fields : List (Field Form)} (hname : recursive name)
    (hform : store.form? name = some (.record fields)) (h : store.Format recursive (.record fields)) :
    store.Format recursive (.named name) := by
  refine .of_root (by simp [Form.inner]) (by simpa [Form.inner, hform] using h) (by simp) ?_
  intro name' he
  cases he
  exact ⟨hname, fields, hform⟩

namespace Store

/-- Whether a part may stand in a schema. -/
def allows (store : Store) (recursive : String → Prop) [DecidablePred recursive] : Bool × Form → Bool
  | (_, .null) => !store.isCycleStarting "null"
  | (g, .named name) =>
    (!store.isCycleStarting name && (store.form? name).isSome) ||
      (g && decide (recursive name) && (store.form? name).any Form.isRecord)
  | _ => true

theorem format_of_parts [DecidablePred recursive] {root : Form} (parts : List (Bool × Form))
    (hroot : (true, root) ∈ parts) (hinner : ∀ q ∈ parts, ∀ q' ∈ Form.inner store.form? q, q' ∈ parts)
    (hallows : ∀ q ∈ parts, store.allows recursive q = true) : store.Format recursive root where
  null h := by
    have hallowed := hallows _ (h.mem hroot hinner)
    simpa [allows] using hallowed
  named {g name} h := by
    have hallowed := hallows _ (h.mem hroot hinner)
    cases hf : store.form? name with
    | none => simp [allows, hf] at hallowed
    | some f =>
      simp only [allows, hf, Option.isSome_some, Option.any_some, Bool.or_eq_true, Bool.and_eq_true,
        Bool.not_eq_true', decide_eq_true_eq] at hallowed
      rcases hallowed with ⟨hcycle, -⟩ | ⟨⟨hg, hrecursive⟩, hrecord⟩
      · exact .inl ⟨hcycle, f, rfl⟩
      · cases f with
        | record fields => exact .inr ⟨hg, hrecursive, fields, rfl⟩
        | _ => cases hrecord

end Store

namespace Form

variable {env : String → Option Form} {root : Form}

/-- Whether the branches of a union have kinds, and no two the same. Names are followed up to a bound. -/
def tells (env : String → Option Form) (bound : Nat) : Form → Bool
  | .union branches =>
    (branches.map (kindIn env bound)).all Option.isSome && decide (branches.map (kindIn env bound)).Nodup
  | _ => true

theorem exists_map_some {α : Type} {os : List (Option α)} (h : os.all Option.isSome = true) :
    ∃ xs : List α, os = xs.map some := by
  induction os with
  | nil => exact ⟨[], rfl⟩
  | cons o os ih =>
    rw [List.all_cons, Bool.and_eq_true] at h
    obtain ⟨x, rfl⟩ := Option.isSome_iff_exists.1 h.1
    obtain ⟨xs, rfl⟩ := ih h.2
    exact ⟨x :: xs, rfl⟩

theorem distinct_of_parts (bound : Nat) (parts : List (Bool × Form)) (hroot : (true, root) ∈ parts)
    (hinner : ∀ q ∈ parts, ∀ q' ∈ inner env q, q' ∈ parts)
    (htells : ∀ q ∈ parts, tells env bound q.2 = true) : Distinct env root := by
  intro g branches h
  have htold := htells _ (h.mem hroot hinner)
  simp only [tells, Bool.and_eq_true, decide_eq_true_eq] at htold
  obtain ⟨hsome, hnodup⟩ := htold
  obtain ⟨kinds, hkinds⟩ := exists_map_some hsome
  rw [hkinds, List.Nodup, List.pairwise_map] at hnodup
  exact ⟨bound, kinds, hkinds, hnodup.imp fun hne he => hne (congrArg some he)⟩

end Form

end AvroCodec
