import AvroCodec.Generator.State
import AvroCodec.Proofs.Wire
import Mathlib.Data.List.Forall2

/-!
# Forms of schemas

A `Form` is a schema without its notation: the type that a document describes, whatever the order of its
members and whatever members it has that say nothing about values. `form?` gives the form of a document.
Documents with logical types have none, and neither have documents that are no schema.

References stay references in a form. `Store.form?` is the form of the definition that is stored under
a name.
-/

namespace AvroCodec

open Json

variable {members : Members}

/-- A field of a record, with the default that is put in where nothing is. -/
@[ext]
structure Field (α : Type) where
  name : String
  default : Option Json
  type : α

inductive Form where
  | null
  | basic (type : String)
  | fixed (size : Nat)
  | enum (symbols : List String)
  | array (items : Form)
  | map (values : Form)
  | record (fields : List (Field Form))
  | union (branches : List Form)
  | named (name : String)

namespace Form

mutual

def identical : Form → Form → Bool
  | .null, .null => true
  | .basic s, .basic t => s == t
  | .fixed m, .fixed n => m == n
  | .enum ss, .enum ts => ss == ts
  | .array f, .array g => identical f g
  | .map f, .map g => identical f g
  | .record fs, .record gs => identicalFields fs gs
  | .union fs, .union gs => identicalBranches fs gs
  | .named m, .named n => m == n
  | _, _ => false

def identicalFields : List (Field Form) → List (Field Form) → Bool
  | [], [] => true
  | ⟨m, c, f⟩ :: fs, ⟨n, d, g⟩ :: gs =>
    m == n && c == d && identical f g && identicalFields fs gs
  | _, _ => false

def identicalBranches : List Form → List Form → Bool
  | [], [] => true
  | f :: fs, g :: gs => identical f g && identicalBranches fs gs
  | _, _ => false

end

mutual

theorem identical_iff : ∀ f g : Form, identical f g = true ↔ f = g
  | .null, g => by cases g <;> simp [identical]
  | .basic _, g => by cases g <;> simp [identical]
  | .fixed _, g => by cases g <;> simp [identical]
  | .enum _, g => by cases g <;> simp [identical]
  | .array f, g => by cases g <;> simp [identical, identical_iff f]
  | .map f, g => by cases g <;> simp [identical, identical_iff f]
  | .record fs, g => by cases g <;> simp [identical, identicalFields_iff fs]
  | .union fs, g => by cases g <;> simp [identical, identicalBranches_iff fs]
  | .named _, g => by cases g <;> simp [identical]

theorem identicalFields_iff :
    ∀ fs gs : List (Field Form), identicalFields fs gs = true ↔ fs = gs
  | [], gs => by cases gs <;> simp [identicalFields]
  | ⟨m, c, f⟩ :: fs, gs => by
    cases gs <;>
      simp [identicalFields, identical_iff f, identicalFields_iff fs, Field.ext_iff, and_assoc]

theorem identicalBranches_iff : ∀ fs gs : List Form, identicalBranches fs gs = true ↔ fs = gs
  | [], gs => by cases gs <;> simp [identicalBranches]
  | f :: fs, gs => by
    cases gs <;> simp [identicalBranches, identical_iff f, identicalBranches_iff fs]

end

instance : DecidableEq Form := fun f g => decidable_of_iff _ (identical_iff f g)

theorem mem_basicTypes {type : String} (h : Gen.isBasic type = true) :
    type = "boolean" ∨ type = "int" ∨ type = "long" ∨ type = "float" ∨ type = "double" ∨
      type = "bytes" ∨ type = "string" := by
  simpa [Gen.isBasic, Gen.basicTypes] using h

/-- The form of a type that is given by its name alone. -/
def ofName (s : String) : Option Form :=
  if s = "null" then some .null
  else if Gen.isBasic s then some (.basic s)
  else if Schema.hasDot s then some (.named s)
  else none

def symbols? : Json → Option (List String)
  | .arr items => items.mapM fun item => match item with
    | .str s => some s
    | _ => none
  | _ => none

def size? : Json → Option Nat
  | .int (.ofNat n) => if n < Varint.limit then some n else none
  | _ => none

/-- The form of an object from its members and the forms of what is inside. -/
def ofMembers (members : Members) (items values : Option Form)
    (fields : Option (List (Field Form))) : Option Form :=
  if (lookup "logicalType" members).isSome then none
  else
    match lookup "type" members with
    | some (.str "record") => fields.map .record
    | some (.str "array") => items.map .array
    | some (.str "map") => values.map .map
    | some (.str "enum") => ((lookup "symbols" members).bind symbols?).map .enum
    | some (.str "fixed") => ((lookup "size" members).bind size?).map .fixed
    | some (.str s) =>
      if Gen.isBasic s && !((lookup "name" members).getD .null).truthy then some (.basic s)
      else none
    | _ => none

/-- The default of a field, if one is ever put in. -/
def givenDefault (members : Members) : Option Json :=
  let given := (lookup "default" members).filter (· ≠ .null)
  match lookup "type" members with
  | some (.obj _) => given
  | some (.str s) => if Gen.isBasic s then given else none
  | _ => none

/-- Whether a text can be the name of a field: it is not empty and has no escapes. -/
def isFieldName (s : String) : Bool := s != "" && !Text.hasChar '\\' s

def fieldOf (members : Members) (type : Option Form) : Option (Field Form) :=
  match lookup "name" members with
  | some (.str name) =>
    if isFieldName name && (lookup "logicalType" members).isNone then
      type.map fun f => ⟨name, givenDefault members, f⟩
    else none
  | _ => none

end Form

mutual

/-- The form that a document describes. -/
def form? : Json → Option Form
  | .str s => Form.ofName s
  | .arr types => (forms? types).map .union
  | .obj members =>
    Form.ofMembers members (formAt "items" members) (formAt "values" members) (fieldsAt members)
  | _ => none

def forms? : List Json → Option (List Form)
  | [] => some []
  | t :: ts => do return (← form? t) :: (← forms? ts)

def formAt (key : String) : List (String × Json) → Option Form
  | [] => none
  | (k, x) :: rest => if k = key then form? x else formAt key rest

def fieldsAt : List (String × Json) → Option (List (Field Form))
  | [] => none
  | (k, x) :: rest => if k = "fields" then fields? x else fieldsAt rest

def fields? : Json → Option (List (Field Form))
  | .arr items => fieldList? items
  | _ => none

def fieldList? : List Json → Option (List (Field Form))
  | [] => some []
  | x :: xs => do return (← field? x) :: (← fieldList? xs)

def field? : Json → Option (Field Form)
  | .obj members => Form.fieldOf members (formAt "type" members)
  | _ => none

end

theorem formAt_eq (key : String) (members : Members) :
    formAt key members = (lookup key members).bind form? := by
  induction members with
  | nil => rfl
  | cons m rest ih =>
    obtain ⟨k, x⟩ := m
    by_cases hk : k = key
    · simp [formAt, lookup, hk]
    · simp [formAt, lookup, hk, ih]

theorem fieldsAt_eq (members : Members) :
    fieldsAt members = (lookup "fields" members).bind fields? := by
  induction members with
  | nil => rfl
  | cons m rest ih =>
    obtain ⟨k, x⟩ := m
    by_cases hk : k = "fields"
    · simp [fieldsAt, lookup, hk]
    · simp [fieldsAt, lookup, hk, ih]

theorem mapM_eq_some_iff {α β : Type} {f : α → Option β} {xs : List α} {ys : List β} :
    xs.mapM f = some ys ↔ List.Forall₂ (fun x y => f x = some y) xs ys := by
  induction xs generalizing ys with
  | nil => simp [eq_comm]
  | cons x xs ih =>
    rw [List.forall₂_cons_left_iff]
    simp only [List.mapM_cons, Option.pure_def, Option.bind_eq_bind, Option.bind_eq_some_iff, ih,
      Option.some.injEq]
    constructor
    · rintro ⟨y, hy, ys, hys, rfl⟩
      exact ⟨y, ys, hy, hys, rfl⟩
    · rintro ⟨y, ys, hy, hys, rfl⟩
      exact ⟨y, hy, ys, hys, rfl⟩

theorem forms?_eq_mapM (types : List Json) : forms? types = types.mapM form? := by
  induction types with
  | nil => rfl
  | cons t ts ih => simp [forms?, ih]

theorem fieldList?_eq_mapM (items : List Json) : fieldList? items = items.mapM field? := by
  induction items with
  | nil => rfl
  | cons x xs ih => simp [fieldList?, ih]

theorem forms?_eq_some_iff {types : List Json} {forms : List Form} :
    forms? types = some forms ↔ List.Forall₂ (fun t f => form? t = some f) types forms := by
  rw [forms?_eq_mapM, mapM_eq_some_iff]

theorem fieldList?_eq_some_iff {items : List Json} {fields : List (Field Form)} :
    fieldList? items = some fields ↔ List.Forall₂ (fun x f => field? x = some f) items fields := by
  rw [fieldList?_eq_mapM, mapM_eq_some_iff]

theorem Form.symbols?_eq_some {symbols : Json} {names : List String}
    (h : Form.symbols? symbols = some names) : symbols = .arr (names.map .str) := by
  unfold Form.symbols? at h
  split at h
  · rename_i items
    rw [mapM_eq_some_iff] at h
    congr 1
    induction h with
    | nil => rfl
    | cons hx _ ih =>
      split at hx
      · cases hx
        rw [ih]
        rfl
      · cases hx
  · cases h

theorem Form.size?_eq_some {size : Json} {n : Nat} (h : Form.size? size = some n) :
    size = .int n ∧ n < Varint.limit := by
  unfold Form.size? at h
  split at h
  · split_ifs at h with hn
    cases h
    exact ⟨rfl, hn⟩
  · cases h

/-- What the members of an object say if it has a form. -/
inductive Describes (members : Members) : Form → Prop
  | record {items : List Json} {fields : List (Field Form)}
      (ht : lookup "type" members = some (.str "record"))
      (hf : lookup "fields" members = some (.arr items))
      (h : List.Forall₂ (fun x f => field? x = some f) items fields) :
      Describes members (.record fields)
  | array {items : Json} {f : Form} (ht : lookup "type" members = some (.str "array"))
      (hi : lookup "items" members = some items) (h : form? items = some f) :
      Describes members (.array f)
  | map {values : Json} {f : Form} (ht : lookup "type" members = some (.str "map"))
      (hv : lookup "values" members = some values) (h : form? values = some f) :
      Describes members (.map f)
  | enum {names : List String} (ht : lookup "type" members = some (.str "enum"))
      (hs : lookup "symbols" members = some (.arr (names.map .str))) :
      Describes members (.enum names)
  | fixed {n : Nat} (ht : lookup "type" members = some (.str "fixed"))
      (hs : lookup "size" members = some (.int n)) (hn : n < Varint.limit) :
      Describes members (.fixed n)
  | basic {s : String} (ht : lookup "type" members = some (.str s)) (hb : Gen.isBasic s = true)
      (hn : ((lookup "name" members).getD .null).truthy = false) : Describes members (.basic s)

theorem describes_of_form? {f : Form}
    (h : form? (.obj members) = some f) :
    lookup "logicalType" members = none ∧ Describes members f := by
  rw [form?, Form.ofMembers] at h
  split_ifs at h with hl
  refine ⟨by simpa using hl, ?_⟩
  rw [formAt_eq, formAt_eq, fieldsAt_eq] at h
  split at h
  · rename_i ht
    simp only [Option.map_eq_some_iff, Option.bind_eq_some_iff] at h
    obtain ⟨fields, ⟨x, hx, hfields⟩, rfl⟩ := h
    cases x with
    | arr items => exact .record ht hx (fieldList?_eq_some_iff.1 hfields)
    | _ => cases hfields
  · rename_i ht
    simp only [Option.map_eq_some_iff, Option.bind_eq_some_iff] at h
    obtain ⟨g, ⟨x, hx, hg⟩, rfl⟩ := h
    exact .array ht hx hg
  · rename_i ht
    simp only [Option.map_eq_some_iff, Option.bind_eq_some_iff] at h
    obtain ⟨g, ⟨x, hx, hg⟩, rfl⟩ := h
    exact .map ht hx hg
  · rename_i ht
    simp only [Option.map_eq_some_iff, Option.bind_eq_some_iff] at h
    obtain ⟨names, ⟨x, hx, hs⟩, rfl⟩ := h
    exact .enum ht (Form.symbols?_eq_some hs ▸ hx)
  · rename_i ht
    simp only [Option.map_eq_some_iff, Option.bind_eq_some_iff] at h
    obtain ⟨n, ⟨x, hx, hs⟩, rfl⟩ := h
    obtain ⟨rfl, hn⟩ := Form.size?_eq_some hs
    exact .fixed ht hx hn
  · rename_i ht
    split_ifs at h with hb
    cases h
    rw [Bool.and_eq_true, Bool.not_eq_true'] at hb
    exact .basic ht hb.1 hb.2
  · cases h

theorem form?_of_describes {f : Form}
    (hl : lookup "logicalType" members = none) (h : Describes members f) :
    form? (.obj members) = some f := by
  rw [form?, Form.ofMembers, hl, formAt_eq, formAt_eq, fieldsAt_eq]
  cases h with
  | record ht hf h =>
    simp only [ht, hf, Option.bind_some, fields?, fieldList?_eq_some_iff.2 h]
    rfl
  | array ht hi h => simp only [ht, hi, Option.bind_some, h]; rfl
  | map ht hv h => simp only [ht, hv, Option.bind_some, h]; rfl
  | enum ht hs =>
    have hsymbols : ∀ names : List String, Form.symbols? (.arr (names.map .str)) = some names := by
      intro names
      rw [Form.symbols?, mapM_eq_some_iff, List.forall₂_map_left_iff]
      exact List.forall₂_same.2 fun _ _ => rfl
    simp only [ht, hs, Option.bind_some, hsymbols]
    rfl
  | fixed ht hs hn =>
    simp only [ht, hs, Option.bind_some]
    change (Option.map Form.fixed (if _ < Varint.limit then _ else none)) = _
    rw [if_pos hn]
    rfl
  | @basic s ht hb hn =>
    rcases Form.mem_basicTypes hb with rfl | rfl | rfl | rfl | rfl | rfl | rfl <;> simp only [ht, hn] <;> rfl

theorem field?_eq_some_iff {field : Field Form} :
    field? (.obj members) = some field ↔
      lookup "name" members = some (.str field.name) ∧ Form.isFieldName field.name = true ∧
      lookup "logicalType" members = none ∧ Form.givenDefault members = field.default ∧
      ∃ type, lookup "type" members = some type ∧ form? type = some field.type := by
  rw [field?, Form.fieldOf, formAt_eq]
  constructor
  · intro h
    split at h
    · rename_i name hname
      split_ifs at h with hc
      simp only [Bool.and_eq_true, Option.isNone_iff_eq_none] at hc
      simp only [Option.map_eq_some_iff, Option.bind_eq_some_iff] at h
      obtain ⟨f, ⟨type, htype, hf⟩, rfl⟩ := h
      exact ⟨hname, hc.1, hc.2, rfl, type, htype, hf⟩
    · cases h
  · rintro ⟨hname, hfield, hlogical, hdefault, type, htype, hf⟩
    simp [hname, hfield, hlogical, hdefault, htype, hf]

def Store.form? (store : Store) (name : String) : Option Form :=
  (lookup name store.database).bind AvroCodec.form?

end AvroCodec
