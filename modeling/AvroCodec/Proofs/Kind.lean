import AvroCodec.Codec.Write
import AvroCodec.Generator.Guard
import AvroCodec.Proofs.Form

/-!
# Kinds of values

A union is told by the kind of its value: each guard lets values of one kind pass only. A form that is
not a union has one kind, which is found through the definitions that it names.
-/

namespace AvroCodec

open Code

/-- What a value can be told from another by. -/
inductive Kind where
  | nothing
  | bool
  | int
  | float
  | str
  | bytes
  | list
  | dict
deriving DecidableEq

def Value.kind? : Value → Option Kind
  | .null => some .nothing
  | .bool _ => some .bool
  | .int _ => some .int
  | .float _ => some .float
  | .str _ => some .str
  | .bytes _ => some .bytes
  | .list _ => some .list
  | .map _ => some .dict
  | _ => none

namespace Form

def basicKind? (type : String) : Option Kind :=
  match type with
  | "boolean" => some .bool
  | "int" | "long" => some .int
  | "float" | "double" => some .float
  | "bytes" => some .bytes
  | "string" => some .str
  | _ => none

def ownKind? : Form → Option Kind
  | .null => some .nothing
  | .basic type => basicKind? type
  | .fixed _ => some .bytes
  | .enum _ => some .str
  | .array _ => some .list
  | .map _ | .record _ => some .dict
  | .union _ | .named _ => none

/-- The kind of a form, through at most so many names. -/
def kindIn (env : String → Option Form) : Nat → Form → Option Kind
  | bound + 1, .named name => (env name).bind (kindIn env bound)
  | _, f => f.ownKind?

/-- The guard of a branch with this form. -/
inductive HasGuard (env : String → Option Form) : Form → Guard → Prop
  | null : HasGuard env .null .isNull
  | basic {type name : String} (hb : Gen.isBasic type = true) (h : valueType? (.str type) = some name) :
      HasGuard env (.basic type) (.hasType name)
  | fixed (size : Nat) : HasGuard env (.fixed size) (.hasType "bytes")
  | enum (symbols : List String) : HasGuard env (.enum symbols) (.isSymbol (.arr (symbols.map .str)))
  | array (items : Form) : HasGuard env (.array items) (.hasType "list")
  | map (values : Form) : HasGuard env (.map values) (.hasType "dict")
  | record (fields : List (Field Form)) : HasGuard env (.record fields) (.hasType "dict")
  | named {name : String} {f : Form} {g : Guard} (hn : env name = some f) (h : HasGuard env f g) :
      HasGuard env (.named name) g

end Form

/-- Whether a guard lets the value itself pass. -/
def Code.Guard.accepts (x : Value) : Guard → Bool
  | isNull => x.isNull
  | hasType name => x.hasType name
  | isSymbol symbols => x.isStr && isAmong symbols x
  | prepared _ => false

namespace Form

variable {env : String → Option Form} {g : Guard} {x : Value}

theorem HasGuard.passes_eq {f : Form} (h : HasGuard env f g) {subject : Subject} {v : Value}
    (hlook : subject.look v = .ok x) (hwalk : v.walk subject.keys = .ok x) :
    g.passes subject v = .ok (g.accepts x) := by
  induction h with
  | null =>
    rw [Guard.passes, hlook]
    rfl
  | named _ _ ih => exact ih
  | _ =>
    rw [Guard.passes, hwalk]
    rfl

theorem basicKind?_of_hasType {type name : String} (hb : Gen.isBasic type = true)
    (h : valueType? (.str type) = some name) : x.hasType name = true ↔ x.kind? = basicKind? type := by
  rcases mem_basicTypes hb with rfl | rfl | rfl | rfl | rfl | rfl | rfl <;> cases h <;> cases x <;>
    simp [Value.hasType, Value.kind?, basicKind?]

theorem HasGuard.kind?_of_accepts {f : Form} {kind : Kind} {bound : Nat} (h : HasGuard env f g)
    (hk : kindIn env bound f = some kind) (hx : g.accepts x = true) : x.kind? = some kind := by
  induction h generalizing bound with
  | null =>
    cases x <;> simp_all [Guard.accepts, Value.isNull, kindIn, ownKind?, Value.kind?]
  | basic hb h =>
    rw [kindIn, ownKind?] at hk
    · rw [← hk]
      exact (basicKind?_of_hasType hb h).1 hx
    · simp
  | enum symbols =>
    cases x <;> simp_all [Guard.accepts, Value.isStr, kindIn, ownKind?, Value.kind?]
  | named hn _ ih =>
    cases bound with
    | zero => cases hk
    | succ bound =>
      rw [kindIn, hn] at hk
      exact ih hk hx
  | _ =>
    cases x <;> simp_all [Guard.accepts, Value.hasType, kindIn, ownKind?, Value.kind?]

end Form

end AvroCodec
