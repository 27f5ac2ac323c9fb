import AvroCodec.Codec
import AvroCodec.Proofs.Bare
import AvroCodec.Proofs.Emitting
import AvroCodec.Proofs.Format

/-!
# Writers of forms

`Writer` relates a form to the code that writes its values from a place. Code for a recursive type hands
over to the function of the type. A branch of a union is written under the position of a type that is
the same.
-/

namespace AvroCodec

open Code

/-- What a union's value is at a place. -/
inductive Code.Subject.At (p : Place) : Subject → Prop
  | value : At p (.value p)
  | member {q : Place} {key : String} (hkey : Form.isFieldName key = true)
      (hp : p = q.member (.str key)) : At p (.member q key)

/-- Code that first puts in the default of a field, if there is one. -/
def Field.filling (field : Field Form) (p : Place) (e : Encoder) : Encoder :=
  match field.default with
  | none => e
  | some default => .filled p default e

namespace Form

/-- The tag of a branch that is given by its name alone. -/
def tag? : Form → Option String
  | .null => some "null"
  | .basic type => some type
  | .named name => some (literalText name)
  | _ => none

/-- Forms that are not unions or names, and do not have nothing as a value. -/
def IsSolid (f : Form) : Prop := ∃ kind, f.ownKind? = some kind ∧ kind ≠ .nothing

end Form

/-- Code that writes the values of a form from a place. -/
inductive Writer (env : String → Option Form) (known : String → Prop) :
    Form → Place → Encoder → Prop
  | null {p : Place} : Writer env known .null p .null
  | basic {p : Place} {type : String} (hb : Gen.isBasic type = true) :
      Writer env known (.basic type) p (.primitive type p)
  | defaulted {p : Place} {type : String} {default : Json} (hb : Gen.isBasic type = true) :
      Writer env known (.basic type) p (.filled p default (.primitive type p))
  | fixed {p : Place} {size : Nat} : Writer env known (.fixed size) p (.primitive "fixed" p)
  | enum {p : Place} {symbols : List String} :
      Writer env known (.enum symbols) p (.enum p (.arr (symbols.map .str)))
  | array {p : Place} {f : Form} {item : String} {body : Encoder}
      (h : Writer env known f (.of item) body) : Writer env known (.array f) p (.array p item body)
  | map {p : Place} {f : Form} {key value : String} {body : Encoder}
      (h : Writer env known f (.of value) body) : Writer env known (.map f) p (.map p key value body)
  | record {p : Place} {fields : List (Field Form)} (parts : List (Field Form × Encoder))
      (hfields : parts.map (·.1) = fields) (hnames : ∀ q ∈ parts, Form.isFieldName q.1.name = true)
      (hsolid : ∀ q ∈ parts, q.1.default ≠ none → q.1.type.IsSolid)
      (h : ∀ q ∈ parts, Writer env known q.1.type (p.member (.str q.1.name)) q.2) :
      Writer env known (.record fields) p
        (.fields (parts.map fun q => q.1.filling (p.member (.str q.1.name)) q.2))
  | union {p : Place} {branches : List Form} {subject : Subject} {tag data : String}
      (parts : List (Form × Branch Encoder)) (hsubject : subject.At p)
      (hmem : ∀ f, f ∈ branches ↔ f ∈ parts.map (·.1))
      (hindex : ∀ q ∈ parts, ∃ f, branches[q.2.index]? = some f ∧ f.bare = q.1.bare)
      (htag : ∀ q ∈ parts, ∀ t, q.1.tag? = some t → literalText q.2.tag = t)
      (hguard : ∀ q ∈ parts, Form.HasGuard env q.1 q.2.guard)
      (hplain : ∀ q ∈ parts, Writer env known q.1 p q.2.plain)
      (htagged : ∀ q ∈ parts, Writer env known q.1 (.of data) q.2.tagged) :
      Writer env known (.union branches) p (.union subject tag data (parts.map (·.2)))
  | named {p : Place} {name : String} {f : Form} {e : Encoder} (hn : env name = some f)
      (h : Writer env known f p e) : Writer env known (.named name) p e
  | recur {p : Place} {name : String} (hk : known name) :
      Writer env known (.named name) p (.recur name p)

/-- A table with a function that writes for every known name, which is the name of a record. -/
def WritesKnown (env : String → Option Form) (known : String → Prop)
    (table : List (String × Routine)) : Prop :=
  ∀ name, known name → ∃ fields routine, env name = some (.record fields) ∧
    Routine.function? table name = some routine ∧
      Writer env known (.record fields) (.of "data") routine.writer

namespace Code.Subject

variable {p : Place} {subject : Subject} {host x : Value}

theorem At.keys_eq (h : subject.At p) : subject.keys = p.keys := by
  cases h with
  | value => rfl
  | member hkey hp => rw [hp, Place.keys_member hkey, keys, literalText_of_isFieldName hkey]

theorem At.look_eq (h : subject.At p) (hwalk : host.walk p.keys = .ok x) :
    subject.look host = .ok x := by
  cases h with
  | value => exact hwalk
  | member hkey hp =>
    rw [hp, Place.keys_member hkey] at hwalk
    obtain ⟨entries, hentries, hx⟩ := Value.walk_concat_eq_ok hwalk
    simp only [look, hentries, bind, Except.bind, literalText_of_isFieldName hkey, hx]
    rfl

end Code.Subject

end AvroCodec
