import AvroCodec.Code.Logical
import AvroCodec.Logical.Clock
import AvroCodec.Logical.Decimal

/-!
# Logical types

The logical types that can be written and read, and what is done to a value before it is written as the
underlying type and after it was read as it.
-/

namespace AvroCodec

inductive LogicalKind where
  | date
  | uuid
  | timestampMillis
  | timestampMicros
  | timeMillis
  | timeMicros
  | decimal
deriving DecidableEq

namespace LogicalKind

def ofName? (name : String) : Option LogicalKind :=
  match name with
  | "date" => some date
  | "uuid" => some uuid
  | "timestamp_millis" => some timestampMillis
  | "timestamp_micros" => some timestampMicros
  | "time_millis" => some timeMillis
  | "time_micros" => some timeMicros
  | "decimal" => some decimal
  | _ => none

end LogicalKind

namespace Code.Logical

open AvroCodec.Logical

def param (l : Logical) (name : String) : Json := (Json.lookup name l.params).getD .null

def prepareUuid : Value → Except CodecError Value
  | .uuid u => .ok (.str u.text)
  | v => .ok v

def readUuid : Value → Except CodecError Value
  | .str s =>
    match Uuid.parse? s with
    | some u => .ok (.uuid u)
    | none => .error .invalid
  | .bool _ | .int _ | .float _ => .error .unsupported
  | _ => .error .wrongKind

def prepare (l : Logical) (v : Value) : Except CodecError Value :=
  match LogicalKind.ofName? l.kind with
  | some .date => prepareDate v
  | some .uuid => prepareUuid v
  | some .timestampMillis => prepareTimestamp 1000 v
  | some .timestampMicros => prepareTimestamp 1000000 v
  | some .timeMillis => prepareMillis v
  | some .timeMicros => prepareMicros v
  | some .decimal =>
    if l.base.isStr "fixed" then prepareFixedDecimal (l.param "scale") (l.param "size") v
    else prepareBytesDecimal (l.param "scale") v
  | none => .error .unsupported

def interpret (l : Logical) (v : Value) : Except CodecError Value :=
  match LogicalKind.ofName? l.kind with
  | some .date => readDate v
  | some .uuid => readUuid v
  | some .timestampMillis => readTimestamp 1000 v
  | some .timestampMicros => readTimestamp 1000000 v
  | some .timeMillis => readMillis v
  | some .timeMicros => readMicros v
  | some .decimal => readDecimal (l.param "scale") (l.param "precision") v
  | none => .error .unsupported

end Code.Logical

end AvroCodec
