import AvroCodec.Value
import AvroCodec.Wire.Fixed
import AvroCodec.Wire.Varint

/-!
# Types without parts

How values of the types without parts are written, and how they are read from the front of some bytes.
-/

namespace AvroCodec.Primitive

def names : List String :=
  ["boolean", "int", "long", "float", "double", "bytes", "string", "fixed"]

def isKnown (name : String) : Bool := names.contains name

def writeBoolean (v : Value) : List UInt8 := [if v.truthy then 1 else 0]

def writeInt (v : Value) : Except CodecError (List UInt8) :=
  match v.toInt? with
  | some n => Varint.encode n
  | none => .error .wrongKind

def writeBlock (data : List UInt8) : Except CodecError (List UInt8) := do
  return (← Varint.encode data.length) ++ data

/-- A value as a floating-point number: a number of any kind, if it is not too large an integer. -/
def numberOf (v : Value) : Except CodecError Binary.Number :=
  match v with
  | .float bits => .ok (Value.numberOf bits)
  | .decimal d => .ok (d.toNumber .double)
  | v =>
    match v.toInt? with
    | none => .error .wrongKind
    | some n =>
      match Binary.Number.ofInt .double n with
      | .infinite _ => .error .outOfRange
      | x => .ok x

def writeFloat (v : Value) : Except CodecError (List UInt8) := do
  let x ← numberOf v
  return Wire.littleEndian 4 ((x.convert .single).toBits .single)

def writeDouble (v : Value) : Except CodecError (List UInt8) :=
  match v with
  | .float bits => .ok (Wire.littleEndian 8 bits.toNat)
  | v => do return Wire.littleEndian 8 ((← numberOf v).toBits .double)

def writeBytes : Value → Except CodecError (List UInt8)
  | .bytes data => writeBlock data
  | _ => .error .wrongKind

def writeString : Value → Except CodecError (List UInt8)
  | .str s => writeBlock s.toUTF8.toList
  | _ => .error .wrongKind

/-- The bytes as they are. Their number is not looked at. -/
def writeFixed : Value → Except CodecError (List UInt8)
  | .bytes data | .buffer data => .ok data
  | _ => .error .wrongKind

def write (type : String) (v : Value) : Except CodecError (List UInt8) :=
  match type with
  | "boolean" => .ok (writeBoolean v)
  | "int" | "long" => writeInt v
  | "float" => writeFloat v
  | "double" => writeDouble v
  | "bytes" => writeBytes v
  | "string" => writeString v
  | "fixed" => writeFixed v
  | _ => .error .unsupported

def readBoolean : List UInt8 → Except CodecError (Value × List UInt8)
  | [] => .error .truncated
  | b :: rest => .ok (.bool (b != 0), rest)

def readInt (bytes : List UInt8) : Except CodecError (Value × List UInt8) := do
  let (n, rest) ← Varint.decode bytes
  return (.int n, rest)

/-- Four bytes are taken whether or not they are there. -/
def readFloat (bytes : List UInt8) : Except CodecError (Value × List UInt8) :=
  if bytes.length < 4 then .error .unchecked
  else
    let x := Binary.Number.ofBits .single (Wire.ofLittleEndian (bytes.take 4))
    .ok (.ofNumber (x.convert .double), bytes.drop 4)

def readDouble (bytes : List UInt8) : Except CodecError (Value × List UInt8) :=
  if bytes.length < 8 then .error .unchecked
  else .ok (.float (Wire.ofLittleEndian (bytes.take 8)).toUInt64, bytes.drop 8)

/-- So many bytes from the front, or what there is. A negative number asks for all. -/
def takeBytes (count : Int) (bytes : List UInt8) : List UInt8 × List UInt8 :=
  match count with
  | .ofNat n => (bytes.take n, bytes.drop n)
  | .negSucc _ => (bytes, [])

def readBlock (bytes : List UInt8) : Except CodecError (List UInt8 × List UInt8) := do
  let (n, rest) ← Varint.decode bytes
  return takeBytes n rest

def readBytes (bytes : List UInt8) : Except CodecError (Value × List UInt8) := do
  let (data, rest) ← readBlock bytes
  return (.bytes data, rest)

def readText (bytes : List UInt8) : Except CodecError (String × List UInt8) := do
  let (data, rest) ← readBlock bytes
  match String.fromUTF8? ⟨data.toArray⟩ with
  | some s => return (s, rest)
  | none => throw .notText

def readString (bytes : List UInt8) : Except CodecError (Value × List UInt8) := do
  let (s, rest) ← readText bytes
  return (.str s, rest)

/-- The size that a schema gives. Without a number all bytes are meant. -/
def sizeOf? (schema : Json) : Except CodecError Int :=
  match schema with
  | .obj members =>
    match Json.lookup "size" members with
    | none => .error (.missing (.str "size"))
    | some .null => .ok (-1)
    | some size =>
      match size.toInt? with
      | none => .error .wrongKind
      | some n =>
        if Varint.zigzag n < Varint.modulus then .ok n else .error .outOfRange
  | _ => .error .wrongKind

def readFixed (schema : Json) (bytes : List UInt8) : Except CodecError (Value × List UInt8) := do
  let (data, rest) := takeBytes (← sizeOf? schema) bytes
  return (.bytes data, rest)

/-- Reads a value of the type with a name. The schema tells a type of fixed size its size. -/
def read (type : String) (schema : Json) (bytes : List UInt8) :
    Except CodecError (Value × List UInt8) :=
  match type with
  | "boolean" => readBoolean bytes
  | "int" | "long" => readInt bytes
  | "float" => readFloat bytes
  | "double" => readDouble bytes
  | "bytes" => readBytes bytes
  | "string" => readString bytes
  | "fixed" => readFixed schema bytes
  | _ => .error .unsupported

end AvroCodec.Primitive
