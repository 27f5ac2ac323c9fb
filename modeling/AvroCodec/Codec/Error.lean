import AvroCodec.Json

/-!
# Failures of writing and reading

Writing and reading fail by what they raise, with two exceptions. Functions may call one another without end,
and some accesses are not checked: nothing is raised then, and nothing is known of what comes out.
-/

namespace AvroCodec

/-- Why there is no result that anything is known of. -/
inductive CodecError where
  /-- A value is not of a kind that can stand here. -/
  | wrongKind
  /-- An entry that should be there is not. -/
  | missing (key : Json)
  /-- A value does not offer the operation that is asked of it. -/
  | unsupported
  /-- A number or a point in time is too large or too small. -/
  | outOfRange
  /-- A value of the right kind does not stand for anything here. -/
  | invalid
  /-- A decimal has more places than its schema allows. -/
  | scaleMismatch
  /-- A decimal is larger than any that there is. -/
  | tooLarge
  /-- A decimal is to be shifted further than decimals can be. -/
  | shiftedTooFar
  /-- The bytes ended where an item was to begin. -/
  | exhausted
  /-- The bytes ended inside an item. -/
  | truncated
  /-- Bytes are not the encoding of a text. -/
  | notText
  /-- A variable is used that nothing was read to. -/
  | unset
  /-- A value that is not a dictionary is taken for one. -/
  | notDictionary
  /-- Functions call one another without end. -/
  | endless
  /-- Something is used without a check that it is there: memory after the end of bytes or of a list, or bits
  that an integer does not have. -/
  | unchecked
deriving Inhabited

def CodecError.isRaised : CodecError → Bool
  | endless | unchecked => false
  | _ => true

end AvroCodec
