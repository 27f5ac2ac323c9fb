import AvroCodec.Codec.Error

/-!
# Integers of variable length

An integer is folded to a natural number, so that numbers near zero stay small on either side, and
the number is written in groups of seven bits, the lowest first. Every byte but the last has its high
bit set. Integers have 64 bits: larger ones cannot be written, and what is read is reduced to them.
`zigzag` is the number that an integer is folded to, and `unzigzag` unfolds it.
-/

namespace AvroCodec.Varint

/-- Integers from zero outwards: 0, -1, 1, -2, 2, and so on. -/
def zigzag : Int → Nat
  | .ofNat n => 2 * n
  | .negSucc n => 2 * n + 1

def unzigzag (n : Nat) : Int :=
  if n % 2 = 0 then .ofNat (n / 2) else .negSucc (n / 2)

theorem unzigzag_zigzag (n : Int) : unzigzag (zigzag n) = n := by
  cases n with
  | ofNat n => simp [zigzag, unzigzag]
  | negSucc n =>
    have hm : (2 * n + 1) % 2 = 1 := by omega
    have hd : (2 * n + 1) / 2 = n := by omega
    simp [zigzag, unzigzag, hm, hd]

theorem zigzag_unzigzag (n : Nat) : zigzag (unzigzag n) = n := by
  unfold unzigzag
  split <;> simp only [zigzag] <;> omega

def modulus : Nat := Nat.pow 2 64

/-- The number at the start of some bytes and the bytes after it, unless they end inside it. -/
def ungroup? : List UInt8 → Option (Nat × List UInt8)
  | [] => none
  | b :: rest =>
    if b.toNat < 128 then some (b.toNat, rest)
    else (ungroup? rest).map fun p => (b.toNat - 128 + 128 * p.1, p.2)

/-- Exclusive or of integers of any size, in two's complement. -/
def xor : Int → Int → Int
  | .ofNat m, .ofNat n => .ofNat (m ^^^ n)
  | .ofNat m, .negSucc n => .negSucc (m ^^^ n)
  | .negSucc m, .ofNat n => .negSucc (m ^^^ n)
  | .negSucc m, .negSucc n => .ofNat (m ^^^ n)

/-- An integer as a word of 64 bits without a sign, if there is one. -/
def toWord? : Int → Option UInt64
  | .ofNat n => if n < modulus then some n.toUInt64 else none
  | .negSucc _ => none

/-- The groups of seven bits of a word. -/
def septets (word : UInt64) : List UInt8 :=
  if word &&& ~~~0x7f = 0 then [word.toUInt8]
  else ((word &&& 0x7f) ||| 0x80).toUInt8 :: septets (word >>> 7)
termination_by word.toNat
decreasing_by
  rename_i h
  have hpos : word.toNat ≠ 0 := fun hz => h (by
    rw [UInt64.toNat_inj.1 (hz.trans UInt64.toNat_zero.symm), UInt64.zero_and])
  rw [UInt64.toNat_shiftRight, Nat.shiftRight_eq_div_pow]
  exact Nat.div_lt_self (Nat.pos_of_ne_zero hpos) (by decide)

/-- Writes an integer, if its folded form is a word. An integer is folded before it is known whether it has
64 bits, by a shift that brings its sign to the lowest bit. -/
def encode (n : Int) : Except CodecError (List UInt8) :=
  match toWord? (xor (n <<< (1 : Nat)) (n >>> (63 : Nat))) with
  | some word => .ok (septets word)
  | none => .error .outOfRange

/-- The most groups that a word is made of. A further one would be shifted by more bits than a word has. -/
def mostGroups : Nat := 10

/-- Reads an integer, and what follows it. Bits that an integer has no room for are dropped. -/
def decode (bytes : List UInt8) : Except CodecError (Int × List UInt8) :=
  match bytes, ungroup? bytes with
  | [], _ => .error .exhausted
  | _, none => .error (if bytes.length ≤ mostGroups then .truncated else .unchecked)
  | _, some (n, rest) =>
    if bytes.length ≤ rest.length + mostGroups then .ok (unzigzag (n % modulus), rest) else .error .unchecked

end AvroCodec.Varint
