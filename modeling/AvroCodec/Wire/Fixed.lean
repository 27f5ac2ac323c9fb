/-!
# Numbers in a given number of bytes
-/

namespace AvroCodec.Wire

def littleEndian : Nat → Nat → List UInt8
  | 0, _ => []
  | count + 1, n => (n % 256).toUInt8 :: littleEndian count (n / 256)

def ofLittleEndian : List UInt8 → Nat
  | [] => 0
  | b :: rest => b.toNat + 256 * ofLittleEndian rest

def bigEndian (count n : Nat) : List UInt8 := (littleEndian count n).reverse

def ofBigEndian (bytes : List UInt8) : Nat := ofLittleEndian bytes.reverse

/-- The number of binary digits of a number. Zero has none. -/
def bitLength (n : Nat) : Nat := if n = 0 then 0 else n.log2 + 1

def signedBigEndian (count : Nat) (n : Int) : List UInt8 :=
  bigEndian count (n % Nat.pow 256 count).toNat

/-- The integer that bytes are the two's complement of. No bytes stand for zero. -/
def ofSignedBigEndian (bytes : List UInt8) : Int :=
  let n := ofBigEndian bytes
  if Nat.pow 256 bytes.length ≤ 2 * n then (n : Int) - Nat.pow 256 bytes.length else n

theorem length_littleEndian (count n : Nat) : (littleEndian count n).length = count := by
  induction count generalizing n with
  | zero => rfl
  | succ count ih => simp [littleEndian, ih]

theorem ofLittleEndian_littleEndian (count n : Nat) (h : n < Nat.pow 256 count) :
    ofLittleEndian (littleEndian count n) = n := by
  induction count generalizing n with
  | zero =>
    have hn : n < 1 := h
    simp only [littleEndian, ofLittleEndian]
    omega
  | succ count ih =>
    have hs : n < Nat.pow 256 count * 256 := h
    have hd : n / 256 < Nat.pow 256 count := Nat.div_lt_of_lt_mul (by omega)
    simp only [littleEndian, ofLittleEndian, ih _ hd]
    simp
    omega

end AvroCodec.Wire
