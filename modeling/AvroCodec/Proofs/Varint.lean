import AvroCodec.Codec.Write
import AvroCodec.Proofs.Cut

/-!
# Integers in as few bytes as can be

An integer of 64 bits is written in one to ten bytes, none of which can be left out, and no bytes that are
read as the integer are fewer.

Reading is done in a word of 64 bits into which the groups of seven bits are shifted one after the other. It
comes to what `ungroup?` says.
-/

namespace AvroCodec

open Varint

namespace Varint

variable {k n : Nat} {front rest : List UInt8} {word : UInt64} {b : UInt8}

/-! ### Reading into a word -/

/-- Shifts the groups of seven bits at the start of some bytes into a word, from a position on. -/
def gather (word : UInt64) (shift : Nat) : List UInt8 → Option (UInt64 × List UInt8)
  | [] => none
  | b :: rest =>
    let word' := word ||| ((b.toUInt64 &&& 0x7f) <<< shift.toUInt64)
    if b.toNat < 128 then some (word', rest) else gather word' (shift + 7) rest

def unfolded (word : UInt64) : Int := ((word >>> 1) ^^^ -(word &&& 1)).toInt64.toInt

/-- A number that is shifted beyond another is added to it. What 64 bits do not hold is lost. -/
theorem or_shiftLeft {x y s : Nat} (hx : x < 2 ^ s) (hs : s < 64) :
    x ||| y <<< s % 2 ^ 64 = (x + 2 ^ s * y) % 2 ^ 64 := by
  have hsplit : 2 ^ 64 = 2 ^ s * 2 ^ (64 - s) := by
    rw [← Nat.pow_add]
    congr 1
    omega
  have hmod : y <<< s % 2 ^ 64 = 2 ^ s * (y % 2 ^ (64 - s)) := by
    rw [Nat.shiftLeft_eq, Nat.mul_comm, hsplit, Nat.mul_mod_mul_left]
  have hroom : x + 2 ^ s * (y % 2 ^ (64 - s)) < 2 ^ 64 := by
    have hy : y % 2 ^ (64 - s) + 1 ≤ 2 ^ (64 - s) := Nat.mod_lt _ (Nat.two_pow_pos _)
    have hle := Nat.mul_le_mul_left (2 ^ s) hy
    rw [← hsplit, Nat.mul_add, Nat.mul_one] at hle
    omega
  calc x ||| y <<< s % 2 ^ 64 = 2 ^ s * (y % 2 ^ (64 - s)) + x := by
        rw [hmod, Nat.or_comm, Nat.two_pow_add_eq_or_of_lt hx]
    _ = (x + 2 ^ s * (y % 2 ^ (64 - s))) % 2 ^ 64 := by rw [Nat.mod_eq_of_lt hroom, Nat.add_comm]
    _ = (x + 2 ^ s * y) % 2 ^ 64 := by
        rw [← hmod, Nat.shiftLeft_eq, Nat.mul_comm y, Nat.add_mod_mod]

theorem toNat_or_group (hword : word.toNat < 2 ^ (7 * k)) (hk : k < 10) :
    (word ||| ((b.toUInt64 &&& 0x7f) <<< (7 * k).toUInt64)).toNat =
      (word.toNat + 2 ^ (7 * k) * (b.toNat % 128)) % 2 ^ 64 := by
  have hshift : (7 * k).toUInt64.toNat % 64 = 7 * k := by
    simp
    omega
  have hgroup : (b.toUInt64 &&& 0x7f).toNat = b.toNat % 128 := by
    rw [UInt64.toNat_and]
    exact Nat.and_two_pow_sub_one_eq_mod b.toNat 7
  rw [UInt64.toNat_or, UInt64.toNat_shiftLeft, hshift, hgroup, or_shiftLeft hword (by omega)]

theorem ungroup?_cons (h : ungroup? (b :: (front ++ rest)) = some (n, rest)) :
    b.toNat < 128 ∧ front = [] ∧ n = b.toNat ∨
      128 ≤ b.toNat ∧ ∃ m, ungroup? (front ++ rest) = some (m, rest) ∧ n = b.toNat % 128 + 128 * m := by
  rw [ungroup?] at h
  split_ifs at h with hb
  · obtain ⟨hn, hrest⟩ := Prod.mk.inj (Option.some.inj h)
    exact .inl ⟨hb, List.append_left_eq_self.1 hrest, hn.symm⟩
  · obtain ⟨⟨m, rest'⟩, hm, he⟩ := Option.map_eq_some_iff.1 h
    cases he
    have hlt := b.toNat_lt
    exact .inr ⟨by omega, m, hm, by omega⟩

/-- Up to ten groups come into a word as far as it holds them. -/
theorem exists_gather (h : ungroup? (front ++ rest) = some (n, rest)) (hword : word.toNat < 2 ^ (7 * k))
    (hlength : k + front.length ≤ 10) (hfront : front ≠ []) :
    ∃ word', gather word (7 * k) (front ++ rest) = some (word', rest) ∧
      word'.toNat = (word.toNat + 2 ^ (7 * k) * n) % modulus := by
  induction front generalizing n k word with
  | nil => exact absurd rfl hfront
  | cons b front ih =>
    rw [List.length_cons] at hlength
    have hgroup := toNat_or_group (b := b) hword (by omega)
    rw [List.cons_append] at h ⊢
    rcases ungroup?_cons h with ⟨hb, rfl, rfl⟩ | ⟨hb, m, hm, rfl⟩
    · rw [gather, if_pos hb, List.nil_append]
      rw [Nat.mod_eq_of_lt hb] at hgroup
      exact ⟨_, rfl, hgroup⟩
    · have hpow : 2 ^ (7 * (k + 1)) = 2 ^ (7 * k) * 128 := by
        rw [Nat.mul_succ, Nat.pow_add]
      have hfront : front ≠ [] := by
        rintro rfl
        obtain ⟨front', hsame, hne, -⟩ := exists_front_of_ungroup? hm
        exact hne (List.append_left_eq_self.1 hsame.symm)
      have hsmall : (word ||| ((b.toUInt64 &&& 0x7f) <<< (7 * k).toUInt64)).toNat < 2 ^ (7 * (k + 1)) := by
        rw [hgroup, hpow]
        have hgroup' : b.toNat % 128 + 1 ≤ 128 := Nat.mod_lt _ (by decide)
        have hle := Nat.mul_le_mul_left (2 ^ (7 * k)) hgroup'
        have hmod := Nat.mod_le (word.toNat + 2 ^ (7 * k) * (b.toNat % 128)) (2 ^ 64)
        rw [Nat.mul_add, Nat.mul_one] at hle
        omega
      obtain ⟨word', hgather, hvalue⟩ := ih (k := k + 1) hm hsmall (by omega) hfront
      refine ⟨word', ?_, ?_⟩
      · rw [gather, if_neg (by omega)]
        exact hgather
      · rw [hvalue, hgroup, hpow, show modulus = 2 ^ 64 from rfl, Nat.mod_add_mod, Nat.mul_add, Nat.mul_assoc,
          Nat.add_assoc]

/-- A word is unfolded by shifts to the integer that its number is unfolded to. -/
theorem unfolded_eq (word : UInt64) : unfolded word = unzigzag word.toNat := by
  have hhalf : (word >>> 1).toNat = word.toNat / 2 := by
    rw [UInt64.toNat_shiftRight]
    exact Nat.shiftRight_eq_div_pow word.toNat 1
  have hlow : (word &&& 1).toNat = word.toNat % 2 := by
    rw [UInt64.toNat_and]
    exact Nat.and_two_pow_sub_one_eq_mod word.toNat 1
  have hlt := word.toNat_lt
  have htoInt : ∀ w : UInt64, w.toInt64.toInt = if 2 * w.toNat < 2 ^ 64 then (w.toNat : Int) else
      (w.toNat : Int) - (2 ^ 64 : Nat) := fun _ => rfl
  rw [unfolded, unzigzag]
  split_ifs with heven
  · have hzero : word &&& 1 = 0 := UInt64.toNat_inj.1 (hlow.trans heven)
    rw [hzero, UInt64.neg_zero, UInt64.xor_zero, htoInt, hhalf, if_pos (by omega)]
    rfl
  · have hodd : word.toNat % 2 = (1 : UInt64).toNat := Nat.mod_two_ne_zero.1 heven
    have hone : word &&& 1 = 1 := UInt64.toNat_inj.1 (hlow.trans hodd)
    have hnot : (~~~(word >>> 1)).toNat = 2 ^ 64 - 1 - word.toNat / 2 := by
      rw [UInt64.toNat_not, hhalf]
      rfl
    rw [hone, UInt64.xor_neg_one, htoInt, hnot, if_neg (by omega)]
    omega

theorem exists_ungroup?_of_decode {v : Int}
    (h : decode (front ++ rest) = .ok (v, rest)) :
    ∃ n, front ≠ [] ∧ ungroup? (front ++ rest) = some (n, rest) ∧ v = unzigzag (n % modulus) := by
  obtain ⟨n, hu, -, hv⟩ := decode_eq_ok.1 h
  refine ⟨n, ?_, hu, hv⟩
  rintro rfl
  obtain ⟨front, hsame, hne, -⟩ := exists_front_of_ungroup? hu
  exact hne (List.append_left_eq_self.1 hsame.symm)

theorem exists_gather_of_decode {v : Int}
    (h : decode (front ++ rest) = .ok (v, rest)) (hlength : front.length ≤ 10) :
    ∃ word, gather 0 0 (front ++ rest) = some (word, rest) ∧ unfolded word = v := by
  obtain ⟨n, hfront, hu, rfl⟩ := exists_ungroup?_of_decode h
  have hempty : (0 : UInt64).toNat < 2 ^ (7 * 0) := by decide
  obtain ⟨word, hgather, hword⟩ := exists_gather hu hempty (by omega) hfront
  refine ⟨word, hgather, ?_⟩
  rw [unfolded_eq, hword, Nat.mul_zero, Nat.pow_zero, Nat.one_mul, UInt64.toNat_zero, Nat.zero_add]

/-! ### The number of bytes -/

theorem lt_of_ungroup? (h : ungroup? (front ++ rest) = some (n, rest))
    (hfront : front ≠ []) : n < 128 ^ front.length := by
  induction front generalizing n with
  | nil => exact absurd rfl hfront
  | cons b front ih =>
    rcases ungroup?_cons h with ⟨hb, rfl, rfl⟩ | ⟨-, m, hm, rfl⟩
    · exact hb
    · have hmore : m < 128 ^ front.length := by
        refine ih hm ?_
        rintro rfl
        obtain ⟨front, hsame, hne, -⟩ := exists_front_of_ungroup? hm
        exact hne (List.append_left_eq_self.1 hsame.symm)
      have hb : b.toNat % 128 < 128 := Nat.mod_lt _ (by decide)
      rw [List.length_cons, Nat.pow_succ]
      omega

/-- Bytes are read as an integer of 64 bits, which can be written, in no more bytes, and read again. If they
are at most ten, then the integer is what comes of them in a word of 64 bits. -/
theorem decoded_written_in_no_more {front rest : List UInt8} {v : Int} (hk : front.length ≤ 10)
    (h : decode (front ++ rest) = .ok (v, rest)) :
    (∃ word, gather 0 0 (front ++ rest) = some (word, rest) ∧ unfolded word = v) ∧
      -2 ^ 63 ≤ v ∧ v < 2 ^ 63 ∧
      ∃ bytes, encode v = .ok bytes ∧ bytes.length ≤ front.length ∧ Reads decode bytes v := by
  obtain ⟨n, hfront, hu, hv⟩ := exists_ungroup?_of_decode h
  have hzigzag : zigzag v = n % modulus := by rw [hv, zigzag_unzigzag]
  have hless : zigzag v < modulus := hzigzag ▸ Nat.mod_lt _ (by decide)
  obtain ⟨hlo, hhi⟩ := (zigzag_lt_modulus_iff v).1 hless
  refine ⟨exists_gather_of_decode h hk, hlo, hhi, bytesOf v, encode_of_range hlo hhi, ?_, reads_bytesOf hless⟩
  rw [bytesOf, hzigzag]
  exact length_groups_le (List.length_pos_iff.2 hfront) ((Nat.mod_le _ _).trans_lt (lt_of_ungroup? hu hfront))

/-- Minus one with eight bytes too many, and with bits in the last of them that are dropped. -/
theorem padded_written_in_no_more : ∃ bytes, encode (-1) = .ok bytes ∧ bytes.length ≤ 10 ∧
    Reads decode bytes (-1) := by
  have h : decode ([0x81, 0x80, 0x80, 0x80, 0x80, 0x80, 0x80, 0x80, 0x80, 0x02] ++ [7]) = .ok (-1, [7]) := by
    simp [decode, ungroup?, unzigzag, modulus, mostGroups]
  exact (decoded_written_in_no_more (by decide) h).2.2.2

end Varint

namespace Primitive

open Code

variable {type : String} {schema : Json} {n : Int}

theorem write_int (h : type ∈ ["int", "long"]) : write type (.int n) = encode n := by
  simp only [List.mem_cons, List.not_mem_nil, or_false] at h
  rcases h with rfl | rfl <;> rfl

theorem read_int (h : type ∈ ["int", "long"]) : read type schema = readInt := by
  simp only [List.mem_cons, List.not_mem_nil, or_false] at h
  rcases h with rfl | rfl <;> rfl

theorem readInt_of_cut {p q : List UInt8} (h : Reads decode (p ++ q) n) (hq : q ≠ []) :
    readInt p = .error (if p = [] then .exhausted else .truncated) := by
  obtain ⟨e, he⟩ := steady_decode.exists_error h hq
  obtain ⟨m, -, hlength, -⟩ := decode_eq_ok.1 (h [])
  simp only [List.append_nil, List.length_append, List.length_nil, Nat.zero_add] at hlength
  rw [readInt, he]
  change Except.error e = _
  unfold decode at he
  split at he
  next => cases he; rfl
  next hp _ =>
    rw [if_pos (by omega)] at he
    cases he
    rw [if_neg hp]
  next rest _ _ =>
    rw [if_pos (by omega)] at he
    cases he

/-- An integer is refused, and nothing is put into the buffer, exactly if 64 bits do not hold it. Any other
is put into the buffer in one to ten bytes, from which it is read back with any bytes after them left, and
which cannot be read if any are missing. -/
theorem integer_written_exactly (scope : WriteScope) (htype : type ∈ ["int", "long"]) (x : String)
    (schema : Json) (n : Int) :
    ((Encoder.run scope (.primitive type (.of x)) (.int n)).result = .error .outOfRange ↔
        ¬(-2 ^ 63 ≤ n ∧ n < 2 ^ 63)) ∧
      (-2 ^ 63 ≤ n ∧ n < 2 ^ 63 → ∃ bytes,
        (Encoder.run scope (.primitive type (.of x)) (.int n)).result = .ok (.put bytes) ∧
        1 ≤ bytes.length ∧ bytes.length ≤ 10 ∧ Reads (read type schema) bytes (.int n) ∧
        ∀ p q, bytes = p ++ q → q ≠ [] →
          read type schema p = .error (if p = [] then .exhausted else .truncated)) := by
  have hrun : (Encoder.run scope (.primitive type (.of x)) (.int n)).result =
      (encode n).map Effect.put := by
    rw [← write_int htype]
    rfl
  have hrange := zigzag_lt_modulus_iff n
  rw [hrun, read_int htype]
  constructor
  · change _ ↔ ¬(-(limit : Int) ≤ n ∧ n < (limit : Int))
    rw [← hrange, encode_eq]
    split_ifs with h <;> simp [h, Except.map]
  · rintro ⟨hlo, hhi⟩
    have hless := hrange.2 ⟨hlo, hhi⟩
    refine ⟨bytesOf n, ?_, one_le_length_bytesOf n, length_bytesOf_le hless,
      readInt_bytesOf hlo hhi, fun p q hpq hq => readInt_of_cut (hpq ▸ reads_bytesOf hless) hq⟩
    rw [encode_of_range hlo hhi]
    rfl

/-- The first integer that is refused, and the least one that is not. -/
theorem bounds_written_exactly :
    (Encoder.run ⟨[], fun _ v => ⟨v, .ok .none⟩⟩ (.primitive "int" (.of "data"))
      (.int (2 ^ 63))).result = .error .outOfRange ∧
    ∃ bytes, (Encoder.run ⟨[], fun _ v => ⟨v, .ok .none⟩⟩ (.primitive "long" (.of "data"))
      (.int (-2 ^ 63))).result = .ok (.put bytes) ∧ 1 ≤ bytes.length ∧ bytes.length ≤ 10 := by
  have hint : "int" ∈ ["int", "long"] := by decide
  have hlong : "long" ∈ ["int", "long"] := by decide
  have hfirst := (integer_written_exactly ⟨[], fun _ v => ⟨v, .ok .none⟩⟩ hint "data" .null
    (2 ^ 63)).1.2 (by omega)
  obtain ⟨bytes, hleast, hlo, hhi, -⟩ := (integer_written_exactly ⟨[], fun _ v => ⟨v, .ok .none⟩⟩
    hlong "data" .null (-2 ^ 63)).2 (by omega)
  exact ⟨hfirst, bytes, hleast, hlo, hhi⟩

end Primitive

end AvroCodec
