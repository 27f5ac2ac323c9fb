import AvroCodec.Codec.Primitive
import Mathlib.Algebra.Order.Ring.Nat
import Mathlib.Tactic.Common

/-!
# Numbers and text in bytes

Integers, blocks of bytes and text are read back from what was written, with any bytes after them left
unread.
-/

namespace AvroCodec

/-- A reader takes exactly these bytes from the front and makes this of them. -/
def Reads {α : Type} (reader : List UInt8 → Except CodecError (α × List UInt8))
    (bytes : List UInt8) (x : α) : Prop :=
  ∀ rest, reader (bytes ++ rest) = .ok (x, rest)

namespace Varint

/-- The groups of seven bits of a number. -/
def groups (n : Nat) : List UInt8 :=
  if n < 128 then [n.toUInt8] else (n % 128 + 128).toUInt8 :: groups (n / 128)
termination_by n
decreasing_by omega

theorem xor_high_eq {n : Nat} (h : n < modulus) : n ^^^ n / modulus = n := by
  rw [Nat.div_eq_of_lt h, Nat.xor_zero]

theorem modulus_le_xor_high {n : Nat} (h : modulus ≤ n) : modulus ≤ n ^^^ n / modulus := by
  have hpos : 0 < n / modulus := Nat.div_pos h (by decide)
  have hdiv : (n ^^^ n / modulus) / modulus = n / modulus ^^^ n / modulus / modulus := by
    simp only [show modulus = 2 ^ 64 from rfl, ← Nat.shiftRight_eq_div_pow, Nat.shiftRight_xor_distrib]
  have hne : n / modulus ≠ n / modulus / modulus :=
    (Nat.div_lt_self hpos (by decide)).ne'
  have hdiff : (n ^^^ n / modulus) / modulus ≠ 0 := by
    intro hzero
    rw [hdiv] at hzero
    refine hne ?_
    calc n / modulus = n / modulus ^^^ (n / modulus / modulus ^^^ n / modulus / modulus) := by
          rw [Nat.xor_self, Nat.xor_zero]
      _ = n / modulus / modulus := by rw [← Nat.xor_assoc, hzero, Nat.zero_xor]
  by_contra hlt
  exact hdiff (Nat.div_eq_of_lt (not_le.1 hlt))

/-- The shifts fold an integer of any size, and spoil it if it has more than 64 bits. -/
theorem xor_shifts (n : Int) : xor (n <<< (1 : Nat)) (n >>> (63 : Nat)) = (zigzag n ^^^ zigzag n / modulus : Nat) := by
  have hhalf : ∀ m : Nat, m / 2 ^ 63 = (2 * m) / modulus ∧ m / 2 ^ 63 = (2 * m + 1) / modulus := by
    intro m
    have hmodulus : modulus = 2 * 2 ^ 63 := by decide
    rw [hmodulus, ← Nat.div_div_eq_div_mul, ← Nat.div_div_eq_div_mul]
    exact ⟨by congr 1; omega, by congr 1; omega⟩
  cases n with
  | ofNat m =>
    have hleft : (Int.ofNat m) <<< (1 : Nat) = .ofNat (2 * m) := by
      rw [Int.shiftLeft_eq]
      simp only [Int.ofNat_eq_natCast]
      omega
    have hright : (Int.ofNat m) >>> (63 : Nat) = .ofNat (m / 2 ^ 63) := by
      rw [Int.shiftRight_eq_div_pow]
      rfl
    rw [hleft, hright, xor, (hhalf m).1]
    rfl
  | negSucc m =>
    have hleft : (Int.negSucc m) <<< (1 : Nat) = .negSucc (2 * m + 1) := by
      rw [Int.shiftLeft_eq]
      omega
    have hright : (Int.negSucc m) >>> (63 : Nat) = .negSucc (m / 2 ^ 63) := by
      rw [Int.shiftRight_eq_div_pow]
      rfl
    rw [hleft, hright, xor, (hhalf m).2]
    rfl

theorem and_high_eq_zero_iff (word : UInt64) : word &&& ~~~0x7f = 0 ↔ word.toNat < 128 := by
  rw [← UInt64.toNat_inj, UInt64.toNat_and]
  change word.toNat &&& (2 ^ 64 - 128) = 0 ↔ _
  have hword := word.toNat_lt
  constructor
  · intro h
    have hshift := congrArg (· >>> 7) h
    simp only [Nat.shiftRight_and_distrib] at hshift
    change word.toNat >>> 7 &&& (2 ^ 57 - 1) = 0 at hshift
    rw [Nat.and_two_pow_sub_one_eq_mod, Nat.shiftRight_eq_div_pow] at hshift
    omega
  · intro h
    have hlow : word.toNat &&& (2 ^ 7 - 1) = word.toNat := by
      rw [Nat.and_two_pow_sub_one_eq_mod]
      exact Nat.mod_eq_of_lt h
    rw [← hlow, Nat.and_assoc]
    exact Nat.and_zero _

/-- The groups of a word are those of its number. -/
theorem septets_eq (word : UInt64) : septets word = groups word.toNat := by
  have hshift : (word >>> 7).toNat = word.toNat / 128 := by
    rw [UInt64.toNat_shiftRight]
    exact Nat.shiftRight_eq_div_pow word.toNat 7
  rw [septets, groups]
  by_cases hsmall : word.toNat < 128
  · rw [if_pos ((and_high_eq_zero_iff word).2 hsmall), if_pos hsmall]
    rfl
  · rw [if_neg (mt (and_high_eq_zero_iff word).1 hsmall), if_neg hsmall, septets_eq (word >>> 7), hshift]
    have hlow : (word &&& 0x7f).toNat = word.toNat % 128 := by
      rw [UInt64.toNat_and]
      exact Nat.and_two_pow_sub_one_eq_mod word.toNat 7
    have hgroup : ((word &&& 0x7f) ||| 0x80).toNat = word.toNat % 128 + 128 := by
      have hor := Nat.two_pow_add_eq_or_of_lt (i := 7) (Nat.mod_lt word.toNat (by decide)) 1
      rw [UInt64.toNat_or, hlow, Nat.or_comm, Nat.add_comm]
      exact hor.symm
    rw [← hgroup]
    rfl
termination_by word.toNat
decreasing_by
  rw [UInt64.toNat_shiftRight, Nat.shiftRight_eq_div_pow]
  exact Nat.div_lt_self (by omega) (by decide)

/-- An integer is written in its groups exactly if it has 64 bits. -/
theorem encode_eq (n : Int) :
    encode n = if zigzag n < modulus then .ok (groups (zigzag n)) else .error .outOfRange := by
  rw [encode, xor_shifts]
  simp only [toWord?]
  by_cases h : zigzag n < modulus
  · have hword : (zigzag n).toUInt64.toNat = zigzag n := Nat.mod_eq_of_lt h
    simp only [xor_high_eq h, if_pos h, septets_eq, hword]
  · have hlarge := modulus_le_xor_high (not_lt.1 h)
    simp only [if_neg (not_lt.2 hlarge), if_neg h]

def bytesOf (n : Int) : List UInt8 := groups (zigzag n)

/-- One more than the largest integer. -/
def limit : Nat := 2 ^ 63

theorem zigzag_lt_modulus_iff (n : Int) :
    zigzag n < modulus ↔ -(limit : Int) ≤ n ∧ n < (limit : Int) := by
  have hm : modulus = 2 * limit := by decide
  cases n with
  | ofNat n =>
    have hz : zigzag (.ofNat n) = 2 * n := rfl
    rw [hz, hm]
    simp only [Int.ofNat_eq_natCast]
    omega
  | negSucc n =>
    have hz : zigzag (.negSucc n) = 2 * n + 1 := rfl
    rw [hz, hm]
    omega

theorem encode_of_range {n : Int} (hlo : -(limit : Int) ≤ n) (hhi : n < (limit : Int)) :
    encode n = .ok (bytesOf n) :=
  (encode_eq n).trans (if_pos ((zigzag_lt_modulus_iff n).2 ⟨hlo, hhi⟩))

theorem encode_natCast {n : Nat} (h : n < limit) : encode (n : Int) = .ok (bytesOf n) :=
  encode_of_range (by omega) (by omega)

theorem encode_zero : encode 0 = .ok (bytesOf 0) := encode_of_range (by decide) (by decide)

theorem eq_bytesOf_of_encode {n : Int} {bytes : List UInt8} (h : encode n = .ok bytes) :
    zigzag n < modulus ∧ bytes = bytesOf n := by
  rw [encode_eq] at h
  split_ifs at h with hn
  exact ⟨hn, (Except.ok.inj h).symm⟩

theorem lt_limit_of_encode {n : Nat} {bytes : List UInt8} (h : encode (n : Int) = .ok bytes) :
    n < limit := by
  have hn := (zigzag_lt_modulus_iff n).1 (eq_bytesOf_of_encode h).1
  omega

theorem groups_ne_nil (n : Nat) : groups n ≠ [] := by
  rw [groups]
  split <;> simp

theorem one_le_length_bytesOf (n : Int) : 1 ≤ (bytesOf n).length :=
  List.length_pos_iff.2 (groups_ne_nil _)

theorem length_groups_le {k n : Nat} (hk : 0 < k) (h : n < 128 ^ k) : (groups n).length ≤ k := by
  induction k generalizing n with
  | zero => cases hk
  | succ k ih =>
    rw [groups]
    split_ifs with hn
    · exact Nat.succ_le_succ (Nat.zero_le k)
    · have hpos : 0 < k := by
        rcases Nat.eq_zero_or_pos k with rfl | hpos
        · exact absurd h hn
        · exact hpos
      have hless : n / 128 < 128 ^ k := Nat.div_lt_of_lt_mul (by rwa [Nat.pow_succ, Nat.mul_comm] at h)
      exact Nat.succ_le_succ (ih hpos hless)

theorem length_bytesOf_le {n : Int} (h : zigzag n < modulus) : (bytesOf n).length ≤ 10 :=
  length_groups_le (by decide) (h.trans (by decide))

theorem decode_eq_ok {bytes rest : List UInt8} {v : Int} : decode bytes = .ok (v, rest) ↔
    ∃ n, ungroup? bytes = some (n, rest) ∧ bytes.length ≤ rest.length + mostGroups ∧ v = unzigzag (n % modulus) := by
  unfold decode
  split
  next => simp [ungroup?]
  next hu => simp [hu]
  next n rest' hne hu =>
    simp only [hu, Option.some.injEq, Prod.mk.injEq]
    split_ifs with hlength
    · constructor
      · intro h
        cases h
        exact ⟨n, ⟨rfl, rfl⟩, hlength, rfl⟩
      · rintro ⟨_, ⟨rfl, rfl⟩, -, rfl⟩
        rfl
    · constructor
      · exact nofun
      · rintro ⟨_, ⟨rfl, rfl⟩, h, -⟩
        exact absurd h hlength

theorem ungroup?_groups (n : Nat) (rest : List UInt8) :
    ungroup? (groups n ++ rest) = some (n, rest) := by
  induction n using Nat.strongRecOn with
  | ind n ih =>
    rw [groups]
    split
    · rename_i hn
      have hb : n.toUInt8.toNat = n := by simp; omega
      simp only [List.cons_append, List.nil_append, ungroup?, hb, if_pos hn]
    · rename_i hn
      have hb : (n % 128 + 128).toUInt8.toNat = n % 128 + 128 := by simp; omega
      have hlarge : ¬ n % 128 + 128 < 128 := by omega
      simp only [List.cons_append, ungroup?, hb, if_neg hlarge, ih (n / 128) (by omega)]
      simp only [Option.map_some, Option.some.injEq, Prod.mk.injEq, and_true]
      omega

theorem reads_bytesOf {n : Int} (h : zigzag n < modulus) : Reads decode (bytesOf n) n := by
  intro rest
  have hlength := length_bytesOf_le h
  refine decode_eq_ok.2 ⟨zigzag n, ungroup?_groups (zigzag n) rest, ?_, ?_⟩
  · rw [List.length_append, Nat.add_comm]
    exact Nat.add_le_add_left hlength _
  · rw [Nat.mod_eq_of_lt h, unzigzag_zigzag]

theorem reads_natCast {n : Nat} (h : n < limit) : Reads decode (bytesOf n) (n : Int) :=
  reads_bytesOf ((zigzag_lt_modulus_iff n).2 ⟨by omega, by omega⟩)

theorem reads_zero : Reads decode (bytesOf 0) 0 := reads_bytesOf (by decide)

end Varint

theorem byteArray_toList_loop (a : ByteArray) (i : Nat) (acc : List UInt8) :
    ByteArray.toList.loop a i acc = acc.reverse ++ a.data.toList.drop i := by
  fun_induction ByteArray.toList.loop a i acc with
  | case1 i acc hi ih =>
    have hs : i < a.data.toList.length := by simpa using hi
    have hget : a.get! i = a.data.toList[i] := by
      rw [Array.getElem_toList]
      exact getElem!_pos a.data i hi
    rw [ih, hget, List.reverse_cons, List.append_assoc, List.singleton_append,
      ← List.drop_eq_getElem_cons hs]
  | case2 i acc hi =>
    have hd : a.data.toList.drop i = [] := List.drop_eq_nil_of_le (by simpa using hi)
    rw [hd, List.append_nil]

theorem byteArray_toList (a : ByteArray) : a.toList = a.data.toList := by
  rw [ByteArray.toList, byteArray_toList_loop]
  simp

theorem fromUTF8?_toUTF8_toList (s : String) :
    String.fromUTF8? ⟨s.toUTF8.toList.toArray⟩ = some s := by
  rw [byteArray_toList]
  simp only [Array.toArray_toList]
  exact dif_pos s.isValidUTF8

namespace Primitive

def blockOf (data : List UInt8) : List UInt8 := Varint.bytesOf data.length ++ data

def textOf (s : String) : List UInt8 := blockOf s.toUTF8.toList

theorem writeBlock_eq_ok_iff {data bytes : List UInt8} :
    writeBlock data = .ok bytes ↔ data.length < Varint.limit ∧ bytes = blockOf data := by
  unfold writeBlock
  constructor
  · intro h
    cases he : Varint.encode data.length with
    | error e => rw [he] at h; cases h
    | ok front =>
      rw [he] at h
      obtain ⟨_, rfl⟩ := Varint.eq_bytesOf_of_encode he
      exact ⟨Varint.lt_limit_of_encode he, (Except.ok.inj h).symm⟩
  · rintro ⟨hlen, rfl⟩
    rw [Varint.encode_natCast hlen]
    rfl

theorem reads_blockOf {data : List UInt8} (h : data.length < Varint.limit) :
    Reads readBlock (blockOf data) data := by
  intro rest
  unfold readBlock blockOf
  rw [List.append_assoc, Varint.reads_natCast h]
  change Except.ok (takeBytes (Int.ofNat data.length) (data ++ rest)) = _
  simp only [takeBytes, List.take_left, List.drop_left]

theorem reads_textOf {s : String} (h : s.toUTF8.toList.length < Varint.limit) :
    Reads readText (textOf s) s := by
  intro rest
  have hblock := reads_blockOf h rest
  simp only [readText, textOf, hblock, bind, Except.bind, fromUTF8?_toUTF8_toList]
  rfl

end Primitive

end AvroCodec
