import AvroCodec.Proofs.Compiled
import AvroCodec.Proofs.Cut
import Mathlib.Data.List.Chain
import Mathlib.Logic.Relation

/-!
# Reading ends

Code that reads never puts bytes back, and whatever stands in a union, an array or a map is read after a
byte at least. So functions that call one another go on only as long as there are bytes, if none of them
comes back to itself through calls alone that are made before anything is read. Then the number of calls
that are followed is enough: with more of them, the same is read.
-/

namespace AvroCodec

open Code Reading

/-- Outcomes of reading that are the same: it has come to an end, with at most so many bytes left. -/
inductive Ends {α : Type} (left : α → Nat) (n : Nat) :
    Except CodecError α → Except CodecError α → Prop
  | ok {a : α} (h : left a ≤ n) : Ends left n (.ok a) (.ok a)
  | error {e : CodecError} (h : e ≠ .endless) : Ends left n (.error e) (.error e)

namespace Ends

variable {α β : Type} {left : α → Nat} {left' : β → Nat} {n m : Nat} {o o' : Except CodecError α}
  {f g : α → Except CodecError β}

theorem eq (h : Ends left n o o') : o = o' := by
  cases h <;> rfl

theorem ne_endless (h : Ends left n o o') : o ≠ .error .endless := by
  cases h with
  | ok => simp
  | error h => simpa using h

theorem mono (h : Ends left n o o') (hnm : n ≤ m) : Ends left m o o' := by
  cases h with
  | ok h => exact .ok (h.trans hnm)
  | error h => exact .error h

theorem bind (h : Ends left n o o') (hf : ∀ a, left a ≤ n → Ends left' m (f a) (g a)) :
    Ends left' m (o >>= f) (o' >>= g) := by
  cases h with
  | ok h => exact hf _ h
  | error h => exact .error h

theorem bind_value (h : o ≠ .error .endless)
    (hf : ∀ a, Ends left' m (f a) (g a)) : Ends left' m (o >>= f) (o >>= g) := by
  cases o with
  | ok a => exact hf a
  | error e => exact .error (by simpa using h)

end Ends

theorem ne_endless_bind {α β : Type} {o : Except CodecError α} {f : α → Except CodecError β}
    (h : o ≠ .error .endless) (hf : ∀ a, f a ≠ .error .endless) : o >>= f ≠ .error .endless := by
  cases o with
  | ok a => exact hf a
  | error e => exact fun he => h (by cases he; rfl)

namespace Value

theorem walk_ne_endless (path : List String) (v : Value) : v.walk path ≠ .error .endless := by
  fun_induction walk path v with
  | case1 => simp
  | case2 _ _ _ _ _ ih => exact ih
  | case3 => simp
  | case4 => simp

theorem store_ne_endless (new : Value) (path : List String) (v : Value) :
    store new path v ≠ .error .endless := by
  fun_induction store new path v with
  | case1 => simp
  | case2 => simp
  | case3 _ _ _ _ _ _ ih => exact ne_endless_bind ih fun _ => by simp [pure, Except.pure]
  | case4 => simp
  | case5 => simp

end Value

namespace Logical

theorem integerPart_ne_endless (x : Binary.Number) : integerPart x ≠ .error .endless := by
  unfold integerPart
  split <;> simp

theorem quotient_ne_endless (v : Value) (divisor : Nat) : quotient v divisor ≠ .error .endless := by
  unfold quotient
  repeat' split
  all_goals simp

theorem remainder_ne_endless (v : Value) (divisor : Nat) : remainder v divisor ≠ .error .endless := by
  unfold remainder
  repeat' split
  all_goals first | exact integerPart_ne_endless _ | simp

theorem clockOf_ne_endless (hour minute second microsecond : Int) :
    clockOf hour minute second microsecond ≠ .error .endless := by
  unfold clockOf
  dsimp only
  split_ifs <;> simp

theorem readMillis_ne_endless (v : Value) : readMillis v ≠ .error .endless := by
  refine ne_endless_bind (quotient_ne_endless v 60) fun _ => ?_
  refine ne_endless_bind (integerPart_ne_endless _) fun _ => ?_
  refine ne_endless_bind (integerPart_ne_endless _) fun _ => ?_
  refine ne_endless_bind (quotient_ne_endless v 1000) fun _ => ?_
  refine ne_endless_bind (integerPart_ne_endless _) fun _ => ?_
  exact ne_endless_bind (remainder_ne_endless v 1000) fun _ => clockOf_ne_endless _ _ _ _

theorem readMicros_ne_endless (v : Value) : readMicros v ≠ .error .endless := by
  refine ne_endless_bind (quotient_ne_endless v 3600000000) fun _ => ?_
  refine ne_endless_bind (integerPart_ne_endless _) fun _ => ?_
  refine ne_endless_bind (quotient_ne_endless v 60000000) fun _ => ?_
  refine ne_endless_bind (integerPart_ne_endless _) fun _ => ?_
  refine ne_endless_bind (quotient_ne_endless v 1000000) fun _ => ?_
  refine ne_endless_bind (integerPart_ne_endless _) fun _ => ?_
  split_ifs
  · exact fun h => by cases h
  · split
    · exact fun h => by cases h
    · exact ne_endless_bind (remainder_ne_endless _ _) fun _ => clockOf_ne_endless _ _ _ _

theorem readTimestamp_ne_endless (units : Nat) (v : Value) :
    readTimestamp units v ≠ .error .endless := by
  have hnumber : numberOfValue v ≠ .error .endless := by
    unfold numberOfValue
    repeat' split
    all_goals simp
  refine ne_endless_bind hnumber fun x => ne_endless_bind ?_ fun n => ?_
  · unfold microsecondsOf
    split <;> simp
  · split
    · simp [pure, Except.pure]
    · exact fun h => by cases h

end Logical

theorem Logical.ofUnscaled_ne_endless (precision : Nat) (scale n : Int) :
    ofUnscaled precision scale n ≠ .error .endless := by
  unfold ofUnscaled
  split
  · split_ifs
    · exact fun h => by cases h
    · split
      · exact fun h => by cases h
      · exact fun h => by cases h
  · exact fun h => by cases h

theorem Code.Logical.interpret_ne_endless (l : Code.Logical) (v : Value) :
    l.interpret v ≠ .error .endless := by
  unfold Code.Logical.interpret
  split
  next =>
    unfold Logical.readDate
    dsimp only
    split
    · simp
    · split_ifs <;> simp
  next =>
    unfold Logical.readUuid
    repeat' split
    all_goals simp
  next => exact Logical.readTimestamp_ne_endless _ v
  next => exact Logical.readTimestamp_ne_endless _ v
  next => exact Logical.readMillis_ne_endless v
  next => exact Logical.readMicros_ne_endless v
  next =>
    unfold Logical.readDecimal
    repeat' split
    all_goals first
      | exact ne_endless_bind (Logical.ofUnscaled_ne_endless _ _ _) fun _ h => by cases h
      | simp
  next => simp

/-! ### Reading takes bytes away -/

theorem Varint.ends_decode {bytes : List UInt8} {n : Nat} (h : bytes.length ≤ n) :
    Ends (fun p => p.2.length + 1) n (decode bytes) (decode bytes) := by
  unfold decode
  split
  next => exact .error (by simp)
  next => exact .error (by split_ifs <;> simp)
  next m rest _ hu =>
    obtain ⟨front, rfl, hfront, -⟩ := exists_front_of_ungroup? hu
    have hpos := List.length_pos_iff.2 hfront
    rw [List.length_append] at h
    split_ifs
    · refine .ok ?_
      change rest.length + 1 ≤ n
      omega
    · exact .error (by simp)

namespace Primitive

theorem length_takeBytes_le (count : Int) (bytes : List UInt8) :
    (takeBytes count bytes).2.length ≤ bytes.length := by
  unfold takeBytes
  split
  · exact (List.length_drop).trans_le (Nat.sub_le _ _)
  · exact Nat.zero_le _

variable {bytes : List UInt8} {n : Nat} (h : bytes.length ≤ n)
include h

theorem ends_readBlock : Ends (·.2.length) n (readBlock bytes) (readBlock bytes) := by
  refine (Varint.ends_decode h).bind fun a ha => .ok ?_
  exact (length_takeBytes_le a.1 a.2).trans (Nat.le_of_succ_le ha)

theorem ends_readText : Ends (·.2.length) n (readText bytes) (readText bytes) := by
  refine (ends_readBlock h).bind fun a ha => ?_
  dsimp only
  split
  · exact .ok ha
  · exact .error (by simp)

theorem ends_readFixed (schema : Json) :
    Ends (·.2.length) n (readFixed schema bytes) (readFixed schema bytes) := by
  have hsize : sizeOf? schema ≠ .error .endless := by
    unfold sizeOf?
    repeat' split
    all_goals simp
  exact Ends.bind_value hsize fun count => .ok ((length_takeBytes_le count bytes).trans h)

theorem ends_read (type : String) (schema : Json) :
    Ends (·.2.length) n (Primitive.read type schema bytes) (Primitive.read type schema bytes) := by
  have hdrop : ∀ k, (bytes.drop k).length ≤ n := fun k => by
    rw [List.length_drop]
    omega
  have hint : Ends (·.2.length) n (readInt bytes) (readInt bytes) :=
    (Varint.ends_decode h).bind fun _ ha => .ok (Nat.le_of_succ_le ha)
  unfold Primitive.read
  split
  · cases bytes with
    | nil => exact .error (by simp)
    | cons b rest => exact .ok (Nat.le_of_succ_le h)
  · exact hint
  · exact hint
  · unfold readFloat
    split_ifs
    · exact .error (by simp)
    · exact .ok (hdrop 4)
  · unfold readDouble
    split_ifs
    · exact .error (by simp)
    · exact .ok (hdrop 8)
  · exact (ends_readBlock h).bind fun _ ha => .ok ha
  · exact (ends_readText h).bind fun _ ha => .ok ha
  · exact ends_readFixed h schema
  · exact .error (by simp)

end Primitive

namespace Reading

variable {r : Reading} {n : Nat}

theorem get_ne_endless (r : Reading) (name : String) : r.get name ≠ .error .endless := by
  unfold get Variables.get
  split <;> simp

theorem keys_ne_endless (r : Reading) (path : List Subscript) : r.keys path ≠ .error .endless := by
  induction path with
  | nil => simp [keys, Variables.keys]
  | cons s path ih =>
    have hrest : ∀ key : String, (do return key :: (← r.keys path) : Except CodecError (List String)) ≠
        .error .endless := fun _ => ne_endless_bind ih fun _ => by simp [pure, Except.pure]
    cases s with
    | member name => exact hrest _
    | bound key =>
      refine ne_endless_bind (r.get_ne_endless key) fun v => ?_
      split
      · exact hrest _
      · exact fun h => by cases h

theorem ends_assign (h : r.rest.length ≤ n) (place : Place) (v : Value) :
    Ends (·.rest.length) n (r.assign place v) (r.assign place v) := by
  unfold assign
  split
  · exact .ok h
  · refine Ends.bind_value (r.get_ne_endless _) fun held => ?_
    refine Ends.bind_value (r.keys_ne_endless _) fun path => ?_
    exact Ends.bind_value (Value.store_ne_endless v path held) fun _ => .ok h

theorem ends_append (h : r.rest.length ≤ n) (place : Place) (item : String) :
    Ends (·.rest.length) n (r.append place item) (r.append place item) := by
  refine Ends.bind_value (r.get_ne_endless _) fun held => ?_
  refine Ends.bind_value (r.keys_ne_endless _) fun path => ?_
  refine Ends.bind_value (Value.walk_ne_endless path held) fun v => ?_
  split
  · refine Ends.bind_value (r.get_ne_endless _) fun _ => ?_
    exact Ends.bind_value (Value.store_ne_endless _ path held) fun _ => .ok h
  · exact .error (by simp)

theorem ends_integer (h : r.rest.length ≤ n) :
    Ends (fun p => p.2.rest.length + 1) n r.integer r.integer :=
  (Varint.ends_decode h).bind fun _ ha => .ok ha

theorem ends_integerTo (h : r.rest.length ≤ n) (name : String) :
    Ends (fun p => p.2.rest.length + 1) n (r.integerTo name) (r.integerTo name) :=
  (ends_integer h).bind fun _ ha => .ok ha

theorem ends_readTo (place : Place) {f g : List UInt8 → Except CodecError (Value × List UInt8)}
    (h : Ends (·.2.length) n (f r.rest) (g r.rest)) :
    Ends (·.rest.length) n (r.readTo place f) (r.readTo place g) :=
  h.bind fun p hp => ends_assign (r := { r with rest := p.2 }) hp place p.1

end Reading

namespace Code.Decoder

theorem ends_readSymbol {bytes : List UInt8} {n : Nat} (h : bytes.length ≤ n) (symbols : Json) :
    Ends (·.2.length) n (readSymbol symbols bytes) (readSymbol symbols bytes) := by
  refine (Varint.ends_decode h).bind fun a ha => ?_
  dsimp only
  split
  · split
    · exact .ok (Nat.le_of_succ_le ha)
    · exact .error (by simp)
  · exact .error (by simp)
  · exact .error (by simp)

theorem ends_readLogical {bytes : List UInt8} {n : Nat} (h : bytes.length ≤ n) (type : Logical) :
    Ends (·.2.length) n (readLogical type bytes) (readLogical type bytes) := by
  unfold readLogical
  split
  · refine (Primitive.ends_read h _ _).bind fun a ha => ?_
    exact Ends.bind_value (type.interpret_ne_endless a.1) fun _ => .ok ha
  · exact .error (by simp)

section Blocks

variable {f g : Reading → Except CodecError Reading} {count index : String} {n : Nat} {r : Reading}

theorem times_succ (turn k : Nat) (r : Reading) :
    times index f turn (k + 1) r = f (r.set index (.int turn)) >>= times index f (turn + 1) k := by
  rw [times]
  cases f (r.set index (.int turn)) <;> rfl

theorem ends_times (hstep : ∀ r, r.rest.length ≤ n → Ends (·.rest.length) n (f r) (g r)) (turn k : Nat)
    (h : r.rest.length ≤ n) :
    Ends (·.rest.length) n (times index f turn k r) (times index g turn k r) := by
  induction k generalizing turn r with
  | zero => exact .ok h
  | succ k ih =>
    rw [times_succ, times_succ]
    exact (hstep (r.set index (.int turn)) h).bind fun r' hr' => ih (turn + 1) hr'

theorem ends_negate (h : r.rest.length ≤ n) (i : Int) :
    Ends (·.rest.length) n (negate count i r) (negate count i r) := by
  unfold negate
  split_ifs
  · exact .error (by simp)
  · exact (ends_integer (r := r.set count (.int (-i))) h).bind fun _ hp => .ok (Nat.le_of_succ_le hp)

theorem ends_blocks {bound : Nat} (hstep : ∀ k < n, ∀ r, r.rest.length ≤ k → Ends (·.rest.length) k (f r) (g r))
    (h : r.rest.length ≤ n) (hbound : n < bound) :
    Ends (·.rest.length) n (blocks count index f bound r) (blocks count index g bound r) := by
  induction bound generalizing n r with
  | zero => exact absurd hbound (Nat.not_lt_zero _)
  | succ bound ih =>
    refine (ends_integerTo h count).bind ?_
    rintro ⟨i, r₁⟩ hlt
    obtain ⟨m, rfl⟩ : ∃ m, n = m + 1 := ⟨n - 1, by omega⟩
    have hr₁ : r₁.rest.length ≤ m := Nat.le_of_succ_le_succ hlt
    have hrest : ∀ r₂ : Reading, r₂.rest.length ≤ m → Ends (·.rest.length) (m + 1)
        (times index f 0 i.natAbs r₂ >>= blocks count index f bound)
        (times index g 0 i.natAbs r₂ >>= blocks count index g bound) := by
      intro r₂ hr₂
      refine (ends_times (hstep m (Nat.lt_succ_self m)) 0 _ hr₂).bind fun r₃ hr₃ => ?_
      exact (ih (fun k hk => hstep k (by omega)) hr₃ (by omega)).mono (Nat.le_succ m)
    dsimp only
    split_ifs
    · exact .ok (Nat.le_succ_of_le hr₁)
    · exact (ends_negate hr₁ i).bind hrest
    · exact hrest r₁ hr₁

theorem ends_allBlocks (hstep : ∀ k < n, ∀ r, r.rest.length ≤ k → Ends (·.rest.length) k (f r) (g r))
    (h : r.rest.length ≤ n) :
    Ends (·.rest.length) n (allBlocks count index f r) (allBlocks count index g r) := by
  refine Ends.mono (ends_blocks (fun k hk => hstep k (hk.trans_le h)) (Nat.le_refl _) ?_) h
  exact Nat.lt_succ_self _

end Blocks

mutual

/-- The functions that are called before anything is read. -/
def immediate : Decoder → List String
  | .recur name _ => [name]
  | .record _ parts => immediateParts parts
  | _ => []

def immediateParts : List Decoder → List String
  | [] => []
  | d :: ds => immediate d ++ immediateParts ds

end

section Run

variable {call call' : String → List UInt8 → Except CodecError (Value × List UInt8)}

/-- Calls of a function that end in the same way, with at most so many bytes. -/
def Answers (call call' : String → List UInt8 → Except CodecError (Value × List UInt8)) (n : Nat)
    (name : String) : Prop :=
  ∀ bytes : List UInt8, bytes.length ≤ n → Ends (·.2.length) n (call name bytes) (call' name bytes)

mutual

/-- Code ends if the functions do that it calls: those that it calls before anything is read with all of
the bytes, and others with fewer. -/
theorem ends_run {n : Nat} (hfew : ∀ k < n, ∀ name, Answers call call' k name) :
    ∀ (d : Decoder) (r : Reading), (∀ name ∈ d.immediate, Answers call call' n name) →
      r.rest.length ≤ n → Ends (·.rest.length) n (run call d r) (run call' d r)
  | .null place, r, _, h => by
    rw [run, run]
    exact ends_assign h place .null
  | .primitive type schema place, r, _, h => by
    rw [run, run]
    exact ends_readTo place (Primitive.ends_read h type schema)
  | .logical type place, r, _, h => by
    rw [run, run]
    exact ends_readTo place (ends_readLogical h type)
  | .record place parts, r, hnow, h => by
    rw [run, run]
    refine (ends_assign h place _).bind fun r₁ hr₁ => ?_
    exact ends_runParts hfew parts r₁ hnow hr₁
  | .array place index count item body, r, _, h => by
    rw [run, run]
    refine (ends_assign h place _).bind fun r₁ hr₁ => ?_
    refine ends_allBlocks (fun k hk r₂ hr₂ => ?_) hr₁
    have hbody := ends_run (fun m hm => hfew m (hm.trans hk)) body r₂ (fun name _ => hfew k hk name) hr₂
    exact hbody.bind fun r₃ hr₃ => ends_append hr₃ place item
  | .enum place symbols, r, _, h => by
    rw [run, run]
    exact ends_readTo place (ends_readSymbol h symbols)
  | .map place key index count body, r, _, h => by
    rw [run, run]
    refine (ends_assign h place _).bind fun r₁ hr₁ => ?_
    refine ends_allBlocks (fun k hk r₂ hr₂ => ?_) hr₁
    refine (Primitive.ends_readText hr₂).bind fun a ha => ?_
    exact ends_run (fun m hm => hfew m (hm.trans hk)) body _ (fun name _ => hfew k hk name) ha
  | .union place index wrapped cases, r, _, h => by
    rw [run, run]
    refine (ends_integerTo h index).bind ?_
    rintro ⟨i, r₁⟩ hlt
    obtain ⟨m, rfl⟩ : ∃ m, n = m + 1 := ⟨n - 1, by omega⟩
    have hcases := ends_runCases (fun k hk => hfew k (by omega)) (hfew m (Nat.lt_succ_self m)) index 0 cases r₁
      (Nat.le_of_succ_le_succ hlt)
    exact hcases.mono (Nat.le_succ m)
  | .recur name place, r, hnow, h => by
    rw [run, run]
    exact ends_readTo place (hnow name List.mem_cons_self _ h)

theorem ends_runParts {n : Nat} (hfew : ∀ k < n, ∀ name, Answers call call' k name) :
    ∀ (parts : List Decoder) (r : Reading), (∀ name ∈ immediateParts parts, Answers call call' n name) →
      r.rest.length ≤ n → Ends (·.rest.length) n (runParts call parts r) (runParts call' parts r)
  | [], r, _, h => by
    rw [runParts, runParts]
    exact .ok h
  | d :: ds, r, hnow, h => by
    rw [runParts, runParts]
    have hfirst := ends_run hfew d r (fun name hname => hnow name (List.mem_append_left _ hname)) h
    refine hfirst.bind fun r₁ hr₁ => ?_
    exact ends_runParts hfew ds r₁ (fun name hname => hnow name (List.mem_append_right _ hname)) hr₁

theorem ends_runCases {n : Nat} (hfew : ∀ k < n, ∀ name, Answers call call' k name)
    (hnow : ∀ name, Answers call call' n name) (index : String) :
    ∀ (i : Nat) (cases : List (Json × Decoder)) (r : Reading), r.rest.length ≤ n →
      Ends (·.rest.length) n (runCases call index i cases r) (runCases call' index i cases r)
  | _, [], r, h => by
    rw [runCases, runCases]
    exact .ok h
  | i, (_, d) :: rest, r, h => by
    rw [runCases, runCases]
    have hrest : ∀ r : Reading, r.rest.length ≤ n → Ends (·.rest.length) n (runCases call index (i + 1) rest r)
        (runCases call' index (i + 1) rest r) := ends_runCases hfew hnow index (i + 1) rest
    split_ifs
    · exact (ends_run hfew d r (fun name _ => hnow name) h).bind hrest
    · exact hrest r h

end

theorem ends_apply {n : Nat} {d : Decoder} {bytes : List UInt8}
    (hfew : ∀ k < n, ∀ name, Answers call call' k name)
    (hnow : ∀ name ∈ d.immediate, Answers call call' n name) (h : bytes.length ≤ n) :
    Ends (·.2.length) n (d.apply call bytes) (d.apply call' bytes) := by
  refine (ends_run hfew d ⟨bytes, []⟩ hnow h).bind fun r hr => ?_
  exact Ends.bind_value (r.get_ne_endless _) fun _ => .ok hr

end Run

end Code.Decoder

namespace Code.Routine

open Decoder

variable {table : List (String × Routine)} {depth k : Nat} {name : String}

/-- The function of one name calls that of the other before it has read anything. -/
def Hands (table : List (String × Routine)) (a b : String) : Prop :=
  ∃ r, (a, r) ∈ table ∧ ∃ name ∈ r.reader.immediate, functionSuffix name = b

/-- Before anything is read, so many functions call one another at most, beginning with this one. -/
def Within (table : List (String × Routine)) : Nat → String → Prop
  | 0, name => function? table name = none
  | k + 1, name => ∀ r, function? table name = some r → ∀ callee ∈ r.reader.immediate, Within table k callee

theorem exists_chain_of_not_within (h : ¬Within table k name) :
    ∃ rest, rest.length = k ∧ List.IsChain (Hands table) (functionSuffix name :: rest) ∧
      ∀ a ∈ functionSuffix name :: rest, a ∈ table.map Prod.fst := by
  have hkey : ∀ {r}, function? table name = some r → functionSuffix name ∈ table.map Prod.fst :=
    fun hr => List.mem_map.2 ⟨_, mem_of_function? hr, rfl⟩
  induction k generalizing name with
  | zero =>
    obtain ⟨r, hr⟩ := Option.ne_none_iff_exists'.1 h
    exact ⟨[], rfl, .singleton _, fun a ha => List.mem_singleton.1 ha ▸ hkey hr⟩
  | succ k ih =>
    simp only [Within, not_forall] at h
    obtain ⟨r, hr, callee, hcallee, hnot⟩ := h
    obtain ⟨rest, hlength, hchain, hall⟩ := ih hnot fun hr => List.mem_map.2 ⟨_, mem_of_function? hr, rfl⟩
    have hhands : Hands table (functionSuffix name) (functionSuffix callee) :=
      ⟨r, mem_of_function? hr, callee, hcallee, rfl⟩
    refine ⟨functionSuffix callee :: rest, by rw [List.length_cons, hlength], .cons_cons hhands hchain, ?_⟩
    intro a ha
    rcases List.mem_cons.1 ha with rfl | ha
    · exact hkey hr
    · exact hall a ha

theorem within_length (h : ∀ a, ¬Relation.TransGen (Hands table) a a) (name : String) :
    Within table table.length name := by
  by_contra hnot
  obtain ⟨rest, hlength, hchain, hall⟩ := exists_chain_of_not_within hnot
  have hpairs := List.isChain_iff_pairwise.1 (hchain.imp fun _ _ => Relation.TransGen.single)
  have hnodup : (functionSuffix name :: rest).Nodup := by
    refine List.nodup_iff_pairwise_ne.2 (hpairs.imp ?_)
    rintro a _ ha rfl
    exact h a ha
  have hle := hnodup.length_le_of_subset hall
  rw [List.length_map, List.length_cons, hlength] at hle
  omega

theorem answers_readCall {most : Nat} (hall : ∀ name, Within table most name) {n depth' : Nat} (h : Within table k name)
    (hdepth : n * (most + 1) + k < depth) (hdepth' : n * (most + 1) + k < depth') :
    Answers (readCall table depth) (readCall table depth') n name := by
  induction depth generalizing n k depth' name with
  | zero => exact absurd hdepth (Nat.not_lt_zero _)
  | succ depth ih =>
    obtain ⟨depth', rfl⟩ : ∃ m, depth' = m + 1 := ⟨depth' - 1, by omega⟩
    intro bytes hbytes
    simp only [readCall]
    cases hr : function? table name with
    | none => exact .error (by simp)
    | some r =>
      cases k with
      | zero =>
        rw [Within, hr] at h
        cases h
      | succ k =>
        refine ends_apply (fun m hm callee => ?_) (fun callee hcallee => ?_) hbytes
        · have hle : (m + 1) * (most + 1) ≤ n * (most + 1) := Nat.mul_le_mul_right _ hm
          rw [Nat.add_mul, Nat.one_mul] at hle
          exact ih (hall callee) (by omega) (by omega)
        · exact ih (h r hr callee hcallee) (by omega) (by omega)

/-- Reading ends, and following more calls has no influence on it, if no function comes back to itself
before anything is read. -/
theorem ends_read {r : Routine} (h : ∀ a, ¬Relation.TransGen (Hands r.functions) a a) (bytes : List UInt8)
    (hdepth : r.readBound bytes ≤ depth) :
    Ends (·.2.length) bytes.length (r.reader.apply (readCall r.functions (r.readBound bytes)) bytes)
      (r.reader.apply (readCall r.functions depth) bytes) := by
  have hwithin := within_length h
  have hanswers : ∀ n ≤ bytes.length, ∀ name,
      Answers (readCall r.functions (r.readBound bytes)) (readCall r.functions depth) n name := by
    intro n hn name
    have hle : n * (r.functions.length + 1) ≤ bytes.length * (r.functions.length + 1) :=
      Nat.mul_le_mul_right _ hn
    have hbound : n * (r.functions.length + 1) + r.functions.length < r.readBound bytes := by
      rw [readBound, Nat.add_mul, Nat.one_mul]
      omega
    exact answers_readCall hwithin (hwithin name) hbound (hbound.trans_le hdepth)
  exact ends_apply (fun k hk name => hanswers k hk.le name) (fun name _ => hanswers _ le_rfl name) le_rfl

end Code.Routine

end AvroCodec
