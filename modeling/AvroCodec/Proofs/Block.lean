import AvroCodec.Proofs.Encoding

/-!
# Parts in blocks

The items of an array and the entries of a map stand in blocks, and zero after the last of them. How many
blocks there are, and which of them give their size, is up to the writer.
-/

namespace AvroCodec

open Varint

theorem length_le_flatMap {α : Type} (enc : α → List UInt8) {parts : List α} {q : α}
    (hq : q ∈ parts) : (enc q).length ≤ (parts.flatMap enc).length := by
  obtain ⟨front, back, rfl⟩ := List.append_of_mem hq
  rw [List.flatMap_append, List.flatMap_cons, List.length_append, List.length_append]
  omega

/-- A block of parts. A block that gives a size has the number of its parts negated. Nothing is said about
what the size is. -/
structure Block (α : Type) where
  parts : List α
  size : Option Int
  nonempty : parts ≠ []
  count_lt : parts.length < limit
  size_fits : ∀ n ∈ size, zigzag n < modulus

namespace Block

variable {α β : Type} {blocks : List (Block α)}

/-- What stands in front of the parts. -/
def header (b : Block α) : List UInt8 :=
  match b.size with
  | none => bytesOf b.parts.length
  | some n => bytesOf (-b.parts.length) ++ bytesOf n

def bytes (enc : α → List UInt8) (b : Block α) : List UInt8 := b.header ++ b.parts.flatMap enc

/-- The bytes of blocks and of what closes them. -/
def allBytes (enc : α → List UInt8) (blocks : List (Block α)) : List UInt8 :=
  blocks.flatMap (bytes enc) ++ bytesOf 0

def content (blocks : List (Block α)) : List α := blocks.flatMap (·.parts)

theorem content_cons (b : Block α) (blocks : List (Block α)) :
    content (b :: blocks) = b.parts ++ content blocks := List.flatMap_cons ..

theorem allBytes_cons (enc : α → List UInt8) (b : Block α) (blocks : List (Block α)) :
    allBytes enc (b :: blocks) = b.header ++ (b.parts.flatMap enc ++ allBytes enc blocks) := by
  simp only [allBytes, bytes, List.flatMap_cons, List.append_assoc]

theorem one_le_length_header (b : Block α) : 1 ≤ b.header.length := by
  unfold header
  split
  · exact one_le_length_bytesOf _
  · have hcount := one_le_length_bytesOf (-b.parts.length)
    rw [List.length_append]
    omega

theorem length_le_allBytes (enc : α → List UInt8) (blocks : List (Block α)) :
    blocks.length + 1 ≤ (allBytes enc blocks).length := by
  induction blocks with
  | nil => exact one_le_length_bytesOf 0
  | cons b blocks ih =>
    have hheader := b.one_le_length_header
    simp only [allBytes_cons, List.length_cons, List.length_append]
    omega

/-- Each part is shorter than the bytes of the blocks, since the block of the part has a number in
front. -/
theorem length_lt_allBytes (enc : α → List UInt8) {q : α}
    (hq : q ∈ content blocks) : (enc q).length < (allBytes enc blocks).length := by
  induction blocks with
  | nil => cases hq
  | cons b blocks ih =>
    have hheader := b.one_le_length_header
    simp only [allBytes_cons, List.length_append]
    rw [content_cons, List.mem_append] at hq
    rcases hq with hq | hq
    · have hle := length_le_flatMap enc hq
      omega
    · have hlt := ih hq
      omega

def map (f : α → β) (b : Block α) : Block β where
  parts := b.parts.map f
  size := b.size
  nonempty h := b.nonempty (List.map_eq_nil_iff.1 h)
  count_lt := by
    rw [List.length_map]
    exact b.count_lt
  size_fits := b.size_fits

theorem content_map (f : α → β) (blocks : List (Block α)) :
    content (blocks.map (map f)) = (content blocks).map f := by
  simp only [content, List.flatMap_map, List.map_flatMap]
  rfl

theorem forall_content_map {f : α → β} {P : β → Prop} {blocks : List (Block α)} :
    (∀ q ∈ content (blocks.map (map f)), P q) ↔ ∀ q ∈ content blocks, P (f q) := by
  rw [content_map]
  exact List.forall_mem_map

theorem allBytes_map (enc : β → List UInt8) (f : α → β) (blocks : List (Block α)) :
    allBytes enc (blocks.map (map f)) = allBytes (fun q => enc (f q)) blocks := by
  have hbytes : ∀ b : Block α, bytes enc (b.map f) = bytes (fun q => enc (f q)) b := by
    intro b
    simp only [bytes, header, map, List.length_map, List.flatMap_map]
  simp only [allBytes, List.flatMap_map, hbytes]

theorem none_fits : ∀ n ∈ (none : Option Int), zigzag n < modulus := by simp

/-- All parts in one block without a size, or no block if there are none. -/
def whole (parts : List α) (h : parts.length < limit) : List (Block α) :=
  if hne : parts = [] then [] else [⟨parts, none, hne, h, none_fits⟩]

theorem content_whole (parts : List α) (h : parts.length < limit) :
    content (whole parts h) = parts := by
  unfold whole
  split_ifs with hne
  · exact hne.symm
  · exact List.append_nil _

theorem allBytes_whole (enc : α → List UInt8) (parts : List α) (h : parts.length < limit) :
    allBytes enc (whole parts h) = counted parts.length (parts.flatMap enc) := by
  unfold whole counted
  by_cases hne : parts = []
  · simp [hne, allBytes]
  · have hlen : parts.length ≠ 0 := by simpa using hne
    simp [hne, hlen, allBytes, bytes, header]

/-- What holds of each part with some companion holds of blocks with the companions. -/
theorem exists_companions {P : α → β → Prop} (h : ∀ q ∈ content blocks, ∃ y, P q y) :
    ∃ blocks' : List (Block (α × β)), blocks'.map (map (·.1)) = blocks ∧
      ∀ q ∈ content blocks', P q.1 q.2 := by
  induction blocks with
  | nil => exact ⟨[], rfl, by simp [content]⟩
  | cons b blocks ih =>
    simp only [content_cons, List.mem_append] at h
    obtain ⟨parts, hparts, hp⟩ := AvroCodec.exists_companions fun q hq => h q (.inl hq)
    obtain ⟨blocks', rfl, hblocks⟩ := ih fun q hq => h q (.inr hq)
    have hlen : parts.length = b.parts.length := by rw [← hparts, List.length_map]
    let b' : Block (α × β) :=
      { parts, size := b.size, size_fits := b.size_fits
        nonempty := by
          rintro rfl
          exact b.nonempty hparts.symm
        count_lt := by
          rw [hlen]
          exact b.count_lt }
    refine ⟨b' :: blocks', ?_, ?_⟩
    · have hb' : b'.map (·.1) = b := by
        obtain ⟨_, _, _, _, _⟩ := b
        cases hparts
        rfl
      rw [List.map_cons, hb']
    · intro q hq
      rw [content_cons, List.mem_append] at hq
      rcases hq with hq | hq
      · exact hp q hq
      · exact hblocks q hq

end Block

end AvroCodec
