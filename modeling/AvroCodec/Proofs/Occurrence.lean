import AvroCodec.Text.Lines
import Mathlib.Algebra.GroupWithZero.Nat

/-!
# How often a text occurs in another

Texts are put together from lines, and lines are given a margin. A pattern that is part of a line and does
not begin with a blank occurs as often in the whole as in the lines. Replacing a pattern leaves everything
as it is around the places where it occurs.
-/

namespace AvroCodec.Text

/-- The number of places at which a pattern occurs. -/
def occurrences (pattern : List Char) : List Char → Nat
  | [] => 0
  | c :: rest => (if pattern.isPrefixOf (c :: rest) then 1 else 0) + occurrences pattern rest

def count (pattern s : String) : Nat := occurrences pattern.toList s.toList

variable {p q xs ys : List Char} {b : Char}

theorem isPrefixOf_append_cons (hb : b ∉ p) : p.isPrefixOf (xs ++ b :: ys) = p.isPrefixOf xs := by
  induction xs generalizing p with
  | nil =>
    cases p with
    | nil => rfl
    | cons c p =>
      have hne : (c == b) = false := by
        rw [beq_eq_false_iff_ne]
        rintro rfl
        exact hb List.mem_cons_self
      simp [List.isPrefixOf, hne]
  | cons x xs ih =>
    cases p with
    | nil => rfl
    | cons c p =>
      rw [List.cons_append, List.isPrefixOf, List.isPrefixOf, ih fun h => hb (List.mem_cons_of_mem _ h)]

/-- Where a part of a pattern does not occur, the pattern does not. -/
theorem occurrences_eq_zero_of_part (h : q <:+: p) (hq : q ≠ []) (hzero : occurrences q xs = 0) :
    occurrences p xs = 0 := by
  obtain ⟨before, after, rfl⟩ := h
  have hnone : ∀ zs : List Char, occurrences q zs = 0 → (before ++ q ++ after).isPrefixOf zs = false := by
    intro zs
    induction before generalizing zs with
    | nil =>
      intro hzs
      cases zs with
      | nil =>
        obtain ⟨c, q, rfl⟩ := List.exists_cons_of_ne_nil hq
        rfl
      | cons z zs =>
        rw [occurrences, Nat.add_eq_zero_iff] at hzs
        rw [← Bool.not_eq_true, List.isPrefixOf_iff_prefix]
        intro hprefix
        rw [List.nil_append] at hprefix
        have hqz := List.isPrefixOf_iff_prefix.2 ((List.prefix_append q after).trans hprefix)
        rw [if_pos hqz] at hzs
        cases hzs.1
    | cons c before ih =>
      intro hzs
      cases zs with
      | nil => rfl
      | cons z zs =>
        rw [occurrences, Nat.add_eq_zero_iff] at hzs
        rw [List.cons_append, List.cons_append, List.isPrefixOf, ih zs hzs.2, Bool.and_false]
  induction xs with
  | nil => rfl
  | cons x xs ih =>
    rw [occurrences, hnone _ hzero]
    rw [occurrences, Nat.add_eq_zero_iff] at hzero
    rw [ih hzero.2]
    rfl

/-- A pattern that is part of a line and does not begin with a blank. -/
structure IsMark (p : List Char) : Prop where
  head : ∃ c rest, p = c :: rest ∧ c ≠ ' '
  line : ∀ c ∈ p, isLineBreak c = false

theorem isMark_cons {c : Char} (hc : c ≠ ' ') (h : (c :: p).all (!isLineBreak ·) = true) : IsMark (c :: p) :=
  ⟨⟨c, p, rfl, hc⟩, fun d hd => by simpa using List.all_eq_true.1 h d hd⟩

namespace IsMark

variable (h : IsMark p)
include h

theorem not_mem (hb : isLineBreak b = true) : b ∉ p := fun hmem => by
  rw [h.line b hmem] at hb
  cases hb

theorem occurrences_append (hb : b ∉ p) (xs ys : List Char) :
    occurrences p (xs ++ b :: ys) = occurrences p xs + occurrences p ys := by
  induction xs with
  | nil =>
    obtain ⟨c, rest, rfl, -⟩ := h.head
    have hne : (c == b) = false := by
      rw [beq_eq_false_iff_ne]
      rintro rfl
      exact hb List.mem_cons_self
    simp [occurrences, List.isPrefixOf, hne]
  | cons x xs ih =>
    have hprefix : p.isPrefixOf (x :: (xs ++ b :: ys)) = p.isPrefixOf (x :: xs) := by
      rw [← List.cons_append]
      exact isPrefixOf_append_cons hb
    rw [List.cons_append, occurrences, occurrences, hprefix, ih, Nat.add_assoc]

theorem occurrences_spaces (n : Nat) (xs : List Char) :
    occurrences p (spaces n ++ xs) = occurrences p xs := by
  obtain ⟨c, rest, rfl, hc⟩ := h.head
  have hne : (c == ' ') = false := beq_eq_false_iff_ne.2 hc
  induction n with
  | zero => rfl
  | succ n ih =>
    rw [spaces, List.replicate_succ, List.cons_append, occurrences]
    rw [spaces] at ih
    rw [ih, List.isPrefixOf, hne, Bool.false_and]
    simp

theorem occurrences_linesFrom (line cs : List Char) :
    ((linesFrom line cs).map (occurrences p)).sum = occurrences p (line.reverse ++ cs) := by
  fun_induction linesFrom line cs with
  | case1 line hempty =>
    rw [List.isEmpty_iff.1 hempty]
    rfl
  | case2 line => simp
  | case3 line rest ih =>
    rw [h.occurrences_append (h.not_mem (by decide)), List.map_cons, List.sum_cons, ih,
      ← List.nil_append ('\n' :: rest), h.occurrences_append (h.not_mem (by decide))]
    simp [occurrences]
  | case4 line c rest _ hbreak ih =>
    rw [h.occurrences_append (h.not_mem hbreak), List.map_cons, List.sum_cons, ih]
    rfl
  | case5 line c rest _ _ ih =>
    rw [ih, List.reverse_cons, List.append_assoc]
    rfl

theorem occurrences_flatMap_indentedLine (n : Nat) (first : List Char) (ls : List (List Char)) :
    occurrences p (first ++ ls.flatMap (indentedLine n)) =
      occurrences p first + (ls.map (occurrences p)).sum := by
  induction ls generalizing first with
  | nil => simp
  | cons l ls ih =>
    have hline : occurrences p ((if l.isEmpty then [] else spaces n ++ l) ++ ls.flatMap (indentedLine n)) =
        occurrences p l + (ls.map (occurrences p)).sum := by
      by_cases hempty : l.isEmpty = true
      · rw [if_pos hempty, ih, List.isEmpty_iff.1 hempty]
      · rw [if_neg hempty, List.append_assoc, h.occurrences_spaces, ih]
    rw [List.flatMap_cons, indentedLine, List.cons_append,
      h.occurrences_append (h.not_mem (by decide)), hline, List.map_cons, List.sum_cons]

theorem occurrences_indentChars (n : Nat) (cs : List Char) :
    occurrences p (indentChars n cs) = occurrences p cs := by
  have hlines := h.occurrences_linesFrom [] (cs ++ ['\n'])
  rw [List.reverse_nil, List.nil_append, h.occurrences_append (h.not_mem (by decide))] at hlines
  unfold indentChars lines
  cases hls : linesFrom [] (cs ++ ['\n']) with
  | nil =>
    rw [hls] at hlines
    exact hlines
  | cons first rest =>
    rw [hls, List.map_cons, List.sum_cons] at hlines
    exact (h.occurrences_flatMap_indentedLine n first rest).trans hlines

end IsMark

/-- A text that begins and ends with a character that a pattern does not have. -/
def Separates (sep p : List Char) : Prop :=
  ∃ a ∈ sep.head?, ∃ b ∈ sep.getLast?, a ∉ p ∧ b ∉ p

theorem IsMark.occurrences_separated {sep : List Char} (h : IsMark p) (hsep : Separates sep p)
    (xs ys : List Char) :
    occurrences p (xs ++ sep ++ ys) = occurrences p xs + occurrences p sep + occurrences p ys := by
  obtain ⟨a, ha, b, hb, hap, hbp⟩ := hsep
  obtain ⟨front, rfl⟩ := List.getLast?_eq_some_iff.1 hb
  have hlast := fun zs => h.occurrences_append hbp zs []
  simp only [occurrences, Nat.add_zero] at hlast
  rw [List.append_assoc, List.append_assoc, List.singleton_append, ← List.append_assoc,
    h.occurrences_append hbp, hlast]
  congr 1
  cases front with
  | nil => simp [occurrences]
  | cons c front =>
    obtain rfl : c = a := Option.some.inj ha
    rw [h.occurrences_append hap, ← List.nil_append (c :: front), h.occurrences_append hap, occurrences,
      Nat.zero_add]

section Count

variable {m s t sep : String}

theorem count_separated (h : IsMark m.toList) (hsep : Separates sep.toList m.toList) :
    count m (s ++ sep ++ t) = count m s + count m sep + count m t := by
  rw [count, String.toList_append, String.toList_append, h.occurrences_separated hsep]
  rfl

theorem count_intercalate (h : IsMark m.toList) (hsep : Separates sep.toList m.toList)
    (hzero : count m sep = 0) (ts : List String) :
    count m (sep.intercalate ts) = (ts.map (count m)).sum := by
  induction ts with
  | nil => rw [String.intercalate_nil]; rfl
  | cons t ts ih =>
    cases ts with
    | nil => rw [String.intercalate_singleton, List.map_singleton, List.sum_singleton]
    | cons u us => rw [String.intercalate_cons_cons, count_separated h hsep, ih, hzero]; rfl

theorem count_indent (h : IsMark m.toList) (n : Nat) (s : String) : count m (indent n s) = count m s := by
  rw [count, indent, String.toList_ofList, h.occurrences_indentChars]
  rfl

theorem count_indentAll (h : IsMark m.toList) (n : Nat) (s : String) :
    count m (indentAll n s) = count m s := by
  rw [count, indentAll, String.toList_ofList, h.occurrences_spaces, h.occurrences_indentChars]
  rfl

end Count

/-! ### Replacing -/

variable {replacement : List Char}

theorem replaceFrom_skip (xs ys : List Char) :
    replaceFrom p replacement xs.length (xs ++ ys) = replaceFrom p replacement 0 ys := by
  induction xs with
  | nil => rfl
  | cons x xs ih => exact ih

theorem replaceFrom_of_occurrences (h : occurrences p xs = 0) : replaceFrom p replacement 0 xs = xs := by
  induction xs with
  | nil => rfl
  | cons x xs ih =>
    rw [occurrences, Nat.add_eq_zero_iff] at h
    rw [replaceFrom, if_neg, ih h.2]
    intro hprefix
    rw [if_pos hprefix] at h
    cases h.1

theorem replaceFrom_append_self (hp : p ≠ []) (ys : List Char) :
    replaceFrom p replacement 0 (p ++ ys) = replacement ++ replaceFrom p replacement 0 ys := by
  obtain ⟨c, rest, rfl⟩ := List.exists_cons_of_ne_nil hp
  rw [List.cons_append, replaceFrom, ← List.cons_append,
    if_pos (List.isPrefixOf_iff_prefix.2 (List.prefix_append _ _))]
  exact congrArg _ (replaceFrom_skip rest ys)

theorem replaceFrom_append (hb : b ∉ xs) (ys : List Char) :
    replaceFrom (b :: p) replacement 0 (xs ++ ys) = xs ++ replaceFrom (b :: p) replacement 0 ys := by
  induction xs with
  | nil => rfl
  | cons x xs ih =>
    have hne : (b == x) = false := beq_eq_false_iff_ne.2 fun h => hb (h ▸ List.mem_cons_self)
    rw [List.cons_append, replaceFrom, List.isPrefixOf, hne, Bool.false_and, if_neg Bool.false_ne_true,
      ih fun h => hb (List.mem_cons_of_mem _ h), List.cons_append]

theorem replaceFrom_singleton (xs : List Char) :
    replaceFrom [b] replacement 0 xs = xs.flatMap fun c => if c = b then replacement else [c] := by
  induction xs with
  | nil => rfl
  | cons x xs ih =>
    rw [replaceFrom, List.isPrefixOf, List.isPrefixOf, Bool.and_true, List.flatMap_cons]
    by_cases hx : x = b
    · rw [if_pos hx, hx, if_pos (beq_self_eq_true b)]
      exact congrArg _ ih
    · rw [if_neg hx, if_neg (fun h => hx (eq_of_beq h).symm), ih]
      rfl

end AvroCodec.Text
