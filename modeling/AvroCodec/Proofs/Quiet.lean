import AvroCodec.Code.Place
import AvroCodec.Proofs.Occurrence

/-!
# Texts that define nothing

A definition is a line with the word `def`, a blank and a name. A text is quiet if it has the end of that word
with a blank after it nowhere. Whether a text is quiet is seen by reading it once, and a text put together
from quiet ones is quiet if none of them begins with what the one before it lacks.
-/

namespace AvroCodec.Text

/-- How much of the end of the word `def` was read last. -/
inductive Stage where
  | start
  | e
  | ef
  deriving DecidableEq

instance (p : Stage → Prop) [DecidablePred p] : Decidable (∀ s, p s) :=
  decidable_of_iff (p .start ∧ p .e ∧ p .ef) ⟨fun h s => by cases s <;> simp only [h], fun h => ⟨h _, h _, h _⟩⟩

/-- Reads one character. There is no stage after a blank behind the word. -/
def advance (s : Stage) (c : Char) : Option Stage :=
  if c = ' ' then if s = .ef then none else some .start
  else if c = 'e' then some .e
  else if c = 'f' then some (if s = .e then .ef else .start)
  else some .start

def scan (s : Stage) (cs : List Char) : Option Stage := cs.foldlM advance s

theorem scan_cons (s : Stage) (c : Char) (cs : List Char) :
    scan s (c :: cs) = (advance s c).bind (scan · cs) := rfl

theorem scan_append (s : Stage) (xs ys : List Char) :
    scan s (xs ++ ys) = (scan s xs).bind (scan · ys) :=
  List.foldlM_append

/-- What is still known of the characters read. -/
def Stage.chars : Stage → List Char
  | start => []
  | e => ['e']
  | ef => ['e', 'f']

theorem isSome_scan (s : Stage) (cs : List Char) :
    (scan s cs).isSome = true ↔ occurrences ['e', 'f', ' '] (s.chars ++ cs) = 0 := by
  induction cs generalizing s with
  | nil => cases s <;> decide
  | cons c cs ih =>
    rw [scan_cons, advance]
    by_cases hblank : c = ' '
    · subst hblank
      cases s <;> simp [Stage.chars, occurrences, List.isPrefixOf, ih .start]
    by_cases he : c = 'e'
    · subst he
      cases s <;> simp [Stage.chars, occurrences, List.isPrefixOf, ih .e]
    by_cases hf : c = 'f'
    · subst hf
      cases s <;> simp [Stage.chars, occurrences, List.isPrefixOf, ih .ef, ih .start]
    · have hfirst : ('e' == c) = false := beq_eq_false_iff_ne.2 (Ne.symm he)
      have hnext : ('f' == c) = false := beq_eq_false_iff_ne.2 (Ne.symm hf)
      have hlast : (' ' == c) = false := beq_eq_false_iff_ne.2 (Ne.symm hblank)
      cases s <;> simp [Stage.chars, occurrences, List.isPrefixOf, hblank, he, hf, hfirst, hnext, hlast, ih .start]

/-- A text that defines nothing. -/
def Quiet (t : String) : Prop := (scan .start t.toList).isSome = true

/-- A quiet text after which any other may follow. -/
def Settled (t : String) : Prop := scan .start t.toList = some .start

/-- A settled text that may follow any other. -/
def Closing (t : String) : Prop := ∀ s, scan s t.toList = some .start

/-- A quiet text that may follow any other. -/
def Trailing (t : String) : Prop := ∀ s, (scan s t.toList).isSome = true

instance (t : String) : Decidable (Quiet t) := inferInstanceAs (Decidable (_ = _))

instance (t : String) : Decidable (Settled t) := inferInstanceAs (Decidable (_ = _))

instance (t : String) : Decidable (Closing t) := inferInstanceAs (Decidable (∀ _, _))

instance (t : String) : Decidable (Trailing t) := inferInstanceAs (Decidable (∀ _, _))

section Put

variable {s t u : String}

theorem Settled.quiet (h : Settled s) : Quiet s := by
  rw [Quiet, show scan .start s.toList = some .start from h]
  rfl

theorem Closing.settled (h : Closing s) : Settled s := h .start

theorem Settled.append (hs : Settled s) (ht : Settled t) : Settled (s ++ t) := by
  rw [Settled, String.toList_append, scan_append, show scan .start s.toList = _ from hs]
  exact ht

theorem Settled.append_quiet (hs : Settled s) (ht : Quiet t) : Quiet (s ++ t) := by
  rw [Quiet, String.toList_append, scan_append, show scan .start s.toList = _ from hs]
  exact ht

theorem Quiet.append (hs : Quiet s) (ht : Closing t) : Settled (s ++ t) := by
  obtain ⟨stage, hstage⟩ := Option.isSome_iff_exists.1 hs
  rw [Settled, String.toList_append, scan_append, hstage]
  exact ht stage

theorem Closing.append (hs : Closing s) (ht : Settled t) : Closing (s ++ t) := by
  intro stage
  rw [String.toList_append, scan_append, hs stage]
  exact ht

theorem Settled.name (hs : Settled s) (ht : Closing t) (hu : Settled u) : Settled (s ++ t ++ u) :=
  (hs.append ht.settled).append hu

theorem Settled.paste (hs : Settled s) (ht : Quiet t) (hu : Closing u) : Settled (s ++ t ++ u) :=
  (hs.append_quiet ht).append hu

theorem Closing.trailing (h : Closing t) : Trailing t := by
  intro stage
  rw [h stage]
  rfl

theorem Quiet.append_trailing (hs : Quiet s) (ht : Trailing t) : Quiet (s ++ t) := by
  obtain ⟨stage, hstage⟩ := Option.isSome_iff_exists.1 hs
  rw [Quiet, String.toList_append, scan_append, hstage]
  exact ht stage

theorem Closing.append_quiet (hs : Closing s) (ht : Quiet t) : Trailing (s ++ t) := by
  intro stage
  rw [String.toList_append, scan_append, hs stage]
  exact ht

theorem Trailing.append (hs : Trailing s) (ht : Trailing t) : Trailing (s ++ t) := by
  intro stage
  obtain ⟨stage', hstage⟩ := Option.isSome_iff_exists.1 (hs stage)
  rw [String.toList_append, scan_append, hstage]
  exact ht stage'

theorem quiet_intercalate {sep : String} {ts : List String} (hsep : Closing sep) (h : ∀ t ∈ ts, Quiet t) :
    Quiet (sep.intercalate ts) := by
  induction ts with
  | nil => rw [String.intercalate_nil]; decide
  | cons t ts ih =>
    cases ts with
    | nil => rw [String.intercalate_singleton]; exact h t List.mem_cons_self
    | cons u us =>
      rw [String.intercalate_cons_cons]
      exact ((h t List.mem_cons_self).append hsep).append_quiet
        (ih fun t ht => h t (List.mem_cons_of_mem _ ht))

theorem isMark_ending : IsMark "ef ".toList := isMark_cons (by decide) (by decide)

theorem quiet_iff : Quiet t ↔ count "ef " t = 0 := isSome_scan .start t.toList

theorem Quiet.indent (h : Quiet t) (n : Nat) : Quiet (indent n t) :=
  quiet_iff.2 ((count_indent isMark_ending n t).trans (quiet_iff.1 h))

end Put

/-! ### Texts without blanks -/

def Blankless (t : String) : Prop := ' ' ∉ t.toList

instance (t : String) : Decidable (Blankless t) := inferInstanceAs (Decidable (¬_))

theorem isSome_scan_of_not_mem {cs : List Char} (h : ' ' ∉ cs) (s : Stage) :
    ∃ s', scan s cs = some s' := by
  induction cs generalizing s with
  | nil => exact ⟨s, rfl⟩
  | cons c cs ih =>
    have hc : c ≠ ' ' := fun hc => h (hc ▸ List.mem_cons_self)
    have hadvance : ∃ s₁, advance s c = some s₁ := by
      rw [advance, if_neg hc]
      by_cases he : c = 'e'
      · exact ⟨_, if_pos he⟩
      rw [if_neg he]
      by_cases hf : c = 'f'
      · exact ⟨_, if_pos hf⟩
      · exact ⟨_, if_neg hf⟩
    obtain ⟨s₁, hs₁⟩ := hadvance
    rw [scan_cons, hs₁]
    exact ih (fun hcs => h (List.mem_cons_of_mem _ hcs)) s₁

section Blankless

variable {s t : String}

theorem Blankless.quiet (h : Blankless t) : Quiet t := by
  obtain ⟨s, hs⟩ := isSome_scan_of_not_mem h .start
  rw [Quiet, hs]
  rfl

theorem Blankless.append (hs : Blankless s) (ht : Blankless t) : Blankless (s ++ t) := by
  rw [Blankless, String.toList_append, List.mem_append]
  exact not_or.2 ⟨hs, ht⟩

/-- Whether a text ends, and not in a part of the word `def`. -/
def endsApart (t : String) : Bool := t.toList.getLast?.any fun c => c != 'e' && c != 'f'

/-- A text without a blank whose end is not that of a part of the word `def`. -/
def Word (t : String) : Prop := Blankless t ∧ endsApart t = true

instance (t : String) : Decidable (Word t) := inferInstanceAs (Decidable (_ ∧ _))

theorem Word.closing (h : Word t) : Closing t := by
  obtain ⟨hblank, hend⟩ := h
  obtain ⟨c, hc, hne⟩ := (Option.any_eq_true _ _).1 hend
  obtain ⟨front, hfront⟩ := List.getLast?_eq_some_iff.1 hc
  rw [Bool.and_eq_true, bne_iff_ne, bne_iff_ne] at hne
  intro s
  rw [Blankless, hfront, List.mem_append, not_or] at hblank
  obtain ⟨s', hs'⟩ := isSome_scan_of_not_mem hblank.1 s
  have hne' : c ≠ ' ' := fun hne => hblank.2 (hne ▸ List.mem_cons_self)
  rw [hfront, scan_append, hs', Option.bind_some, scan_cons, advance, if_neg hne', if_neg hne.1, if_neg hne.2]
  rfl

theorem blankless_ofList {cs : List Char} (h : ' ' ∉ cs) : Blankless (String.ofList cs) := by
  rw [Blankless, String.toList_ofList]
  exact h

theorem Blankless.append_word (hs : Blankless s) (ht : Word t) : Word (s ++ t) := by
  obtain ⟨hblank, hend⟩ := ht
  obtain ⟨c, hc, -⟩ := (Option.any_eq_true _ _).1 hend
  refine ⟨hs.append hblank, ?_⟩
  rw [endsApart, String.toList_append, List.getLast?_append, hc]
  rwa [endsApart, hc] at hend

theorem blankless_nat (n : Nat) : Blankless (toString n) := by
  intro h
  rw [Nat.toString_eq_repr, Nat.toList_repr] at h
  exact absurd (Nat.isDigit_of_mem_toDigits (by decide) (by decide) h) (by decide)

theorem word_nat (n : Nat) : Word (toString n) := by
  refine ⟨blankless_nat n, ?_⟩
  have hne : Nat.toDigits 10 n ≠ [] := Nat.toDigits_ne_nil
  have hdigit := Nat.isDigit_of_mem_toDigits (by decide) (by decide) (List.getLast_mem hne)
  rw [endsApart, Nat.toString_eq_repr, Nat.toList_repr, List.getLast?_eq_some_getLast hne, Option.any_some,
    Bool.and_eq_true, bne_iff_ne, bne_iff_ne]
  constructor <;> (intro h; rw [h] at hdigit; cases hdigit)

theorem blankless_int (n : Int) : Blankless (toString n) := by
  rw [Int.toString_eq_repr]
  cases n with
  | ofNat n => exact blankless_nat n
  | negSucc n => exact Blankless.append (by decide) (blankless_nat (n + 1))

theorem digitChar_ne_blank : ∀ n < 16, Nat.digitChar n ≠ ' ' := by decide

theorem blank_not_mem_toDigits (n : Nat) : ' ' ∉ Nat.toDigits 16 n := by
  induction n using Nat.strongRecOn with
  | ind n ih =>
    by_cases hn : n < 16
    · rw [Nat.toDigits_of_lt_base hn, List.mem_singleton]
      exact Ne.symm (digitChar_ne_blank n hn)
    · rw [Nat.toDigits_of_base_le (by decide) (by omega), List.mem_append, List.mem_singleton]
      exact not_or.2 ⟨ih _ (by omega), Ne.symm (digitChar_ne_blank _ (Nat.mod_lt _ (by decide)))⟩

theorem blank_not_mem_hex (width n : Nat) : ' ' ∉ hex width n := by
  rw [hex, List.mem_append, List.mem_replicate]
  exact not_or.2 ⟨fun h => absurd h.2 (by decide), blank_not_mem_toDigits n⟩

theorem blank_not_mem_escapeChar {quote c : Char} (hc : c ≠ ' ') : ' ' ∉ escapeChar quote c := by
  have hhex := fun width => blank_not_mem_hex width c.toNat
  unfold escapeChar
  repeat' split
  all_goals simp [Ne.symm hc, hhex]

theorem quoteFor_ne_blank (cs : List Char) : quoteFor cs ≠ ' ' := by
  unfold quoteFor
  split <;> decide

theorem Blankless.quote (h : Blankless t) : Blankless (quote t) := by
  rw [Blankless, Text.quote, String.toList_ofList, quoteChars, List.mem_cons, List.mem_append, List.mem_singleton]
  have hquote := Ne.symm (quoteFor_ne_blank t.toList)
  refine not_or.2 ⟨hquote, not_or.2 ⟨fun hmem => ?_, hquote⟩⟩
  obtain ⟨c, hc, hblank⟩ := List.mem_flatMap.1 hmem
  exact blank_not_mem_escapeChar (fun hc' => h (hc' ▸ hc)) hblank

end Blankless

end AvroCodec.Text

namespace AvroCodec.Json

open Text

mutual

/-- Whether no text in a document has a blank. -/
def isBlankless : Json → Bool
  | .str s => !hasChar ' ' s
  | .arr items => isBlanklessItems items
  | .obj members => isBlanklessMembers members
  | _ => true

def isBlanklessItems : List Json → Bool
  | [] => true
  | x :: xs => x.isBlankless && isBlanklessItems xs

def isBlanklessMembers : List (String × Json) → Bool
  | [] => true
  | (k, x) :: xs => !hasChar ' ' k && x.isBlankless && isBlanklessMembers xs

end

theorem blankless_of_hasChar {s : String} (h : (!hasChar ' ' s) = true) : Blankless s := by
  intro hmem
  rw [hasChar, List.contains_iff_mem.2 hmem] at h
  cases h

theorem blankless_fractionText (mantissa : Int) (places : Nat) : Blankless (fractionText mantissa places) := by
  have hpadded : ∀ n, ' ' ∉ List.replicate n '0' ++ (toString mantissa.natAbs).toList := by
    intro n
    rw [List.mem_append, List.mem_replicate]
    exact not_or.2 ⟨fun h => absurd h.2 (by decide), blankless_nat _⟩
  have htake := fun k n => blankless_ofList fun h => hpadded n (List.mem_of_mem_take (i := k) h)
  have hdrop := fun k n => blankless_ofList fun h => hpadded n (List.mem_of_mem_drop (i := k) h)
  refine Blankless.append (Blankless.append (Blankless.append ?_ (htake _ _)) (by decide)) ?_
  · split <;> decide
  · split
    · decide
    · exact hdrop _ _

mutual

theorem quiet_literal : ∀ {d : Json}, d.isBlankless = true → Quiet d.literal
  | .null, _ => by decide
  | .bool true, _ => by decide
  | .bool false, _ => by decide
  | .int n, _ => (blankless_int n).quiet
  | .fraction m p, _ => (blankless_fractionText m p).quiet
  | .str _, h => (blankless_of_hasChar h).quote.quiet
  | .arr _, h => ((show Settled "[" by decide).append_quiet
      (quiet_intercalate (by decide) (quiet_literalItems h))).append (by decide) |>.quiet
  | .obj _, h => ((show Settled "\x7b" by decide).append_quiet
      (quiet_intercalate (by decide) (quiet_literalMembers h))).append (by decide) |>.quiet

theorem quiet_literalItems : ∀ {items : List Json}, isBlanklessItems items = true →
    ∀ t ∈ literalItems items, Quiet t
  | [], _, _, ht => by cases ht
  | x :: xs, h, t, ht => by
    rw [isBlanklessItems, Bool.and_eq_true] at h
    rcases List.mem_cons.1 ht with rfl | ht
    · exact quiet_literal h.1
    · exact quiet_literalItems h.2 t ht

theorem quiet_literalMembers : ∀ {members : Members}, isBlanklessMembers members = true →
    ∀ t ∈ literalMembers members, Quiet t
  | [], _, _, ht => by cases ht
  | (k, x) :: xs, h, t, ht => by
    rw [isBlanklessMembers, Bool.and_eq_true, Bool.and_eq_true] at h
    rcases List.mem_cons.1 ht with rfl | ht
    · exact ((blankless_of_hasChar h.1.1).quote.quiet.append (by decide)).append_quiet (quiet_literal h.1.2)
    · exact quiet_literalMembers h.2 t ht

end

theorem quiet_pasted {d : Json} (h : d.isBlankless = true) : Quiet d.pasted := by
  cases d with
  | str s => exact (blankless_of_hasChar h).quiet
  | _ => exact quiet_literal h

end AvroCodec.Json
