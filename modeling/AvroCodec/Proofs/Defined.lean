import AvroCodec.Codec.Check
import AvroCodec.Proofs.Legible
import AvroCodec.Proofs.ParallelEncode

/-!
# What a module defines

The text of a routine begins with two definitions, and the routines of recursive types inside it begin with
two definitions each, which are named after the type. There are no others in it if the code is legible, and so
the number of definitions of a function can be read off the routine.
-/

namespace AvroCodec

open Code Text

namespace Text

variable {m s t replacement : String} {p xs ys : List Char}

theorem occurrences_le_append (xs ys : List Char) : occurrences p ys ≤ occurrences p (xs ++ ys) := by
  induction xs with
  | nil => exact Nat.le_refl _
  | cons x xs ih => exact Nat.le_trans ih (Nat.le_add_left _ _)

theorem replaceFrom_of_once {replacement : List Char} (hp : p ≠ []) (h : occurrences p (xs ++ (p ++ ys)) = 1) :
    replaceFrom p replacement 0 (xs ++ (p ++ ys)) = xs ++ (replacement ++ ys) := by
  have hself : occurrences p ys + 1 ≤ occurrences p (p ++ ys) := by
    obtain ⟨c, rest, rfl⟩ := List.exists_cons_of_ne_nil hp
    have hrest := occurrences_le_append (p := c :: rest) rest ys
    rw [List.cons_append, occurrences, ← List.cons_append,
      if_pos (List.isPrefixOf_iff_prefix.2 (List.prefix_append _ _))]
    omega
  induction xs with
  | nil =>
    rw [List.nil_append] at h
    rw [List.nil_append, List.nil_append, replaceFrom_append_self hp, replaceFrom_of_occurrences (by omega)]
  | cons x xs ih =>
    have hlater := occurrences_le_append (p := p) xs (p ++ ys)
    rw [List.cons_append, occurrences] at h
    have hmiss : ¬p.isPrefixOf (x :: (xs ++ (p ++ ys))) = true := by
      intro hprefix
      rw [if_pos hprefix] at h
      omega
    rw [if_neg hmiss] at h
    rw [List.cons_append, replaceFrom, if_neg hmiss, ih (by omega), List.cons_append]

theorem replaceAll_of_once (hm : m ≠ "") (h : count m (s ++ m ++ t) = 1) :
    replaceAll m replacement (s ++ m ++ t) = s ++ replacement ++ t := by
  have hne : m.toList ≠ [] := fun h => hm (String.toList_injective h)
  apply String.toList_injective
  rw [count, String.toList_append, String.toList_append, List.append_assoc] at h
  rw [replaceAll, String.toList_ofList, String.toList_append, String.toList_append, List.append_assoc,
    replaceFrom_of_once hne h, String.toList_append, String.toList_append, List.append_assoc]

theorem replaceAll_of_count (h : count m t = 0) : replaceAll m replacement t = t := by
  apply String.toList_injective
  rw [replaceAll, String.toList_ofList, replaceFrom_of_occurrences h]

theorem isPrefixOf_append_cons_cons {b : Char} {q : List Char} (hxs : b ∉ xs) (hys : b ∉ ys) :
    (xs ++ b :: p).isPrefixOf (ys ++ b :: q) = true ↔ xs = ys ∧ p.isPrefixOf q = true := by
  induction xs generalizing ys with
  | nil =>
    cases ys with
    | nil => simp
    | cons y ys =>
      have hne : (b == y) = false := beq_eq_false_iff_ne.2 fun h => hys (h ▸ List.mem_cons_self)
      simp [List.isPrefixOf, hne]
  | cons x xs ih =>
    cases ys with
    | nil =>
      have hne : (x == b) = false := beq_eq_false_iff_ne.2 fun h => hxs (h ▸ List.mem_cons_self)
      simp [List.isPrefixOf, hne]
    | cons y ys =>
      rw [List.cons_append, List.cons_append, List.isPrefixOf, Bool.and_eq_true, beq_iff_eq,
        ih (fun h => hxs (List.mem_cons_of_mem _ h)) fun h => hys (List.mem_cons_of_mem _ h), List.cons.injEq,
        and_assoc]

theorem count_lines (lines : String) (h : IsMark m.toList) (hhead : lines.toList.head? = some '\n')
    (hlast : lines.toList.getLast? = some '\n') :
    count m (s ++ lines ++ t) = count m s + count m lines + count m t := by
  have hb := h.not_mem (b := '\n') (by decide)
  exact count_separated h ⟨'\n', hhead, '\n', hlast, hb, hb⟩

theorem count_definition {head line : String} (h : Quiet line) :
    count ("def " ++ head) ("def " ++ line) = if head.toList.isPrefixOf line.toList then 1 else 0 := by
  have hline : occurrences ('d' :: 'e' :: 'f' :: ' ' :: head.toList) line.toList = 0 :=
    occurrences_eq_zero_of_part ⟨['d'], head.toList, rfl⟩ (by simp) (quiet_iff.1 h)
  rw [count, String.toList_append, String.toList_append]
  change occurrences ('d' :: 'e' :: 'f' :: ' ' :: head.toList) ('d' :: 'e' :: 'f' :: ' ' :: line.toList) = _
  simp [occurrences, List.isPrefixOf, hline]

theorem count_head {function function' parameters parameters' : String}
    (hp : parameters.toList.head? = some '(') (hp' : parameters'.toList.head? = some '(')
    (hf : '(' ∉ function.toList) (hf' : '(' ∉ function'.toList) (hline : Quiet (function' ++ parameters')) :
    count ("def " ++ (function ++ parameters)) ("def " ++ (function' ++ parameters')) =
      if function = function' ∧ parameters.toList.isPrefixOf parameters'.toList = true then 1 else 0 := by
  obtain ⟨xs, hxs⟩ := List.head?_eq_some_iff.1 hp
  obtain ⟨ys, hys⟩ := List.head?_eq_some_iff.1 hp'
  rw [count_definition hline, String.toList_append, String.toList_append, hxs, hys, List.isPrefixOf_cons_cons_self]
  simp only [isPrefixOf_append_cons_cons hf hf', String.toList_inj]

/-! ### Texts that define no function -/

/-- A text in which no function is defined that writes or reads. -/
def Mute (t : String) : Prop := count "def serialize" t = 0 ∧ count "def deserialize" t = 0

instance (t : String) : Decidable (Mute t) := inferInstanceAs (Decidable (_ ∧ _))

/-- A mark of functions that write or read. -/
structure IsHead (m : String) : Prop where
  mark : IsMark m.toList
  names : "def serialize".toList <:+: m.toList ∨ "def deserialize".toList <:+: m.toList

theorem IsHead.extend {n : String} (h : IsHead m) (hn : IsMark n.toList) (hmn : m.toList <:+: n.toList) :
    IsHead n :=
  ⟨hn, h.names.imp (·.trans hmn) (·.trans hmn)⟩

theorem Mute.count_eq (ht : Mute t) (hm : IsHead m) : count m t = 0 := by
  rcases hm.names with hname | hname
  · exact occurrences_eq_zero_of_part hname (by decide) ht.1
  · exact occurrences_eq_zero_of_part hname (by decide) ht.2

theorem Mute.append (hs : Mute s) (ht : Mute t) (hlast : s.toList.getLast? = some '\n') : Mute (s ++ t) := by
  obtain ⟨front, hfront⟩ := List.getLast?_eq_some_iff.1 hlast
  have hcount : ∀ m, IsMark m.toList → count m s = 0 → count m t = 0 → count m (s ++ t) = 0 := by
    intro m hm hs ht
    have hb := hm.not_mem (b := '\n') (by decide)
    rw [count, hfront, hm.occurrences_append hb, Nat.add_eq_zero_iff] at hs
    rw [count, String.toList_append, hfront, List.append_assoc, List.singleton_append,
      hm.occurrences_append hb, hs.1]
    exact (Nat.zero_add _).trans ht
  exact ⟨hcount _ (isMark_cons (by decide) (by decide)) hs.1 ht.1,
    hcount _ (isMark_cons (by decide) (by decide)) hs.2 ht.2⟩

theorem Quiet.mute (h : Quiet t) : Mute t :=
  ⟨occurrences_eq_zero_of_part (q := "ef ".toList) ⟨['d'], "serialize".toList, by decide⟩ (by decide) (quiet_iff.1 h),
    occurrences_eq_zero_of_part (q := "ef ".toList) ⟨['d'], "deserialize".toList, by decide⟩ (by decide)
      (quiet_iff.1 h)⟩

end Text

namespace Code.Routine

variable {m : String}

variable {r : Routine} {suffix : String} {f : String × Routine}

/-- A line that declares a variable. -/
def IsDeclaration (line : String) : Prop :=
  ∃ type kind n, (type, kind) ∈ Parallel.declared ∧ line = Gen.declarationText type (Gen.variableName kind n)

theorem word_variableName {kind : String} (h : Blankless kind) (n : Nat) :
    Word (Gen.variableName kind n) :=
  (h.append (by decide)).append_word (word_nat n)

/-- A declaration defines no function. -/
theorem IsDeclaration.mute {line : String} (h : IsDeclaration line) : Mute line := by
  obtain ⟨type, kind, n, hmem, rfl⟩ := h
  have hkinds : ∀ e ∈ Parallel.declared, Blankless e.2 ∧ Settled (e.1 ++ " ") ∧
      ∀ cs, "serialize".toList.isPrefixOf ((e.1 ++ " ").toList ++ cs) = false ∧
        "deserialize".toList.isPrefixOf ((e.1 ++ " ").toList ++ cs) = false := by
    intro e he
    simp only [Parallel.declared, List.mem_cons, List.not_mem_nil, or_false] at he
    rcases he with rfl | rfl | rfl | rfl | rfl | rfl <;> exact ⟨by decide, by decide, fun _ => ⟨rfl, rfl⟩⟩
  obtain ⟨hkind, htype, hmiss⟩ := hkinds _ hmem
  have hquiet : Quiet (type ++ " " ++ Gen.variableName kind n) :=
    htype.append_quiet (word_variableName hkind n).closing.settled.quiet
  have hcount : ∀ head : String, head.toList.isPrefixOf (type ++ " " ++ Gen.variableName kind n).toList = false →
      count ("def " ++ head) (Gen.declarationText type (Gen.variableName kind n)) = 0 := by
    intro head hhead
    have htext : Gen.declarationText type (Gen.variableName kind n) =
        "cdef " ++ (type ++ " " ++ Gen.variableName kind n) := by
      simp only [Gen.declarationText, String.append_assoc]
    have hdefinition : count ("def " ++ head) ("def " ++ (type ++ " " ++ Gen.variableName kind n)) = 0 := by
      rw [count_definition hquiet, if_neg (by rw [hhead]; exact Bool.false_ne_true)]
    rw [count, String.toList_append, String.toList_append] at hdefinition
    rw [htext, count, String.toList_append, String.toList_append]
    exact (Nat.zero_add _).trans hdefinition
  rw [String.toList_append] at hcount
  have hwriter : "def serialize" = "def " ++ "serialize" := by decide
  have hreader : "def deserialize" = "def " ++ "deserialize" := by decide
  rw [Mute, hwriter, hreader]
  exact ⟨hcount _ (hmiss _).1, hcount _ (hmiss _).2⟩

theorem mute_bodyText {declarations : List String} {code : String} (h : ∀ l ∈ declarations, IsDeclaration l)
    (hcode : Quiet code) : Mute (bodyText declarations code) := by
  have hcount : ∀ m, IsHead m → count m (bodyText declarations code) = 0 := by
    intro m hm
    have hbreak : Mute "\n" := by decide
    have hb := hm.mark.not_mem (b := '\n') (by decide)
    have hsum : (declarations.map (count m)).sum = 0 :=
      List.sum_eq_zero fun k hk => by
        obtain ⟨l, hl, rfl⟩ := List.mem_map.1 hk
        exact (h l hl).mute.count_eq hm
    rw [bodyText, count_lines "\n" hm.mark (by decide) (by decide),
      count_intercalate hm.mark ⟨'\n', by decide, '\n', by decide, hb, hb⟩ (hbreak.count_eq hm), hsum,
      hbreak.count_eq hm, hcode.mute.count_eq hm]
  exact ⟨hcount _ ⟨isMark_cons (by decide) (by decide), .inl (List.infix_refl _)⟩,
    hcount _ ⟨isMark_cons (by decide) (by decide), .inr (List.infix_refl _)⟩⟩

def framed (writer reader writerBody readerBody helpersText : String) : String :=
  "def " ++ (writer ++ "(data, output):") ++ "\n    cdef bytearray buffer = bytearray()\n    cdef dict datum\n" ++
    Text.indentAll 4 writerBody ++ "\n    output.write(buffer)\n\n\n\n" ++ ("def " ++ (reader ++ "(fo):")) ++ "\n" ++
    Text.indentAll 4 readerBody ++ "\n    return data\n\n\n" ++ helpersText

theorem frame_eq (writerBody readerBody helpersText : String) :
    frame writerBody readerBody helpersText = framed "serialize" "deserialize" writerBody readerBody helpersText := by
  have hstart : "def serialize(data, output):\n    cdef bytearray buffer = bytearray()\n    cdef dict datum\n" =
      "def " ++ ("serialize" ++ "(data, output):") ++
        "\n    cdef bytearray buffer = bytearray()\n    cdef dict datum\n" := by decide
  have hmiddle : "\n    output.write(buffer)\n\n\n\ndef deserialize(fo):\n" =
      "\n    output.write(buffer)\n\n\n\n" ++ ("def " ++ ("deserialize" ++ "(fo):")) ++ "\n" := by decide
  -- The literals are variables here, so that none of them is unfolded.
  have hassoc : ∀ {a b c d e f g x y z : String}, a = b ++ c ++ d → e = f ++ (b ++ g) ++ "\n" →
      ∀ last, a ++ x ++ e ++ y ++ last ++ z = b ++ c ++ d ++ x ++ f ++ (b ++ g) ++ "\n" ++ y ++ last ++ z := by
    rintro a b c d e f g x y z rfl rfl last
    simp only [String.append_assoc]
  unfold frame framed
  exact hassoc hstart hmiddle _

section Framed

variable {writer reader writerBody readerBody helpersText : String} (hwriter : Mute writerBody)
  (hreader : Mute readerBody)
include hwriter hreader

theorem count_framed (hm : IsHead m) : count m (framed writer reader writerBody readerBody helpersText) =
    count m ("def " ++ (writer ++ "(data, output):")) + count m ("def " ++ (reader ++ "(fo):")) +
      count m helpersText := by
  have hopening : Mute "\n    cdef bytearray buffer = bytearray()\n    cdef dict datum\n" := by decide
  have hmiddle : Mute "\n    output.write(buffer)\n\n\n\n" := by decide
  have hbreak : Mute "\n" := by decide
  have hclosing : Mute "\n    return data\n\n\n" := by decide
  unfold framed
  rw [count_lines "\n    return data\n\n\n" hm.mark (by decide) (by decide),
    count_lines "\n" hm.mark (by decide) (by decide),
    count_lines "\n    output.write(buffer)\n\n\n\n" hm.mark (by decide) (by decide),
    count_lines "\n    cdef bytearray buffer = bytearray()\n    cdef dict datum\n" hm.mark (by decide)
      (by decide),
    count_indentAll hm.mark, count_indentAll hm.mark, hopening.count_eq hm, hmiddle.count_eq hm, hbreak.count_eq hm,
    hclosing.count_eq hm, hwriter.count_eq hm, hreader.count_eq hm]
  omega

omit hwriter hreader in
theorem exists_writer_head : ∃ rest, ∀ writer, framed writer reader writerBody readerBody helpersText =
    "" ++ ("def " ++ writer ++ "(data, output)") ++ rest := by
  have hsplit : "(data, output):" = "(data, output)" ++ ":" := by decide
  have hassoc : ∀ {a b c w : String}, a = b ++ c → ∀ d e f x g h y i z,
      d ++ (w ++ a) ++ e ++ x ++ f ++ g ++ h ++ y ++ i ++ z =
        "" ++ (d ++ w ++ b) ++ (c ++ e ++ x ++ f ++ g ++ h ++ y ++ i ++ z) := by
    rintro a b c w rfl d e f x g h y i z
    simp only [String.append_assoc, String.empty_append]
  exact ⟨_, fun writer => hassoc hsplit _ _ _ _ _ _ _ _ _⟩

omit hwriter hreader in
theorem exists_reader_head : ∃ front rest, ∀ reader, framed writer reader writerBody readerBody helpersText =
    front ++ ("def " ++ reader ++ "(fo)") ++ rest := by
  have hsplit : "(fo):" = "(fo)" ++ ":" := by decide
  have hassoc : ∀ {a b c r : String}, a = b ++ c → ∀ d e h y i z,
      e ++ (d ++ (r ++ a)) ++ h ++ y ++ i ++ z = e ++ (d ++ r ++ b) ++ (c ++ h ++ y ++ i ++ z) := by
    rintro a b c r rfl d e h y i z
    simp only [String.append_assoc]
  exact ⟨_, _, fun reader => hassoc hsplit _ _ _ _ _ _⟩

end Framed

theorem isHead_writer : IsHead "def serialize(data, output)" :=
  ⟨isMark_cons (by decide) (by decide), .inl ⟨[], "(data, output)".toList, by decide⟩⟩

theorem isHead_reader : IsHead "def deserialize(fo)" :=
  ⟨isMark_cons (by decide) (by decide), .inr ⟨[], "(fo)".toList, by decide⟩⟩

theorem isLineBreak_of_isNameChar {c : Char} (h : isNameChar c = true) : isLineBreak c = false := by
  rw [← Bool.not_eq_true]
  intro hbreak
  simp only [isLineBreak, Bool.or_eq_true, beq_iff_eq] at hbreak
  rcases hbreak with ((((((((hc | hc) | hc) | hc) | hc) | hc) | hc) | hc) | hc) | hc <;>
    (rw [hc] at h; exact absurd h (by decide))

theorem all_of_isPlain (h : isPlain suffix = true) : suffix.toList.all (!isLineBreak ·) = true :=
  List.all_eq_true.2 fun c hc => by rw [isLineBreak_of_isNameChar (List.all_eq_true.1 h c hc)]; rfl

theorem isHead_of_writer (h : isPlain suffix = true) :
    IsHead ("def " ++ ("serialize_" ++ suffix ++ "(data, output)")) := by
  have hchars : ("def " ++ ("serialize_" ++ suffix ++ "(data, output)")).toList =
      'd' :: ("ef serialize".toList ++ ('_' :: (suffix.toList ++ "(data, output)".toList))) := by
    simp only [String.toList_append]
    rfl
  refine ⟨?_, .inl ⟨[], '_' :: (suffix.toList ++ "(data, output)".toList), hchars.symm⟩⟩
  rw [hchars]
  refine isMark_cons (by decide) ?_
  simp only [List.all_cons, List.all_append, all_of_isPlain h]
  decide

theorem isHead_of_reader (h : isPlain suffix = true) : IsHead ("def " ++ ("deserialize_" ++ suffix ++ "(fo)")) := by
  have hchars : ("def " ++ ("deserialize_" ++ suffix ++ "(fo)")).toList =
      'd' :: ("ef deserialize".toList ++ ('_' :: (suffix.toList ++ "(fo)".toList))) := by
    simp only [String.toList_append]
    rfl
  refine ⟨?_, .inr ⟨[], '_' :: (suffix.toList ++ "(fo)".toList), hchars.symm⟩⟩
  rw [hchars]
  refine isMark_cons (by decide) ?_
  simp only [List.all_cons, List.all_append, all_of_isPlain h]
  decide

def headCount (m suffix : String) : Nat :=
  count m ("def " ++ ("serialize_" ++ suffix ++ "(data, output):")) +
    count m ("def " ++ ("deserialize_" ++ suffix ++ "(fo):"))

section HeadCount

variable {suffix other : String} (h : isPlain suffix = true)
include h

theorem not_mem_function {front : String} (hfront : '(' ∉ front.toList) : '(' ∉ (front ++ suffix).toList := by
  rw [String.toList_append, List.mem_append]
  exact not_or.2 ⟨hfront, not_mem_of_isPlain h (by decide)⟩

theorem count_suffix (front function parameters parameters' : String) (hfront : '(' ∉ front.toList)
    (hblank : Blankless front) (hf : '(' ∉ function.toList) (hp : parameters.toList.head? = some '(')
    (hp' : parameters'.toList.head? = some '(') (hclosing : Closing parameters') :
    count ("def " ++ (function ++ parameters)) ("def " ++ (front ++ suffix ++ parameters')) =
      if function = front ++ suffix ∧ parameters.toList.isPrefixOf parameters'.toList = true then 1 else 0 :=
  count_head hp hp' hf (not_mem_function h hfront)
    (((hblank.append (blankless_of_isPlain h)).quiet.append hclosing).quiet)

theorem count_writer_head (function parameters : String) (hf : '(' ∉ function.toList)
    (hp : parameters.toList.head? = some '(') :
    count ("def " ++ (function ++ parameters)) ("def " ++ ("serialize_" ++ suffix ++ "(data, output):")) =
      if function = "serialize_" ++ suffix ∧ parameters.toList.isPrefixOf "(data, output):".toList = true then 1
      else 0 :=
  count_suffix h _ _ _ _ (by decide) (by decide) hf hp (by decide) (by decide)

theorem count_reader_head (function parameters : String) (hf : '(' ∉ function.toList)
    (hp : parameters.toList.head? = some '(') :
    count ("def " ++ (function ++ parameters)) ("def " ++ ("deserialize_" ++ suffix ++ "(fo):")) =
      if function = "deserialize_" ++ suffix ∧ parameters.toList.isPrefixOf "(fo):".toList = true then 1 else 0 :=
  count_suffix h _ _ _ _ (by decide) (by decide) hf hp (by decide) (by decide)

omit h in
theorem ne_append_of_not_prefix {front function : String}
    (h : front.toList.isPrefixOf function.toList = false) : function ≠ front ++ suffix := by
  rintro rfl
  rw [String.toList_append, List.isPrefixOf_iff_prefix.2 (List.prefix_append _ _)] at h
  cases h

omit h in
theorem writer_ne_reader : "serialize_" ++ other ≠ "deserialize_" ++ suffix := by
  intro heq
  have hchars := congrArg String.toList heq
  rw [String.toList_append, String.toList_append] at hchars
  exact absurd (List.cons.inj hchars).1 (by decide)

theorem headCount_unnamed :
    headCount "def serialize(data, output)" suffix = 0 ∧ headCount "def deserialize(fo)" suffix = 0 := by
  have hwriter : "def serialize(data, output)" = "def " ++ ("serialize" ++ "(data, output)") := by decide
  have hreader : "def deserialize(fo)" = "def " ++ ("deserialize" ++ "(fo)") := by decide
  constructor
  · rw [headCount, hwriter, count_writer_head h _ _ (by decide) (by decide),
      count_reader_head h _ _ (by decide) (by decide),
      if_neg fun hname => ne_append_of_not_prefix (by decide) hname.1,
      if_neg fun hname => ne_append_of_not_prefix (by decide) hname.1]
  · rw [headCount, hreader, count_writer_head h _ _ (by decide) (by decide),
      count_reader_head h _ _ (by decide) (by decide),
      if_neg fun hname => ne_append_of_not_prefix (by decide) hname.1,
      if_neg fun hname => ne_append_of_not_prefix (by decide) hname.1]

variable (hother : isPlain other = true)
include hother

theorem headCount_writer : headCount ("def " ++ ("serialize_" ++ other ++ "(data, output)")) suffix =
    if suffix = other then 1 else 0 := by
  have hf : '(' ∉ ("serialize_" ++ other).toList := not_mem_function hother (by decide)
  rw [headCount, count_writer_head h _ _ hf (by decide), count_reader_head h _ _ hf (by decide), Nat.add_eq_left.2]
  · refine if_congr ⟨fun hname => ((String.append_right_inj _).1 hname.1).symm, fun hname => ?_⟩ rfl rfl
    exact ⟨congrArg _ hname.symm, by decide⟩
  · exact if_neg fun hname => writer_ne_reader hname.1

theorem headCount_reader : headCount ("def " ++ ("deserialize_" ++ other ++ "(fo)")) suffix =
    if suffix = other then 1 else 0 := by
  have hf : '(' ∉ ("deserialize_" ++ other).toList := not_mem_function hother (by decide)
  rw [headCount, count_writer_head h _ _ hf (by decide), count_reader_head h _ _ hf (by decide), Nat.add_eq_right.2]
  · refine if_congr ⟨fun hname => ((String.append_right_inj _).1 hname.1).symm, fun hname => ?_⟩ rfl rfl
    exact ⟨congrArg _ hname.symm, by decide⟩
  · exact if_neg fun hname => writer_ne_reader hname.1.symm

end HeadCount

section Rename

variable {name writerBody readerBody helpersText : String} (hname : isPlain name = true)
  (hwriter : Mute writerBody) (hreader : Mute readerBody)
  (hhelpers : count "def serialize(data, output)" helpersText = 0 ∧ count "def deserialize(fo)" helpersText = 0)
include hname hwriter hreader hhelpers

/-- The two functions of a routine are named after a recursive type, and nothing else changes. -/
theorem rename_framed :
    rename name (framed "serialize" "deserialize" writerBody readerBody helpersText) =
      framed (writerName name) (readerName name) writerBody readerBody helpersText := by
  have hsuffix := isPlain_functionSuffix hname
  have hunnamed : count "def deserialize(fo)" ("def " ++ (writerName name ++ "(data, output):")) = 0 :=
    (Nat.add_eq_zero_iff.1 (headCount_unnamed hsuffix).2).1
  have hlong : IsHead "cpdef serialize(data, output)" :=
    isHead_writer.extend (isMark_cons (by decide) (by decide)) ⟨['c', 'p'], [], by decide⟩
  have hlong' : IsHead "cpdef deserialize(fo)" :=
    isHead_reader.extend (isMark_cons (by decide) (by decide)) ⟨['c', 'p'], [], by decide⟩
  have hshorter : ∀ {t}, count "def serialize(data, output)" t = 0 → count "cpdef serialize(data, output)" t = 0 :=
    fun h => occurrences_eq_zero_of_part ⟨['c', 'p'], [], by decide⟩ (by decide) h
  have hshorter' : ∀ {t}, count "def deserialize(fo)" t = 0 → count "cpdef deserialize(fo)" t = 0 :=
    fun h => occurrences_eq_zero_of_part ⟨['c', 'p'], [], by decide⟩ (by decide) h
  have hfirst : ∀ replacement, replaceAll "cpdef serialize(data, output)" replacement
      (framed "serialize" "deserialize" writerBody readerBody helpersText) =
        framed "serialize" "deserialize" writerBody readerBody helpersText := by
    intro replacement
    refine replaceAll_of_count ?_
    rw [count_framed hwriter hreader hlong, hshorter hhelpers.1]
    decide
  have hsecond : replaceAll "def serialize(data, output)" ("def " ++ writerName name ++ "(data, output)")
      (framed "serialize" "deserialize" writerBody readerBody helpersText) =
        framed (writerName name) "deserialize" writerBody readerBody helpersText := by
    have hcount : count "def serialize(data, output)"
        (framed "serialize" "deserialize" writerBody readerBody helpersText) = 1 := by
      rw [count_framed hwriter hreader isHead_writer, hhelpers.1]
      decide
    obtain ⟨rest, hrest⟩ := exists_writer_head
    rw [hrest, show "def " ++ "serialize" ++ "(data, output)" = "def serialize(data, output)" by decide] at hcount ⊢
    rw [hrest, replaceAll_of_once (by decide) hcount]
  have hthird : ∀ replacement, replaceAll "cpdef deserialize(fo)" replacement
      (framed (writerName name) "deserialize" writerBody readerBody helpersText) =
        framed (writerName name) "deserialize" writerBody readerBody helpersText := by
    intro replacement
    refine replaceAll_of_count ?_
    rw [count_framed hwriter hreader hlong', hshorter' hhelpers.2, hshorter' hunnamed]
    decide
  have hfourth : replaceAll "def deserialize(fo)" ("def " ++ readerName name ++ "(fo)")
      (framed (writerName name) "deserialize" writerBody readerBody helpersText) =
        framed (writerName name) (readerName name) writerBody readerBody helpersText := by
    have hcount : count "def deserialize(fo)"
        (framed (writerName name) "deserialize" writerBody readerBody helpersText) = 1 := by
      rw [count_framed hwriter hreader isHead_reader, hhelpers.2, hunnamed]
      decide
    obtain ⟨front, rest, hrest⟩ := exists_reader_head
    rw [hrest, show "def " ++ "deserialize" ++ "(fo)" = "def deserialize(fo)" by decide] at hcount ⊢
    rw [hrest, replaceAll_of_once (by decide) hcount]
  rw [rename, hfirst, hsecond, hthird, hfourth]

end Rename

/-- A routine whose code is legible, and so is that of the recursive types in it. -/
inductive Legible : Routine → Prop
  | mk {wd : List String} {w : Encoder} {rd : List String} {r : Decoder} {helpers : List (String × Routine)}
      (hwd : ∀ l ∈ wd, IsDeclaration l) (hw : w.Legible) (hrd : ∀ l ∈ rd, IsDeclaration l)
      (hr : r.Legible) (hnames : ∀ h ∈ helpers, isPlain h.1 = true)
      (hhelpers : ∀ h ∈ helpers, Legible h.2) : Legible (.mk wd w rd r helpers)

def helpersText (r : Routine) : String := "\n\n\n\n".intercalate (renderHelpers r.helpers)

theorem Legible.exists_bodies (h : r.Legible) : ∃ writerBody readerBody,
    Mute writerBody ∧ Mute readerBody ∧
      r.render = framed "serialize" "deserialize" writerBody readerBody r.helpersText := by
  cases h with
  | mk hwd hw hrd hr _ _ =>
    exact ⟨_, _, mute_bodyText hwd hw.quiet, mute_bodyText hrd hr.quiet, frame_eq _ _ _⟩

theorem renderHelpers_eq (helpers : List (String × Routine)) :
    renderHelpers helpers = helpers.map helperText := by
  induction helpers with
  | nil => rfl
  | cons h helpers ih => rw [renderHelpers, ih, List.map_cons, helperText]

theorem helperFunctions_eq (helpers : List (String × Routine)) :
    helperFunctions helpers = helpers.flatMap fun h => (functionSuffix h.1, h.2) :: h.2.functions := by
  induction helpers with
  | nil => rfl
  | cons h helpers ih => rw [helperFunctions, ih, List.flatMap_cons]

theorem mem_functions : f ∈ r.functions ↔ ∃ h ∈ r.helpers, f = (functionSuffix h.1, h.2) ∨ f ∈ h.2.functions := by
  cases r with
  | mk wd w rd r helpers => simp only [functions, helperFunctions_eq, List.mem_flatMap, List.mem_cons, Routine.helpers]

theorem Legible.of_mem_functions (h : r.Legible)
    (hf : f ∈ r.functions) : isPlain f.1 = true ∧ f.2.Legible := by
  induction h generalizing f with
  | mk _ _ _ _ hnames hhelpers ih =>
    obtain ⟨h, hh, rfl | hf⟩ := mem_functions.1 hf
    · exact ⟨isPlain_functionSuffix (hnames h hh), hhelpers h hh⟩
    · exact ih h hh hf

theorem count_functions_eq_zero (h : r.Legible) :
    (r.functions.map fun f => headCount "def serialize(data, output)" f.1).sum = 0 ∧
      (r.functions.map fun f => headCount "def deserialize(fo)" f.1).sum = 0 := by
  have hzero := fun f hf => headCount_unnamed (h.of_mem_functions (f := f) hf).1
  constructor <;> refine List.sum_eq_zero fun k hk => ?_ <;> obtain ⟨f, hf, rfl⟩ := List.mem_map.1 hk
  · exact (hzero f hf).1
  · exact (hzero f hf).2

theorem Legible.count_helpersText (h : r.Legible) (hm : IsHead m) :
    count m r.helpersText = (r.functions.map fun f => headCount m f.1).sum := by
  induction h generalizing m with
  | @mk _ _ _ _ helpers _ _ _ _ hnames hhelpers ih =>
    have hbreaks : Mute "\n\n\n\n" := by decide
    have hb := hm.mark.not_mem (b := '\n') (by decide)
    have hone : ∀ h ∈ helpers, count m (helperText h) =
        headCount m (functionSuffix h.1) + (h.2.functions.map fun f => headCount m f.1).sum := by
      intro h hh
      obtain ⟨writerBody, readerBody, hwriter, hreader, hrender⟩ := (hhelpers h hh).exists_bodies
      have hzero := count_functions_eq_zero (hhelpers h hh)
      rw [← ih h hh isHead_writer, ← ih h hh isHead_reader] at hzero
      rw [helperText, hrender, rename_framed (hnames h hh) hwriter hreader hzero, count_framed hwriter hreader hm,
        ih h hh hm]
      rfl
    rw [helpersText, renderHelpers_eq, functions, helperFunctions_eq,
      count_intercalate hm.mark ⟨'\n', by decide, '\n', by decide, hb, hb⟩ (hbreaks.count_eq hm), List.map_map,
      List.map_flatMap, List.flatMap_def, List.sum_flatten, List.map_map]
    refine congrArg List.sum (List.map_congr_left fun h hh => ?_)
    rw [Function.comp_apply, Function.comp_apply, List.map_cons, List.sum_cons]
    exact hone h hh

def moduleStart (extended : Bool) : String :=
  "#cython: language_level=3\ncimport write\ncimport read\ncimport prepare\nimport cython\n\n"
    ++ ((if extended then wrapperText else "") ++ ("\n\n\n\n@cython.boundscheck(False)\n@cython.wraparound(False)\n"
    ++ "@cython.initializedcheck(False)\ndef __invoke():"))

theorem moduleText_eq (extended : Bool) (routine : String) :
    moduleText extended routine =
      moduleStart extended ++ "\n" ++ ("    " ++ Text.indent 4 routine) ++ "\n" ++ "    return locals()" := by
  have hstart : "@cython.initializedcheck(False)\ndef __invoke():\n    " =
      "@cython.initializedcheck(False)\ndef __invoke():" ++ "\n" ++ "    " := by decide
  have hlast : "\n    return locals()" = "\n" ++ "    return locals()" := by decide
  have hassoc : ∀ {a b c l n : String}, a = b ++ n ++ c → ∀ {k}, k = n ++ l → ∀ d e f x,
      d ++ e ++ f ++ a ++ x ++ k = d ++ (e ++ (f ++ b)) ++ n ++ (c ++ x) ++ n ++ l := by
    rintro a b c l n rfl k rfl d e f x
    simp only [String.append_assoc]
  unfold moduleText moduleStart
  exact hassoc hstart hlast _ _ _ _

theorem mute_moduleStart (extended : Bool) : Mute (moduleStart extended) := by
  refine Mute.append (by decide) ?_ (by decide)
  have hlines : Mute ("\n\n\n\n@cython.boundscheck(False)\n@cython.wraparound(False)\n" ++
      "@cython.initializedcheck(False)\ndef __invoke():") := Mute.append (by decide) (by decide) (by decide)
  cases extended with
  | false => exact hlines
  | true =>
    have hassoc : ∀ {a b c : String}, Mute (a ++ (b ++ c)) → Mute (a ++ b ++ c) := by
      intro a b c h
      rwa [String.append_assoc]
    exact hassoc (Mute.append (by decide) (Mute.append (by decide) hlines (by decide)) (by decide))

theorem count_moduleText (extended : Bool) (routine : String) (hm : IsHead m) :
    count m (moduleText extended routine) = count m routine := by
  have hstart := mute_moduleStart extended
  have hbreak : Mute "\n" := by decide
  have hlast : Mute "    return locals()" := by decide
  have hmargin : count m ("    " ++ Text.indent 4 routine) = count m routine := by
    rw [count, String.toList_append]
    exact (hm.mark.occurrences_spaces 4 _).trans (count_indent hm.mark 4 routine)
  rw [moduleText_eq, count_lines "\n" hm.mark (by decide) (by decide),
    count_lines "\n" hm.mark (by decide) (by decide), hstart.count_eq hm, hbreak.count_eq hm, hlast.count_eq hm,
      hmargin]
  omega

theorem sum_eq_count {names : List String} {g : String → Nat} {name : String}
    (h : ∀ n ∈ names, g n = if n = name then 1 else 0) : (names.map g).sum = names.count name := by
  induction names with
  | nil => rfl
  | cons n names ih =>
    rw [List.map_cons, List.sum_cons, h n List.mem_cons_self, ih fun k hk => h k (List.mem_cons_of_mem _ hk),
      List.count_cons, Nat.add_comm]
    simp only [beq_iff_eq]

/-- A module defines each function of a recursive type as often as the type is one of its routine's. -/
theorem Legible.count_module (h : r.Legible) (extended : Bool) (hsuffix : isPlain suffix = true) :
    count ("def " ++ ("serialize_" ++ suffix ++ "(data, output)")) (moduleText extended r.render) =
        (r.functions.map (·.1)).count suffix ∧
      count ("def " ++ ("deserialize_" ++ suffix ++ "(fo)")) (moduleText extended r.render) =
        (r.functions.map (·.1)).count suffix := by
  obtain ⟨writerBody, readerBody, hwriter, hreader, hrender⟩ := h.exists_bodies
  have hplain : ∀ n ∈ r.functions.map (·.1), isPlain n = true := by
    intro n hn
    obtain ⟨f, hf, rfl⟩ := List.mem_map.1 hn
    exact (h.of_mem_functions hf).1
  have hcount : ∀ m, IsHead m → (∀ n, isPlain n = true → headCount m n = if n = suffix then 1 else 0) →
      count m ("def " ++ ("serialize" ++ "(data, output):")) + count m ("def " ++ ("deserialize" ++ "(fo):")) = 0 →
      count m (moduleText extended r.render) = (r.functions.map (·.1)).count suffix := by
    intro m hm hnamed hown
    rw [count_moduleText extended _ hm, hrender, count_framed hwriter hreader hm, hown, Nat.zero_add,
      h.count_helpersText hm, ← sum_eq_count fun n hn => hnamed n (hplain n hn), List.map_map]
    rfl
  have hwriterName : '(' ∉ ("serialize_" ++ suffix).toList := not_mem_function hsuffix (by decide)
  have hreaderName : '(' ∉ ("deserialize_" ++ suffix).toList := not_mem_function hsuffix (by decide)
  constructor
  · refine hcount _ (isHead_of_writer hsuffix) (fun n hn => headCount_writer hn hsuffix) ?_
    rw [count_head (by decide) (by decide) hwriterName (by decide) (by decide),
      count_head (by decide) (by decide) hwriterName (by decide) (by decide),
      if_neg fun hname => ne_append_of_not_prefix (by decide) hname.1.symm,
      if_neg fun hname => ne_append_of_not_prefix (by decide) hname.1.symm]
  · refine hcount _ (isHead_of_reader hsuffix) (fun n hn => headCount_reader hn hsuffix) ?_
    rw [count_head (by decide) (by decide) hreaderName (by decide) (by decide),
      count_head (by decide) (by decide) hreaderName (by decide) (by decide),
      if_neg fun hname => ne_append_of_not_prefix (by decide) hname.1.symm,
      if_neg fun hname => ne_append_of_not_prefix (by decide) hname.1.symm]

end Code.Routine

end AvroCodec
