import AvroCodec.Code.Routine
import AvroCodec.Proofs.Quiet

/-!
# Legible code

What a schema pastes into code stands between the texts of the code itself. If nothing that is pasted has a
blank in it, then the code defines nothing: its text is quiet. `Encoder.Legible` and `Decoder.Legible` say so
of every part of the code.
-/

namespace AvroCodec

open Text Json

namespace Text

/-- The characters of an identifier, and those that join identifiers. -/
def isNameChar (c : Char) : Bool := c.isAlphanum || c == '_' || c == '.' || c == ':'

def isPlain (s : String) : Bool := s.toList.all isNameChar

theorem not_mem_of_isPlain {s : String} {c : Char} (h : isPlain s = true) (hc : isNameChar c = false) :
    c ∉ s.toList := by
  intro hmem
  rw [List.all_eq_true.1 h c hmem] at hc
  cases hc

theorem blankless_of_isPlain {s : String} (h : isPlain s = true) : Blankless s :=
  not_mem_of_isPlain h (by decide)

theorem mem_replaceAll {b c : Char} {s replacement : String}
    (h : c ∈ (replaceAll (String.singleton b) replacement s).toList) : c ∈ replacement.toList ∨ c ∈ s.toList := by
  rw [Text.replaceAll, String.toList_ofList, String.toList_singleton, replaceFrom_singleton] at h
  obtain ⟨d, hd, hc⟩ := List.mem_flatMap.1 h
  by_cases hdb : d = b
  · rw [if_pos hdb] at hc
    exact .inl hc
  · rw [if_neg hdb, List.mem_singleton] at hc
    exact .inr (hc ▸ hd)

end Text

namespace Code

variable {location name : String}

/-! ### Places -/

namespace Place

/-- A place whose text is a word. -/
def Tidy (p : Place) : Prop := Word p.text

theorem tidy_of {root : String} (h : Word root) : (Place.of root).Tidy := by
  have htext : (Place.of root).text = root := String.append_empty
  rw [Tidy, htext]
  exact h

theorem text_push (p : Place) (s : Subscript) :
    Place.text { p with path := p.path ++ [s] } = p.text ++ subscriptText s := by
  apply String.toList_injective
  simp [text, String.toList_join]

variable {p : Place}

theorem Tidy.push {s : Subscript} (h : p.Tidy) (hs : Word (subscriptText s)) :
    Tidy { p with path := p.path ++ [s] } := by
  rw [Tidy, text_push]
  exact h.1.append_word hs

theorem Tidy.member {name : Json} (h : p.Tidy) (hname : Blankless name.pasted) : (p.member name).Tidy :=
  h.push (Blankless.append_word (Blankless.append (by decide) hname) (by decide))

theorem Tidy.entry {key : String} (h : p.Tidy) (hkey : Blankless key) : (p.entry key).Tidy :=
  h.push (Blankless.append_word (Blankless.append (by decide) hkey) (by decide))

end Place

namespace Subject

def Tidy : Subject → Prop
  | value place => place.Tidy
  | member place key => place.Tidy ∧ Blankless key

variable {s : Subject}

theorem Tidy.testText (h : s.Tidy) : Word s.testText := by
  cases s with
  | value place => exact h
  | member place key =>
    exact Blankless.append_word ((h.1.1.append (by decide)).append h.2) (by decide)

theorem Tidy.optionalText (h : s.Tidy) : Word s.optionalText := by
  cases s with
  | value place => exact h
  | member place key =>
    exact Blankless.append_word ((h.1.1.append (by decide)).append h.2) (by decide)

theorem Tidy.presentText (h : s.Tidy) : Word s.presentText := by
  cases s with
  | value place => exact h
  | member place key =>
    exact Blankless.append_word ((h.1.1.append (by decide)).append h.2) (by decide)

end Subject

theorem settled_absentTest (h : Word location) : Settled (absentTest location) := by
  have htake := fun k => blankless_ofList fun hmem => h.1 (List.mem_of_mem_take (i := k) hmem)
  have hdrop := fun k l => blankless_ofList fun hmem =>
    h.1 (List.mem_of_mem_take (i := k) (List.mem_of_mem_drop (i := l) hmem))
  unfold absentTest
  dsimp only
  split
  · exact Settled.name (by decide) h.closing (by decide)
  · exact Settled.paste (Settled.paste (by decide) (htake _).quiet (by decide)) (hdrop _ _).quiet (by decide)

theorem quiet_fillText {value : Json} (hl : Word location)
    (hv : value.isBlankless = true) : Quiet (fillText location value) := by
  have hdefault : Quiet (defaultText value) := by
    unfold defaultText
    split
    · decide
    · exact quiet_pasted hv
  have hassign : Quiet (absentTest location ++ "\n    " ++ location ++ " = " ++ defaultText value) :=
    (Settled.name ((settled_absentTest hl).append (by decide)) hl.closing (by decide)).append_quiet hdefault
  cases value with
  | null => exact (show Quiet "" by decide)
  | _ => exact hassign

/-! ### Logical types -/

namespace Logical

structure Tidy (l : Logical) : Prop where
  kind : Blankless l.kind
  base : l.base.isBlankless = true
  params : (obj l.params).isBlankless = true

variable {l : Logical} {location : String}

theorem Tidy.prepareText (h : l.Tidy) (hl : Closing location) : Settled (l.prepareText location) := by
  have hparams : Quiet l.paramsText := quiet_literal h.params
  unfold Logical.prepareText
  split
  · exact Settled.paste (Settled.name (Settled.paste (Settled.paste (by decide) (quiet_pasted h.base) (by decide))
      h.kind.quiet (by decide)) hl (by decide)) hparams (by decide)
  · exact Settled.name (Settled.paste (by decide) h.kind.quiet (by decide)) hl (by decide)

theorem Tidy.writeText (h : l.Tidy) (hl : Closing location) : Settled (l.writeText location) :=
  Settled.paste (Settled.paste (by decide) (quiet_pasted h.base) (by decide)) (h.prepareText hl).quiet (by decide)

theorem Tidy.readText (h : l.Tidy) (hl : Closing location) : Settled (l.readText location) := by
  have hparams : Quiet l.paramsText := quiet_literal h.params
  have harguments : Quiet l.readArguments := by
    unfold readArguments
    split
    · exact Settled.append_quiet (by decide) hparams
    · decide
  have hinner : Settled ("read.read_" ++ l.base.pasted ++ "(" ++ l.readArguments ++ ")") :=
    Settled.paste (Settled.paste (by decide) (quiet_pasted h.base) (by decide)) harguments (by decide)
  refine Settled.paste (Settled.paste (hl.settled.append (by decide)) h.kind.quiet (by decide)) ?_ (by decide)
  split
  · exact (hinner.append (by decide)).append_quiet hparams
  · exact hinner.quiet

theorem Tidy.testText (h : l.Tidy) (hl : Closing location) : Quiet (l.testText location) :=
  Settled.append_quiet (Settled.paste (by decide) (h.prepareText hl).quiet (by decide)) (quiet_pasted h.base)

end Logical

/-! ### Guards -/

namespace Guard

def Tidy : Guard → Prop
  | isNull => True
  | hasType name => Blankless name
  | isSymbol symbols => symbols.isBlankless = true
  | prepared type => type.Tidy

variable {subject : Subject} {g : Guard}

theorem Tidy.render (h : g.Tidy) (hs : subject.Tidy) : Quiet (g.render subject) := by
  have htest := hs.testText.closing
  cases g with
  | isNull =>
    cases subject with
    | value place => exact (Word.closing hs).settled.append_quiet (by decide)
    | member place key =>
      exact (Settled.append_quiet (Settled.name (Settled.name (Settled.paste (by decide) hs.2.quiet (by decide))
        (Word.closing hs.1) (by decide)) (Word.closing hs.1) (by decide)) hs.2.quiet).append_trailing (by decide)
  | hasType name => exact Settled.append_quiet (Settled.name (by decide) htest (by decide)) h.quiet
  | isSymbol symbols =>
    exact Settled.append_quiet (Settled.name (Settled.name (by decide) htest (by decide)) htest (by decide))
      (quiet_pasted h)
  | prepared type => exact Logical.Tidy.testText h htest

theorem Tidy.headText (h : g.Tidy) (hs : subject.Tidy) (first : Bool) :
    Settled (g.headText subject first) :=
  Settled.paste (by cases first <;> decide) (h.render hs) (by decide)

end Guard

/-! ### Names of functions -/

theorem isPlain_functionSuffix (h : isPlain name = true) : isPlain (functionSuffix name) = true := by
  refine List.all_eq_true.2 fun c hc => ?_
  rcases mem_replaceAll (b := '.') hc with hc | hc
  · rw [List.mem_singleton.1 hc]
    decide
  rcases mem_replaceAll (b := ':') hc with hc | hc
  · rw [List.mem_singleton.1 hc]
    decide
  · exact List.all_eq_true.1 h c hc

theorem blankless_functionSuffix (h : isPlain name = true) : Blankless (functionSuffix name) :=
  blankless_of_isPlain (isPlain_functionSuffix h)

theorem replaceAll_argument {function : String} (h : '(' ∉ function.toList) (location : String) :
    replaceAll "(data," ("(" ++ location ++ ",") (function ++ "(data, output)") =
      function ++ ("(" ++ location ++ ",") ++ " output)" := by
  have hcall : (function ++ "(data, output)").toList =
      function.toList ++ ("(data,".toList ++ " output)".toList) := by
    rw [String.toList_append, show "(data, output)".toList = "(data,".toList ++ " output)".toList by decide]
  have hpattern : "(data,".toList = '(' :: "data,".toList := by decide
  have hrest : ∀ replacement, replaceFrom "(data,".toList replacement 0 " output)".toList = " output)".toList :=
    fun _ => replaceFrom_of_occurrences (by decide)
  apply String.toList_injective
  rw [replaceAll, String.toList_ofList, hcall, hpattern, replaceFrom_append h, ← hpattern,
    replaceFrom_append_self (by decide), hrest]
  simp only [String.toList_append, List.append_assoc]

theorem quiet_recurText (hname : isPlain name = true) (hl : Word location) :
    Quiet (Encoder.recurText name location) := by
  have hfunction : '(' ∉ (writerName name).toList := by
    rw [writerName, String.toList_append, List.mem_append]
    exact not_or.2 ⟨by decide, not_mem_of_isPlain (isPlain_functionSuffix hname) (by decide)⟩
  have hcall : Settled (writerName name ++ ("(" ++ location ++ ",") ++ " output)") :=
    Settled.append (Quiet.append (Settled.append_quiet (by decide) (blankless_functionSuffix hname).quiet)
      (Closing.append (Closing.append (by decide) hl.closing.settled) (by decide))) (by decide)
  unfold Encoder.recurText
  rw [replaceAll_argument hfunction]
  exact Settled.append_quiet (by decide) hcall.quiet

/-! ### Code that writes -/

namespace Encoder

variable {branches : List (Branch Encoder)} {name : String}

inductive Legible : Encoder → Prop
  | null : Legible .null
  | primitive {type : String} {place : Place} (htype : Blankless type) (hplace : place.Tidy) :
      Legible (.primitive type place)
  | logical {type : Logical} {place : Place} (htype : type.Tidy) (hplace : place.Tidy) :
      Legible (.logical type place)
  | fields {parts : List Encoder} (h : ∀ e ∈ parts, Legible e) : Legible (.fields parts)
  | filled {place : Place} {value : Json} {next : Encoder} (hplace : place.Tidy)
      (hvalue : value.isBlankless = true) (h : Legible next) : Legible (.filled place value next)
  | array {place : Place} {item : String} {body : Encoder} (hplace : place.Tidy) (hitem : Word item)
      (h : Legible body) : Legible (.array place item body)
  | enum {place : Place} {symbols : Json} (hplace : place.Tidy) (hsymbols : symbols.isBlankless = true) :
      Legible (.enum place symbols)
  | map {place : Place} {key value : String} {body : Encoder} (hplace : place.Tidy) (hkey : Word key)
      (hvalue : Word value) (h : Legible body) : Legible (.map place key value body)
  | union {subject : Subject} {tag data : String} {branches : List (Branch Encoder)} (hsubject : subject.Tidy)
      (htag : Word tag) (hdata : Word data)
      (htests : ∀ b ∈ branches, Blankless b.tag ∧ b.guard.Tidy)
      (htagged : ∀ b ∈ branches, Legible b.tagged) (hplain : ∀ b ∈ branches, Legible b.plain) :
      Legible (.union subject tag data branches)
  | recur {name : String} {place : Place} (hname : isPlain name = true)
      (hplace : place.Tidy) : Legible (.recur name place)

variable {e : Encoder} {parts : List Encoder}

theorem quiet_renderParts (h : ∀ e ∈ parts, Quiet e.render) : ∀ t ∈ renderParts parts, Quiet t := by
  induction parts with
  | nil => exact fun t ht => absurd ht List.not_mem_nil
  | cons e parts ih =>
    intro t ht
    rcases List.mem_cons.1 ht with rfl | ht
    · exact h e List.mem_cons_self
    · exact ih (fun e he => h e (List.mem_cons_of_mem _ he)) t ht

theorem settled_indexText (index : Nat) : Settled (indexText (toString index)) :=
  Settled.name (by decide) (word_nat index).closing (by decide)

theorem settled_renderTagged {tag : String} (htag : Word tag)
    (htests : ∀ b ∈ branches, Blankless b.tag ∧ b.guard.Tidy)
    (h : ∀ b ∈ branches, Quiet b.tagged.render) (first : Bool) : Settled (renderTagged tag first branches) := by
  induction branches generalizing first with
  | nil => exact (show Settled "" by decide)
  | cons b branches ih =>
    have hhead : Settled ("\n    " ++ (if first then "if" else "elif") ++ " ") := by cases first <;> decide
    have hone : Settled (taggedText tag first b.tag (toString b.index) b.tagged.render) := by
      have htest := Settled.paste (Settled.name hhead htag.closing (t := tag) (u := " == '") (by decide))
        (htests b List.mem_cons_self).1.quiet (u := "':\n        ") (by decide)
      exact Settled.paste ((htest.append (settled_indexText b.index)).append (by decide))
        ((h b List.mem_cons_self).indent 8) (by decide)
    exact hone.append (ih (fun b hb => htests b (List.mem_cons_of_mem _ hb))
      (fun b hb => h b (List.mem_cons_of_mem _ hb)) false)

theorem trailing_renderPlain {subject : Subject} (hsubject : subject.Tidy)
    (htests : ∀ b ∈ branches, Blankless b.tag ∧ b.guard.Tidy)
    (h : ∀ b ∈ branches, Quiet b.plain.render) (first : Bool) :
    Trailing (renderPlain subject first branches) := by
  induction branches generalizing first with
  | nil => exact (show Trailing "" by decide)
  | cons b branches ih =>
    have hone : Trailing (plainText (b.guard.headText subject first) (toString b.index) b.plain.render) := by
      have hhead := Closing.append (s := "\n    ") (by decide)
        ((htests b List.mem_cons_self).2.headText hsubject first)
      have hindex := (hhead.append (t := "\n        ") (by decide)).append (settled_indexText b.index)
      exact (hindex.append (by decide)).append_quiet ((h b List.mem_cons_self).indent 8)
    exact hone.append (ih (fun b hb => htests b (List.mem_cons_of_mem _ hb))
      (fun b hb => h b (List.mem_cons_of_mem _ hb)) false)

/-- Legible code defines nothing. -/
theorem Legible.quiet (h : e.Legible) : Quiet e.render := by
  induction h with
  | null => exact (show Quiet "write.write_null(buffer)" by decide)
  | primitive htype hplace =>
    exact (Settled.name (Settled.paste (by decide) htype.quiet (by decide)) (Word.closing hplace) (by decide)).quiet
  | logical htype hplace => exact (htype.writeText (Word.closing hplace)).quiet
  | fields _ ih => exact quiet_intercalate (by decide) (quiet_renderParts ih)
  | filled hplace hvalue _ ih => exact ((quiet_fillText hplace hvalue).append (by decide)).append_quiet ih
  | array hplace hitem _ ih =>
    have hl := Word.closing hplace
    have hlength := Settled.name (Settled.name (s := "if len(") (by decide) hl
      (u := ") > 0:\n    write.write_long(buffer, len(") (by decide)) hl (u := "))\n    for ") (by decide)
    have hloop := Settled.name (hlength.name hitem.closing (u := " in ") (by decide)) hl
      (u := ":\n        ") (by decide)
    exact (hloop.paste (ih.indent 8) (by decide)).quiet
  | enum hplace hsymbols =>
    exact (Settled.name (Settled.paste (by decide) (quiet_pasted hsymbols) (by decide)) (Word.closing hplace)
      (by decide)).quiet
  | map hplace hkey hvalue _ ih =>
    have hdatum : Settled ("datum = <dict>" ++ _) := Settled.append (by decide) (Word.closing hplace).settled
    have hlength := (hdatum.append (t := "\n\nif len(datum) > 0:\n    write.write_long(buffer, len(datum))")
      (by decide)).append (t := "\n    for ") (by decide)
    have hloop := (hlength.name hkey.closing (u := ", ") (by decide)).name hvalue.closing
      (u := " in datum.items():\n        write.write_string(buffer, ") (by decide)
    exact ((hloop.name hkey.closing (u := ")\n        ") (by decide)).paste (ih.indent 8) (by decide)).quiet
  | union hsubject htag hdata htests _ _ ihtagged ihplain =>
    have htuple := Settled.name (s := "if type(") (by decide) hsubject.optionalText.closing
      (u := ") is tuple:\n    ") (by decide)
    have hparts := (htuple.name htag.closing (u := ", ") (by decide)).name hdata.closing (u := " = ") (by decide)
    have htagged := (hparts.name hsubject.presentText.closing (u := "\n    ") (by decide)).append
      (settled_renderTagged htag htests ihtagged true)
    exact (htagged.append (t := "\nelse:") (by decide)).quiet.append_trailing
      (trailing_renderPlain hsubject htests ihplain true)
  | recur hname hplace => exact quiet_recurText hname hplace

mutual

def calls : Encoder → List String
  | .fields parts => callsParts parts
  | .filled _ _ next => calls next
  | .array _ _ body => calls body
  | .map _ _ _ body => calls body
  | .union _ _ _ branches => callsBranches branches
  | .recur name _ => [name]
  | _ => []

def callsParts : List Encoder → List String
  | [] => []
  | e :: es => calls e ++ callsParts es

def callsBranches : List (Branch Encoder) → List String
  | [] => []
  | ⟨_, _, _, tagged, plain⟩ :: rest => calls tagged ++ calls plain ++ callsBranches rest

end

theorem mem_callsParts : name ∈ callsParts parts ↔ ∃ e ∈ parts, name ∈ e.calls := by
  induction parts with
  | nil => simp [callsParts]
  | cons e parts ih => simp only [callsParts, List.mem_append, ih, List.mem_cons, exists_eq_or_imp]

theorem mem_callsBranches :
    name ∈ callsBranches branches ↔ ∃ b ∈ branches, name ∈ b.tagged.calls ∨ name ∈ b.plain.calls := by
  induction branches with
  | nil => simp [callsBranches]
  | cons b branches ih => simp only [callsBranches, List.mem_append, ih, List.mem_cons, exists_eq_or_imp]

mutual

/-- The defaults that code may put in. -/
def defaults : Encoder → List Json
  | .fields parts => defaultsParts parts
  | .filled _ default next => default :: defaults next
  | .array _ _ body => defaults body
  | .map _ _ _ body => defaults body
  | .union _ _ _ branches => defaultsBranches branches
  | _ => []

def defaultsParts : List Encoder → List Json
  | [] => []
  | e :: es => defaults e ++ defaultsParts es

def defaultsBranches : List (Branch Encoder) → List Json
  | [] => []
  | ⟨_, _, _, tagged, plain⟩ :: rest => defaults tagged ++ defaults plain ++ defaultsBranches rest

end

theorem mem_defaultsParts {d : Json} : d ∈ defaultsParts parts ↔ ∃ e ∈ parts, d ∈ e.defaults := by
  induction parts with
  | nil => simp [defaultsParts]
  | cons e parts ih => simp only [defaultsParts, List.mem_append, ih, List.mem_cons, exists_eq_or_imp]

theorem mem_defaultsBranches {d : Json} :
    d ∈ defaultsBranches branches ↔ ∃ b ∈ branches, d ∈ b.tagged.defaults ∨ d ∈ b.plain.defaults := by
  induction branches with
  | nil => simp [defaultsBranches]
  | cons b branches ih => simp only [defaultsBranches, List.mem_append, ih, List.mem_cons, exists_eq_or_imp]

end Encoder

/-! ### Code that reads -/

namespace Decoder

inductive Legible : Decoder → Prop
  | null {place : Place} (hplace : place.Tidy) : Legible (.null place)
  | primitive {type : String} {schema : Json} {place : Place} (htype : Blankless type)
      (hschema : type = "fixed" → schema.isBlankless = true) (hplace : place.Tidy) :
      Legible (.primitive type schema place)
  | logical {type : Logical} {place : Place} (htype : type.Tidy) (hplace : place.Tidy) :
      Legible (.logical type place)
  | record {place : Place} {parts : List Decoder} (hplace : place.Tidy) (h : ∀ d ∈ parts, Legible d) :
      Legible (.record place parts)
  | array {place : Place} {index count item : String} {body : Decoder} (hplace : place.Tidy)
      (hindex : Word index) (hcount : Word count) (hitem : Word item) (h : Legible body) :
      Legible (.array place index count item body)
  | enum {place : Place} {symbols : Json} (hplace : place.Tidy) (hsymbols : symbols.isBlankless = true) :
      Legible (.enum place symbols)
  | map {place : Place} {key count index : String} {body : Decoder} (hplace : place.Tidy) (hkey : Word key)
      (hcount : Word count) (hindex : Word index) (h : Legible body) :
      Legible (.map place key count index body)
  | union {place : Place} {index : String} {wrapped : Bool} {cases : List (Json × Decoder)}
      (hplace : place.Tidy) (hindex : Word index)
      (htypes : wrapped = true → ∀ c ∈ cases, c.1.isBlankless = true)
      (h : ∀ c ∈ cases, Legible c.2) : Legible (.union place index wrapped cases)
  | recur {name : String} {place : Place} (hname : isPlain name = true)
      (hplace : place.Tidy) : Legible (.recur name place)

variable {d : Decoder} {cases : List (Json × Decoder)} {parts : List Decoder}
  {location name : String}

theorem quiet_renderParts (h : ∀ d ∈ parts, Quiet d.render) : ∀ t ∈ renderParts parts, Quiet t := by
  induction parts with
  | nil => exact fun t ht => absurd ht List.not_mem_nil
  | cons d parts ih =>
    intro t ht
    rcases List.mem_cons.1 ht with rfl | ht
    · exact h d List.mem_cons_self
    · exact ih (fun d hd => h d (List.mem_cons_of_mem _ hd)) t ht

theorem closing_wrapText {type : Json} (hl : Word location)
    (htype : type.isBlankless = true) : Closing (wrapText location type) := by
  have htest := ((Closing.append (s := "\n    if isinstance(") (by decide) hl.closing.settled).append
    (t := ", dict):\n        ") (by decide)).append hl.closing.settled
  have hwrap := ((htest.append (t := " = DictWrapper(") (by decide)).append hl.closing.settled).append
    (t := ")\n        ") (by decide)
  have hplace : Settled ("\n        " ++ location) := Settled.append (by decide) hl.closing.settled
  refine hwrap.append ?_
  split
  next s =>
    exact (hplace.append (by decide)).paste (blankless_of_hasChar htype).quiet (by decide)
  next =>
    split
    · exact (hplace.append (by decide)).paste (quiet_literal htype) (by decide)
    · decide

theorem trailing_renderCases {index : String} {wrapped : Bool} (hl : Word location) (hindex : Word index)
    (htypes : wrapped = true → ∀ c ∈ cases, c.1.isBlankless = true) (h : ∀ c ∈ cases, Quiet c.2.render)
    (position : Nat) : Trailing (renderCases location index wrapped position cases) := by
  induction cases generalizing position with
  | nil => exact (show Trailing "" by decide)
  | cons c cases ih =>
    have hcase : Trailing (caseText location index wrapped position c.1 c.2.render) := by
      have htest := ((Closing.append (s := "\nif ") (by decide) hindex.closing.settled).append (t := " == ")
        (by decide)).append (word_nat position).closing.settled
      have hbody := (htest.append (t := ":\n    ") (by decide)).append_quiet ((h c List.mem_cons_self).indent 4)
      refine hbody.append ?_
      cases wrapped with
      | false => exact (show Trailing "" by decide)
      | true => exact (closing_wrapText hl (htypes rfl c List.mem_cons_self)).trailing
    exact hcase.append (ih (fun hw c hc => htypes hw c (List.mem_cons_of_mem _ hc))
      (fun c hc => h c (List.mem_cons_of_mem _ hc)) (position + 1))

/-- Legible code defines nothing. -/
theorem Legible.quiet (h : d.Legible) : Quiet d.render := by
  induction h with
  | null hplace => exact (Word.closing hplace).settled.append_quiet (by decide)
  | @primitive type schema _ htype hschema hplace =>
    have harguments : Quiet (if type = "fixed" then "fo, " ++ schema.pasted else "fo") := by
      split
      next hfixed => exact Settled.append_quiet (by decide) (quiet_pasted (hschema hfixed))
      next => decide
    have hreader := ((Word.closing hplace).settled.append (t := " = read.read_") (by decide)).paste htype.quiet
      (u := "(") (by decide)
    exact (hreader.paste harguments (by decide)).quiet
  | logical htype hplace => exact (htype.readText (Word.closing hplace)).quiet
  | record hplace _ ih =>
    exact ((Word.closing hplace).settled.append (by decide)).append_quiet
      (quiet_intercalate (by decide) (quiet_renderParts ih))
  | array hplace hindex hcount hitem _ ih =>
    have hl := Word.closing hplace
    have hc := hcount.closing
    have hstart := (hl.settled.append (t := " = []\n\n") (by decide)).name hc
      (u := " = read.read_long(fo)\nwhile ") (by decide)
    have hnegative := ((hstart.name hc (u := " != 0:\n    if ") (by decide)).name hc (u := " < 0:\n        ")
      (by decide)).name hc (u := " = -") (by decide)
    have hloop := ((hnegative.name hc (u := "\n        read.read_long(fo)\n    for ") (by decide)).name
      hindex.closing (u := " in range(") (by decide)).name hc (u := "):\n        ") (by decide)
    have hbody := (hloop.paste (ih.indent 8) (u := "\n        ") (by decide)).name hl (u := ".append(") (by decide)
    exact ((hbody.name hitem.closing (u := ")\n    ") (by decide)).name hc (by decide)).quiet
  | enum hplace hsymbols =>
    exact (((Word.closing hplace).settled.append (by decide)).paste (quiet_pasted hsymbols) (by decide)).quiet
  | map hplace hkey hcount hindex _ ih =>
    have hc := hcount.closing
    have hstart := ((Word.closing hplace).settled.append (t := " = \x7b\x7d\n") (by decide)).name hc
      (u := " = read.read_long(fo)\nwhile ") (by decide)
    have hnegative := ((hstart.name hc (u := " != 0:\n    if ") (by decide)).name hc (u := " < 0:\n        ")
      (by decide)).name hc (u := " = -") (by decide)
    have hloop := ((hnegative.name hc (u := "\n        read.read_long(fo)\n\n    for ") (by decide)).name
      hindex.closing (u := " in range(") (by decide)).name hc (u := "):\n        ") (by decide)
    have hbody := (hloop.name hkey.closing (u := " = read.read_string(fo)\n        ") (by decide)).paste
      (ih.indent 8) (u := "\n\n    ") (by decide)
    exact (hbody.name hc (by decide)).quiet
  | union hplace hindex htypes _ ih =>
    exact (hindex.closing.settled.append (by decide)).quiet.append_trailing
      (trailing_renderCases hplace hindex htypes ih 0)
  | recur hname hplace =>
    have hstart := (Word.closing hplace).settled.append (t := " = ") (by decide)
    have hfunction := hstart.append_quiet (Settled.append_quiet (s := "deserialize_") (by decide)
      (blankless_functionSuffix hname).quiet)
    exact (hfunction.append (by decide)).quiet

mutual

def calls : Decoder → List String
  | .record _ parts => callsParts parts
  | .array _ _ _ _ body => calls body
  | .map _ _ _ _ body => calls body
  | .union _ _ _ cases => callsCases cases
  | .recur name _ => [name]
  | _ => []

def callsParts : List Decoder → List String
  | [] => []
  | d :: ds => calls d ++ callsParts ds

def callsCases : List (Json × Decoder) → List String
  | [] => []
  | (_, d) :: rest => calls d ++ callsCases rest

end

theorem mem_callsParts : name ∈ callsParts parts ↔ ∃ d ∈ parts, name ∈ d.calls := by
  induction parts with
  | nil => simp [callsParts]
  | cons d parts ih => simp only [callsParts, List.mem_append, ih, List.mem_cons, exists_eq_or_imp]

theorem mem_callsCases : name ∈ callsCases cases ↔ ∃ c ∈ cases, name ∈ c.2.calls := by
  induction cases with
  | nil => simp [callsCases]
  | cons c cases ih => simp only [callsCases, List.mem_append, ih, List.mem_cons, exists_eq_or_imp]

end Decoder

end Code

end AvroCodec
