import AvroCodec.Proofs.Deeper
import AvroCodec.Proofs.Elsewhere
import AvroCodec.Proofs.Generated

/-!
# Values with and without tags

A union's value may carry the tag of a branch, or a branch is chosen for it. A tag finds the branch that has it,
and in code of which a copy was made the two codes of a branch are copies of one another.
-/

namespace AvroCodec

open Code

namespace Value

/-- Two lists, or two dictionaries. -/
inductive SameKind : Value → Value → Prop
  | list (items items' : List Value) : SameKind (.list items) (.list items')
  | map (entries entries' : List (Value × Value)) : SameKind (.map entries) (.map entries')

namespace SameKind

variable {a b : Value}

theorem isNull_eq (h : SameKind a b) : a.isNull = b.isNull := by
  cases h <;> rfl

theorem hasType_eq (h : SameKind a b) (name : String) : a.hasType name = b.hasType name := by
  cases h <;> rfl

theorem prepare_eq (h : SameKind a b) (l : Logical) :
    l.prepare a = .ok a ∧ l.prepare b = .ok b ∨ ∃ e, l.prepare a = .error e ∧ l.prepare b = .error e := by
  unfold Logical.prepare
  cases h <;> rcases LogicalKind.ofName? l.kind with - | (- | - | - | - | - | - | -)
  all_goals first
    | exact .inl ⟨rfl, rfl⟩
    | exact .inr ⟨_, rfl, rfl⟩
    | (dsimp only; split_ifs <;> exact .inl ⟨rfl, rfl⟩)

end SameKind

end Value

namespace Code

open Value

namespace Subject

variable {s : Subject} {v u a b : Value}

theorem look_of_walk (h : walk s.keys v = .ok a) : s.look v = .ok a := by
  cases s with
  | value place => exact h
  | member place key =>
    obtain ⟨entries, hentries, ha⟩ := walk_concat_eq_ok h
    rw [look, hentries]
    simp only [bind, Except.bind, ha]
    rfl

/-- A guard looks at the kinds of lists and dictionaries only. -/
theorem passes_of_kind (hv : walk s.keys v = .ok a) (hu : walk s.keys u = .ok b) (h : a = b ∨ SameKind a b)
    (g : Guard) : g.passes s v = g.passes s u := by
  have hlook := look_of_walk hv
  have hlook' := look_of_walk hu
  rcases h with rfl | h
  · cases g <;> simp only [Guard.passes, hlook, hlook', hv, hu]
  · cases g with
    | isNull =>
      simp only [Guard.passes, hlook, hlook', bind, Except.bind, h.isNull_eq]
    | hasType name =>
      simp only [Guard.passes, hv, hu, bind, Except.bind, h.hasType_eq]
    | isSymbol symbols =>
      simp only [Guard.passes, hv, hu]
      cases h <;> rfl
    | prepared l =>
      simp only [Guard.passes, hv, hu, bind, Except.bind]
      rcases h.prepare_eq l with ⟨ha, hb⟩ | ⟨e, ha, hb⟩
      · simp only [ha, hb]
        cases l.base with
        | str name => simp only [h.hasType_eq]
        | _ => rfl
      · simp only [ha, hb]

end Subject

namespace Encoder

variable {subject : Subject} {branches : List (Branch Encoder)} {b : Branch Encoder}

theorem labelled_of_nodup (hnodup : (branches.map fun b => literalText b.tag).Nodup) (hb : b ∈ branches) :
    labelled (.str (literalText b.tag)) branches = some b := by
  induction branches with
  | nil => cases hb
  | cons c rest ih =>
    rw [List.map_cons, List.nodup_cons] at hnodup
    rcases List.mem_cons.1 hb with rfl | hb
    · exact List.find?_cons_of_pos (by simp [Value.equals])
    · have hne : literalText c.tag ≠ literalText b.tag := by
        intro heq
        exact hnodup.1 (heq ▸ List.mem_map_of_mem hb)
      rw [labelled, List.find?_cons_of_neg (by simpa [Value.equals] using hne)]
      exact ih hnodup.2 hb

/-! ### Variables for tags -/

mutual

def tagVariables : Encoder → List String
  | .fields parts => tagVariablesParts parts
  | .filled _ _ next => tagVariables next
  | .array _ _ body | .map _ _ _ body => tagVariables body
  | .union _ tag _ branches => tag :: tagVariablesBranches branches
  | _ => []

def tagVariablesParts : List Encoder → List String
  | [] => []
  | e :: es => tagVariables e ++ tagVariablesParts es

def tagVariablesBranches : List (Branch Encoder) → List String
  | [] => []
  | ⟨_, _, _, tagged, plain⟩ :: rest => tagVariables tagged ++ tagVariables plain ++ tagVariablesBranches rest

end

theorem tagVariables_subset_parts {e : Encoder} {parts : List Encoder} (h : e ∈ parts) :
    e.tagVariables ⊆ tagVariablesParts parts := by
  induction parts with
  | nil => cases h
  | cons a parts ih =>
    rw [tagVariablesParts]
    rcases List.mem_cons.1 h with rfl | h
    · exact List.subset_append_left _ _
    · exact List.subset_append_of_subset_right _ (ih h)

theorem tagVariables_subset_branches (h : b ∈ branches) :
    b.tagged.tagVariables ++ b.plain.tagVariables ⊆ tagVariablesBranches branches := by
  induction branches with
  | nil => cases h
  | cons c branches ih =>
    obtain ⟨tag, index, guard, tagged, plain⟩ := c
    rw [tagVariablesBranches]
    rcases List.mem_cons.1 h with rfl | h
    · exact List.subset_append_left _ _
    · exact List.subset_append_of_subset_right _ (ih h)

/-- Copies whose variables for tags are all among some of which more is known. -/
theorem Copies.retype {T T' : String → String → Prop} {p q : Place} {a c : Encoder} {V : List String}
    (h : Copies T p q a c) (hT : ∀ t ∈ V, ∀ t' ∈ V, T' t t') (ha : a.tagVariables ⊆ V) (hc : c.tagVariables ⊆ V) :
    Copies T' p q a c := by
  induction h with
  | null => exact .null
  | primitive type path => exact .primitive type path
  | logical type path => exact .logical type path
  | fields parts _ ih =>
    refine .fields parts fun e he => ih e he ?_ ?_
    · exact List.Subset.trans (tagVariables_subset_parts (List.mem_map_of_mem he)) ha
    · exact List.Subset.trans (tagVariables_subset_parts (List.mem_map_of_mem he)) hc
  | filled path default _ ih => exact .filled path default (ih ha hc)
  | array path _ ih => exact .array path (ih ha hc)
  | enum path symbols => exact .enum path symbols
  | map path _ ih => exact .map path (ih ha hc)
  | union branches hsubject htag hbranch _ _ _ ihplain ihtagged ihown =>
    obtain ⟨ht, ha⟩ := List.cons_subset.1 ha
    obtain ⟨ht', hc⟩ := List.cons_subset.1 hc
    have hfst : ∀ b ∈ branches, b.1.tagged.tagVariables ⊆ V ∧ b.1.plain.tagVariables ⊆ V := fun b hb =>
      List.append_subset.1 (List.Subset.trans (tagVariables_subset_branches (List.mem_map_of_mem hb)) ha)
    have hsnd : ∀ b ∈ branches, b.2.tagged.tagVariables ⊆ V ∧ b.2.plain.tagVariables ⊆ V := fun b hb =>
      List.append_subset.1 (List.Subset.trans (tagVariables_subset_branches (List.mem_map_of_mem hb)) hc)
    exact .union branches hsubject (hT _ ht _ ht') hbranch (fun b hb => ihplain b hb (hfst b hb).2 (hsnd b hb).2)
      (fun b hb => ihtagged b hb (hfst b hb).1 (hsnd b hb).1) fun b hb => ihown b hb (hfst b hb).2 (hfst b hb).1
  | recur name path => exact .recur name path

def Copyable (e : Encoder) : Prop := ∃ p q c, Copied p q e c

namespace Copyable

variable {place : Place} {body : Encoder}

theorem of_fields {parts : List Encoder} (h : Copyable (.fields parts)) {e : Encoder} (he : e ∈ parts) :
    Copyable e := by
  obtain ⟨p, q, c, h⟩ := h
  cases h with
  | fields pairs hpairs =>
    obtain ⟨pair, hpair, rfl⟩ := List.mem_map.1 he
    exact ⟨p, q, pair.2, hpairs pair hpair⟩

theorem of_filled {default : Json} {next : Encoder} (h : Copyable (.filled place default next)) : Copyable next := by
  obtain ⟨p, q, c, h⟩ := h
  cases h with
  | filled path default h => exact ⟨p, q, _, h⟩

theorem of_array {item : String} (h : Copyable (.array place item body)) : Copyable body := by
  obtain ⟨p, q, c, h⟩ := h
  cases h with
  | array path h => exact ⟨_, _, _, h⟩

theorem of_map {key value : String} (h : Copyable (.map place key value body)) : Copyable body := by
  obtain ⟨p, q, c, h⟩ := h
  cases h with
  | map path h => exact ⟨_, _, _, h⟩

theorem of_union {tag data : String} (h : Copyable (.union subject tag data branches)) (hb : b ∈ branches) :
    Copyable b.plain ∧ Copyable b.tagged ∧
      ∃ p, p.keys = subject.keys ∧ Copied p (.of data) b.plain b.tagged := by
  obtain ⟨p, q, c, h⟩ := h
  cases h with
  | union pairs hsubject htag hbranch hplain htagged hown =>
    obtain ⟨pair, hpair, rfl⟩ := List.mem_map.1 hb
    refine ⟨⟨p, q, _, hplain pair hpair⟩, ⟨_, _, _, htagged pair hpair⟩, _, ?_, hown pair hpair⟩
    rw [Place.keys_reach, hsubject.keys_eq]

end Copyable

end Encoder

end Code

end AvroCodec
