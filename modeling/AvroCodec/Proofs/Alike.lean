import AvroCodec.Proofs.Naming
import AvroCodec.Proofs.Reference

/-!
# Documents that mean the same type

The mark that a parser sets on a record says nothing about the type. Two documents that differ in it alone
are alike: the same types stand inside them and they mention the same names.

A schema mentions other definitions by the texts that stand in it where a type can stand. `Json.parts`
are the documents that stand directly inside another in such a position.
-/

namespace AvroCodec

open Schema

namespace Json

variable {d d' x : Json} {members : Members} {key name : String}

theorem eq_str_of_isStr {s : String} (h : d.isStr s = true) : d = .str s := by
  cases d with
  | str t => exact congrArg Json.str (eq_of_beq h)
  | _ => cases h

def unmarkedMembers (members : Members) : Members :=
  members.filter fun m => m ≠ (parsedMark, .bool true)

def isRecord (members : Members) : Bool :=
  (lookup "type" members).any fun type => type.isStr "record" || type.isStr "error"

theorem exists_type_of_isRecord (h : isRecord members = true) :
    ∃ type, lookup "type" members = some (.str type) ∧ (type = "record" ∨ type = "error") := by
  obtain ⟨type, htype, h⟩ := (Option.any_eq_true _ _).1 h
  rw [Bool.or_eq_true] at h
  rcases h with h | h
  · exact ⟨"record", htype.trans (congrArg some (eq_str_of_isStr h)), .inl rfl⟩
  · exact ⟨"error", htype.trans (congrArg some (eq_str_of_isStr h)), .inr rfl⟩

/-- A document without the mark of a parser, if it is a record. -/
def unmarked : Json → Json
  | .obj members => .obj (if isRecord members then unmarkedMembers members else members)
  | d => d

/-- Two documents that differ in the mark of a parser at most. -/
def Alike (d d' : Json) : Prop := d.unmarked = d'.unmarked

theorem Alike.refl (d : Json) : Alike d d := rfl

theorem Alike.symm (h : Alike d d') : Alike d' d := Eq.symm h

theorem Alike.trans {d'' : Json} (h : Alike d d') (h' : Alike d' d'') : Alike d d'' :=
  Eq.trans h h'

theorem unmarkedMembers_cons (m : String × Json) (rest : List (String × Json)) :
    unmarkedMembers (m :: rest) =
      if m = (parsedMark, .bool true) then unmarkedMembers rest else m :: unmarkedMembers rest := by
  simp only [unmarkedMembers, List.filter_cons]
  split_ifs <;> simp_all

theorem unmarkedMembers_congr {β : Type} {F : List (String × Json) → β} {g : String × Json → β → β}
    (hcons : ∀ m rest, F (m :: rest) = g m (F rest))
    (hmark : ∀ b, g (parsedMark, .bool true) b = b) (members : Members) :
    F (unmarkedMembers members) = F members := by
  induction members with
  | nil => rfl
  | cons m rest ih =>
    rw [unmarkedMembers_cons]
    split_ifs with hm
    · rw [ih, hcons, hm, hmark]
    · rw [hcons, hcons, ih]

theorem lookup_unmarkedMembers (h : key ≠ parsedMark)
    (members : Members) : lookup key (unmarkedMembers members) = lookup key members :=
  unmarkedMembers_congr (F := lookup key) (g := fun m b => if m.1 = key then some m.2 else b)
    (fun _ _ => rfl) (fun _ => if_neg (Ne.symm h)) members

theorem isRecord_unmarkedMembers (members : Members) :
    isRecord (unmarkedMembers members) = isRecord members := by
  unfold isRecord
  rw [lookup_unmarkedMembers (by decide)]

theorem alike_cases (h : Alike d d') :
    d = d' ∨ ∃ ms ms', d = .obj ms ∧ d' = .obj ms' ∧ isRecord ms = true ∧ isRecord ms' = true ∧
      unmarkedMembers ms = unmarkedMembers ms' := by
  cases d with
  | obj ms =>
    cases d' with
    | obj ms' =>
      have hms := Json.obj.inj h
      split_ifs at hms with hr hr' hr'
      · exact .inr ⟨ms, ms', rfl, rfl, hr, hr', hms⟩
      · rw [← hms, isRecord_unmarkedMembers] at hr'
        exact absurd hr hr'
      · rw [hms, isRecord_unmarkedMembers] at hr
        exact absurd hr' hr
      · exact .inl (congrArg Json.obj hms)
    | _ => cases h
  | _ => cases d' <;> first | exact .inl h | cases h

theorem Alike.eq_of_type (h : Alike d d') {type : String} (htype : d.get? "type" = some (.str type))
    (hrecord : type ≠ "record") (herror : type ≠ "error") : d = d' := by
  rcases alike_cases h with rfl | ⟨ms, ms', rfl, rfl, hms, -⟩
  · rfl
  · obtain ⟨type', htype', rfl | rfl⟩ := exists_type_of_isRecord hms <;> cases htype.symm.trans htype' <;> contradiction

theorem lookup_eq_of_unmarkedMembers {ms ms' : Members} (h : unmarkedMembers ms = unmarkedMembers ms')
    (hkey : key ≠ parsedMark) : lookup key ms = lookup key ms' := by
  rw [← lookup_unmarkedMembers hkey, h, lookup_unmarkedMembers hkey]

theorem Alike.congr {β : Type} {F : Json → β}
    (hF : ∀ ms ms', unmarkedMembers ms = unmarkedMembers ms' → F (.obj ms) = F (.obj ms'))
    (h : Alike d d') : F d = F d' := by
  rcases alike_cases h with rfl | ⟨ms, ms', rfl, rfl, -, -, hms⟩
  · rfl
  · exact hF ms ms' hms

theorem Alike.get? (h : Alike d d') (hkey : key ≠ parsedMark) : d.get? key = d'.get? key :=
  h.congr (F := fun d => d.get? key) fun _ _ hms => lookup_eq_of_unmarkedMembers hms hkey

theorem Alike.depth (h : Alike d d') : d.depth = d'.depth := by
  have hdepth : ∀ members, depthMembers (unmarkedMembers members) = depthMembers members :=
    unmarkedMembers_congr (F := depthMembers) (g := fun m b => max m.2.depth b) (fun _ _ => rfl)
      Nat.zero_max
  refine h.congr (F := Json.depth) fun ms ms' hms => ?_
  rw [Json.depth, Json.depth, ← hdepth, hms, hdepth]

/-- Documents that are alike have objects of the same names inside them, which are alike. -/
theorem Alike.exists_named (h : Alike d d') {e : String × Json} (he : e ∈ d.named) :
    ∃ e' ∈ d'.named, e'.1 = e.1 ∧ Alike e'.2 e.2 := by
  rcases alike_cases h with rfl | ⟨ms, ms', rfl, rfl, -, -, hms⟩
  · exact ⟨e, he, rfl, rfl⟩
  · have hnamed : ∀ members, namedMembers (unmarkedMembers members) = namedMembers members :=
      unmarkedMembers_congr (F := namedMembers) (g := fun m b => m.2.named ++ b) (fun _ _ => rfl)
        fun _ => rfl
    rw [named, List.mem_append] at he
    rcases he with he | he
    · unfold ownName at he
      split at he
      next name hgiven =>
        split_ifs at he with hdot
        · rw [List.mem_singleton.1 he]
          refine ⟨(name, .obj ms'), ?_, rfl, h.symm⟩
          rw [lookup_eq_of_unmarkedMembers hms (by decide)] at hgiven
          rw [named, ownName, hgiven]
          simp only [hdot, if_true]
          exact List.mem_cons_self
        · cases he
      next => cases he
    · rw [← hnamed, hms, hnamed] at he
      exact ⟨e, List.mem_append_right _ he, rfl, rfl⟩

/-- The types that stand directly inside a document. -/
def parts : Json → List Json
  | .arr branches => branches
  | .obj members =>
    (lookup "items" members).toList ++ (lookup "values" members).toList ++ fieldList members ++
      match lookup "type" members with
      | some (.obj inner) => [.obj inner]
      | some (.arr branches) => branches
      | _ => []
  | _ => []

theorem mem_parts_items (h : d.get? "items" = some x) : x ∈ parts d := by
  cases d with
  | obj members =>
    have hx : x ∈ (lookup "items" members).toList := Option.mem_toList.2 h
    simp [parts, hx]
  | _ => cases h

theorem mem_parts_values (h : d.get? "values" = some x) : x ∈ parts d := by
  cases d with
  | obj members =>
    have hx : x ∈ (lookup "values" members).toList := Option.mem_toList.2 h
    simp [parts, hx]
  | _ => cases h

theorem mem_parts_fieldList
    (h : x ∈ fieldList members) : x ∈ parts (.obj members) := by
  simp [parts, h]

theorem mem_parts_type {inner : Members}
    (h : d.get? "type" = some (.obj inner)) : .obj inner ∈ parts d := by
  cases d with
  | obj members =>
    rw [get?] at h
    simp [parts, h]
  | _ => cases h

theorem mem_parts_branch {branches : List Json} (h : d.get? "type" = some (.arr branches))
    (hx : x ∈ branches) : x ∈ parts d := by
  cases d with
  | obj members =>
    rw [get?] at h
    simp [parts, h, hx]
  | _ => cases h

/-- A document that stands for another by its name. -/
def Refers (d : Json) (name : String) : Prop :=
  d = .str name ∨ d.get? "type" = some (.str name)

/-- A name stands in a document where a type can stand, at any depth. -/
inductive Mentions : Json → String → Prop
  | here {d : Json} {name : String} (h : Refers d name) : Mentions d name
  | inside {d x : Json} {name : String} (hx : x ∈ parts d) (h : Mentions x name) : Mentions d name

theorem Alike.parts_eq (h : Alike d d') : parts d = parts d' := by
  refine h.congr (F := parts) fun ms ms' hms => ?_
  have hlookup : ∀ key, key ≠ parsedMark → lookup key ms = lookup key ms' :=
    fun _ => lookup_eq_of_unmarkedMembers hms
  rw [parts, parts, fieldList, fieldList, hlookup "items" (by decide),
    hlookup "values" (by decide), hlookup "fields" (by decide), hlookup "type" (by decide)]

theorem Alike.refers (h : Alike d d') (hd : Refers d name) : Refers d' name := by
  rcases hd with rfl | hd
  · rcases alike_cases h with rfl | ⟨ms, ms', hms, -⟩
    · exact .inl rfl
    · cases hms
  · exact .inr ((h.get? (by decide)).symm.trans hd)

theorem Alike.mentions (h : Alike d d') (hd : Mentions d name) : Mentions d' name := by
  cases hd with
  | here hd => exact .here (h.refers hd)
  | inside hx hd => exact .inside (h.parts_eq ▸ hx) hd

theorem depth_lt_of_mem_parts (h : x ∈ parts d) : x.depth < d.depth := by
  cases d with
  | arr branches => exact Nat.lt_succ_of_le (depth_le_of_mem_items h)
  | obj members =>
    have hlookup : ∀ {key : String} {y : Json}, lookup key members = some y →
        y.depth < (Json.obj members).depth := fun hy => Nat.lt_succ_of_le (depth_le_of_lookup hy)
    rw [parts, List.mem_append, List.mem_append, List.mem_append] at h
    rcases h with ((h | h) | h) | h
    · exact hlookup (Option.mem_toList.1 h)
    · exact hlookup (Option.mem_toList.1 h)
    · exact Nat.lt_succ_of_le (depth_le_of_mem_fieldList h)
    · split at h
      next inner htype =>
        rw [List.mem_singleton.1 h]
        exact hlookup htype
      next branches htype =>
        exact Nat.lt_trans (Nat.lt_succ_of_le (depth_le_of_mem_items h)) (hlookup htype)
      next => cases h
  | _ => cases h

end Json

end AvroCodec
