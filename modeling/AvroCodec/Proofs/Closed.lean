import AvroCodec.Proofs.Idempotent
import AvroCodec.Proofs.Attempt

/-!
# What a successful attempt leaves

The schemas that stand in a document are listed with those inside them, parents first (`Schema.schemas`). An
attempt that succeeds takes the names of all definitions among them, which are different from one another and
new. It records each of these definitions as it stands in the result and nothing else, and every type that is
given by its name in the result is known then. `Schema.Completes` says so of the schemas that a part of the
attempt has made.
-/

namespace AvroCodec

open Json

theorem Json.same_self {n : Json} (h : n.isScalar = true) : n.same n = true := by
  rcases number?_of_isScalar h with rfl | ⟨s, rfl⟩ | ⟨x, hx⟩
  · rfl
  · exact same_str_iff.2 rfl
  · rw [same_of_number? hx, hx]
    exact beq_self_eq_true _

theorem Json.same_of_same {k n m : Json} (hn : n.isScalar = true) (hk : k.same m = true) (h : n.same m = true) :
    k.same n = true := by
  obtain ⟨hscalar, hsymm⟩ := same_symm hn h
  exact (same_congr hscalar hk).trans hsymm

namespace Schema

variable {d : Json} {k : String} {n : Nat} {s t : Parsing}

/-- The schemas that stand directly inside a schema. -/
def inner : Json → List Json
  | .arr branches => branches
  | .obj members =>
    let part (key : String) : Json := (lookup key members).getD .null
    match part "type" with
    | .str "array" => [part "items"]
    | .str "map" => [part "values"]
    | .str "record" | .str "error" => fieldTypes members
    | _ => []
  | _ => []

/-- A schema and the schemas inside it, down to a depth. -/
def schemas : Nat → Json → List Json
  | 0, _ => []
  | depth + 1, d => d :: (inner d).flatMap (schemas depth)

def isDefinition (d : Json) : Bool :=
  match d.get? "type" with
  | some (.str type) => ["enum", "fixed", "record", "error"].contains type
  | _ => false

def nameOf (d : Json) : Json := (d.get? "name").getD .null

def definedNames (ds : List Json) : List Json := (ds.filter isDefinition).map nameOf

section Shapes

variable {members : Members} {normalType : Json → Json → Json} {hint : Bool} {space : Json}

theorem inner_obj (members : Members) : inner (.obj members) = match shapeOf members with
    | .container key => [(lookup key members).getD .null]
    | .record => fieldTypes members
    | _ => [] := by
  cases hshape : shapeOf members <;> unfold shapeOf at hshape <;> split at hshape <;> simp_all [inner]

theorem isDefinition_obj (members : Members) : isDefinition (.obj members) = match shapeOf members with
    | .leaf _ | .record => true
    | _ => false := by
  rw [isDefinition, get?]
  cases hshape : shapeOf members <;> rw [shapeOf] at hshape <;> split at hshape <;> cases hshape <;>
    first | (rw [lookup_of_getD ‹_›]; rfl) | skip
  split
  · simp_all
  · rfl

theorem lookup_normalMembers_name :
    lookup "name" (normalMembers normalType hint space members (shapeOf members)) =
      if isDefinition (.obj members) = true then some (definedName space members) else none := by
  have hkept : lookup "name" (kept members) = none := (lookup_carried (by decide) (by decide) ..).trans (if_pos rfl)
  rw [isDefinition_obj]
  cases hshape : shapeOf members with
  | container key =>
    have hkey : "name" ≠ key := by rcases key_of_container hshape with rfl | rfl <;> decide
    exact (lookup_put_of_ne hkey ..).trans hkept
  | leaf key =>
    have hkey : "name" ≠ key := by rcases key_of_leaf hshape with rfl | rfl <;> decide
    rw [normalMembers, lookup_put_of_ne hkey, withName, lookup_put_self, definedName]
    rfl
  | record =>
    rw [if_pos rfl, ← hshape]
    exact (lookup_normalMembers_record hshape).1
  | plain => exact hkept

theorem isDefinition_normalMembers :
    isDefinition (.obj (normalMembers normalType hint space members (shapeOf members))) =
      isDefinition (.obj members) := by
  rw [isDefinition_obj, shapeOf_normalMembers, isDefinition_obj]

theorem nameOf_normalMembers (h : isDefinition (.obj members) = true) :
    nameOf (.obj (normalMembers normalType hint space members (shapeOf members))) = definedName space members := by
  rw [nameOf, get?, lookup_normalMembers_name, if_pos h]
  rfl

end Shapes

theorem depth_lt_of_mem_inner {x : Json} (h : x ∈ inner d) : x.depth < d.depth := by
  cases d with
  | arr branches => exact Nat.lt_succ_of_le (depth_le_of_mem_items h)
  | obj members =>
    refine Nat.lt_succ_of_le ?_
    rw [inner_obj] at h
    split at h
    · exact List.mem_singleton.1 h ▸ depth_getD_le ..
    · exact depth_le_of_mem_fieldTypes h
    · cases h
  | _ => cases h

theorem claim_eq_ok {name : Json} {u : Unit} (h : claim name s = (.ok u, t)) :
    name.isScalar = true ∧ (∀ m ∈ s.named, m.same name = false) ∧ t = { s with named := s.named ++ [name] } := by
  rw [claim_run] at h
  split_ifs at h with hscalar htaken
  · cases h
  · cases h
  · cases h
    rw [Bool.not_eq_true', Bool.not_eq_false] at hscalar
    rw [Bool.not_eq_true, List.any_eq_false] at htaken
    exact ⟨hscalar, fun m hm => Bool.eq_false_iff.2 (htaken m hm), rfl⟩

structure Completes (ds : List Json) (s t : Parsing) : Prop where
  named : t.named = s.named ++ definedNames ds
  scalar : ∀ n ∈ definedNames ds, n.isScalar = true
  apart : (definedNames ds).Pairwise fun n m => n.same m = false
  fresh : ∀ n ∈ definedNames ds, ∀ m ∈ s.named, m.same n = false
  recorded : ∀ d ∈ ds, isDefinition d = true → ∀ m, (nameOf d).same m = true → t.registry.find? m = some d
  kept : ∀ m, (∀ n ∈ definedNames ds, n.same m = false) → t.registry.find? m = s.registry.find? m
  known : ∀ n, .str n ∈ ds → primitives.contains n = true ∨ t.registry.knows n = true
  /-- Names are full names, so that no namespace is kept. -/
  spaceless : ∀ d ∈ ds, d.get? "namespace" = none

theorem mem_definedNames {ds : List Json} (h : d ∈ ds) (hd : isDefinition d = true) : nameOf d ∈ definedNames ds :=
  List.mem_map_of_mem (List.mem_filter.2 ⟨h, hd⟩)

theorem definedNames_append (ds es : List Json) : definedNames (ds ++ es) = definedNames ds ++ definedNames es := by
  rw [definedNames, List.filter_append, List.map_append]
  rfl

namespace Completes

variable {ds es : List Json} {d : Json} {s t u : Parsing}

theorem keeps (h : Completes ds s t) {m : Json} (hm : (s.registry.find? m).isSome = true) :
    (t.registry.find? m).isSome = true := by
  by_cases hdefined : ∀ n ∈ definedNames ds, n.same m = false
  · rwa [h.kept m hdefined]
  · push Not at hdefined
    obtain ⟨_, hn, hsame⟩ := hdefined
    obtain ⟨d, hd, rfl⟩ := List.mem_map.1 hn
    obtain ⟨hd, hdef⟩ := List.mem_filter.1 hd
    rw [h.recorded d hd hdef m (Bool.not_eq_false _ ▸ hsame)]
    rfl

theorem nil : Completes [] s s := by
  constructor <;> simp [definedNames]

theorem single (hd : isDefinition d = false) (hspace : d.get? "namespace" = none)
    (hknown : ∀ n, d = .str n → primitives.contains n = true ∨ s.registry.knows n = true) : Completes [d] s s := by
  have hnames : definedNames [d] = [] := by rw [definedNames, List.filter_cons_of_neg (by simp [hd])]; rfl
  refine ⟨?_, ?_, ?_, ?_, ?_, fun _ _ => rfl, ?_, ?_⟩
  · rw [hnames, List.append_nil]
  all_goals simp_all

theorem append (h : Completes ds s t) (h' : Completes es t u) : Completes (ds ++ es) s u where
  named := by rw [h'.named, h.named, definedNames_append, List.append_assoc]
  scalar := by
    rw [definedNames_append, List.forall_mem_append]
    exact ⟨h.scalar, h'.scalar⟩
  apart := by
    rw [definedNames_append, List.pairwise_append]
    refine ⟨h.apart, h'.apart, fun n hn m hm => h'.fresh m hm n ?_⟩
    rw [h.named]
    exact List.mem_append_right _ hn
  fresh := by
    rw [definedNames_append, List.forall_mem_append]
    refine ⟨h.fresh, fun n hn m hm => h'.fresh n hn m ?_⟩
    rw [h.named]
    exact List.mem_append_left _ hm
  recorded d hd hdef m hm := by
    rcases List.mem_append.1 hd with hd | hd
    · have hmem := mem_definedNames hd hdef
      rw [h'.kept m fun n hn => ?_, h.recorded d hd hdef m hm]
      -- A name that is taken later is a different one.
      have hne := h'.fresh n hn (nameOf d) (h.named ▸ List.mem_append_right _ hmem)
      rw [← Bool.not_eq_true] at hne ⊢
      exact fun hsame => hne (same_of_same (h'.scalar n hn) hm hsame)
    · exact h'.recorded d hd hdef m hm
  kept m hm := by
    rw [definedNames_append, List.forall_mem_append] at hm
    rw [h'.kept m hm.2, h.kept m hm.1]
  known n hn := by
    rcases List.mem_append.1 hn with hn | hn
    · exact (h.known n hn).imp_right h'.keeps
    · exact h'.known n hn
  spaceless := List.forall_mem_append.2 ⟨h.spaceless, h'.spaceless⟩

/-- A definition that is complete when the schemas inside it are. Before that something else is recorded under its
name. -/
theorem define {name e : Json} {o : Unit} (hd : isDefinition d = true) (hname : nameOf d = name)
    (hspace : d.get? "namespace" = none) (hclaim : claim name s = (.ok o, u))
    (h : Completes ds ⟨u.registry.record name e, u.named⟩ t) :
    Completes (d :: ds) s ⟨t.registry.record name d, t.named⟩ := by
  obtain ⟨hscalar, hfresh, rfl⟩ := claim_eq_ok hclaim
  have hnames : definedNames (d :: ds) = name :: definedNames ds := by
    rw [definedNames, List.filter_cons_of_pos hd, ← hname]
    rfl
  have hnew : ∀ n ∈ definedNames ds, name.same n = false := fun n hn =>
    h.fresh n hn name (List.mem_append_right _ List.mem_cons_self)
  exact
    { named := by rw [h.named, List.append_assoc, hnames]; rfl
      scalar := hnames ▸ List.forall_mem_cons.2 ⟨hscalar, h.scalar⟩
      apart := hnames ▸ List.pairwise_cons.2 ⟨hnew, h.apart⟩
      fresh := hnames ▸ List.forall_mem_cons.2
        ⟨hfresh, fun n hn m hm => h.fresh n hn m (List.mem_append_left _ hm)⟩
      recorded c hc hdef m hm := by
        rw [Registry.find?_record hscalar]
        rcases List.mem_cons.1 hc with rfl | hc
        · rw [if_pos (hname ▸ hm)]
        · have hmem := mem_definedNames hc hdef
          rw [if_neg fun hsame => ?_, h.recorded c hc hdef m hm]
          cases (hnew _ hmem).symm.trans (same_of_same (h.scalar _ hmem) hsame hm)
      kept m hm := by
        rw [hnames, List.forall_mem_cons, Bool.eq_false_iff] at hm
        rw [Registry.find?_record hscalar, if_neg hm.1, h.kept m hm.2, Registry.find?_record hscalar, if_neg hm.1]
      known n hn := by
        rcases List.mem_cons.1 hn with rfl | hn
        · cases hd
        · exact (h.known n hn).imp_right (Registry.knows_record hscalar _)
      spaceless := List.forall_mem_cons.2 ⟨hspace, h.spaceless⟩ }

end Completes

section Parse

variable {depth n : Nat} {hint : Bool} {space d : Json} {s t : Parsing} {members kept : Members}

theorem completes_mapM {α : Type} {f : α → Parse Json} {g : Json → List Json} {xs : List α} {ys : List Json}
    (hf : ∀ x ∈ xs, ∀ y ∈ ys, ∀ s t, f x s = (.ok y, t) → Completes (g y) s t)
    (h : xs.mapM f s = (.ok ys, t)) : Completes (ys.flatMap g) s t := by
  induction xs generalizing s ys with
  | nil =>
    rw [List.mapM_nil, pure_eq_ok] at h
    obtain ⟨rfl, rfl⟩ := h
    exact .nil
  | cons x xs ih =>
    simp only [List.mapM_cons, bind_eq_ok, pure_eq_ok] at h
    obtain ⟨y, s₁, hy, ys, s₂, hys, rfl, rfl⟩ := h
    rw [List.flatMap_cons]
    refine (hf x List.mem_cons_self y List.mem_cons_self _ _ hy).append (ih (fun x hx y hy => ?_) hys)
    exact hf x (List.mem_cons_of_mem _ hx) y (List.mem_cons_of_mem _ hy)

theorem completes_parseReference {reference : String} (h : parseReference false space reference s = (.ok d, t)) :
    Completes [d] s t := by
  obtain ⟨rfl, rfl, hknown⟩ := parseReference_eq h
  refine .single rfl rfl fun n hn => ?_
  cases hn
  refine hknown.imp_left fun hp => ?_
  rwa [normalName, hp]

theorem completes_parseLeaf {key : String} (hdef : isDefinition d = true) (hname : nameOf d = definedName space members)
    (hspace : d.get? "namespace" = none) (hinner : inner d = [])
    (h : parseLeaf (.obj members) space kept key s = (.ok d, t)) : Completes (schemas (n + 1) d) s t := by
  simp only [parseLeaf, record, bind_eq_ok, lift_eq_ok, pure_eq_ok, modify_eq_ok] at h
  obtain ⟨⟨_, name⟩, s₁, ⟨hfull, rfl⟩, _, s₂, hclaim, _, s₃, rfl, x, s₄, ⟨-, rfl⟩, _, s₅, rfl, rfl, rfl⟩ := h
  obtain ⟨rfl, rfl⟩ := fullName_eq hfull
  rw [schemas, hinner]
  exact Completes.define hdef hname hspace hclaim .nil

theorem completes_parseRecord {parseField : Json → Json → Parse Json} (hdef : isDefinition d = true)
    (hname : nameOf d = definedName space members) (hspace : d.get? "namespace" = none)
    (hinner : ∀ fields, d.get? "fields" = some (.arr fields) →
      inner d = fields.map fun field => (field.get? "type").getD .null)
    (hfield : ∀ space field s field' t, ((field'.get? "type").getD .null).depth < n →
      parseField space field s = (.ok field', t) → Completes (schemas n ((field'.get? "type").getD .null)) s t)
    (hn : d.depth < n + 1) (h : parseRecord parseField hint (.obj members) space kept s = (.ok d, t)) :
    Completes (schemas (n + 1) d) s t := by
  simp only [parseRecord, record, bind_eq_ok, lift_eq_ok, pure_eq_ok, modify_eq_ok] at h
  obtain ⟨⟨_, name⟩, s₁, ⟨hfull, rfl⟩, _, s₂, hclaim, _, s₃, rfl, fields, s₄, ⟨-, rfl⟩, parsed, s₅, hparsed, _, s₆,
    rfl, rfl, rfl⟩ := h
  obtain ⟨rfl, rfl⟩ := fullName_eq hfull
  replace hinner := hinner parsed (by cases hint <;>
    simp (disch := decide) [get?, lookup_put_self, lookup_put_of_ne])
  rw [schemas, hinner, List.flatMap_map]
  refine Completes.define hdef hname hspace hclaim (completes_mapM (fun field _ field' hmem s t => ?_) hparsed)
  refine hfield _ field s field' t (Nat.lt_of_lt_of_le (depth_lt_of_mem_inner ?_) (Nat.le_of_lt_succ hn))
  exact hinner ▸ List.mem_map_of_mem hmem

theorem completes_parseFieldWith {parseType : Json → Json → Parse Json} {field : Json}
    (htype : ∀ type s type' t, type'.depth < n → parseType space type s = (.ok type', t) →
      Completes (schemas n type') s t)
    (hn : ((d.get? "type").getD .null).depth < n) (h : parseFieldWith parseType space field s = (.ok d, t)) :
    Completes (schemas n ((d.get? "type").getD .null)) s t := by
  cases field with
  | obj members =>
    unfold parseFieldWith at h
    dsimp only at h
    split_ifs at h
    · obtain ⟨_, _, h, -⟩ := bind_eq_ok.1 h
      exact (throw_eq_ok.1 h).elim
    · simp only [bind_eq_ok, lift_eq_ok, pure_eq_ok] at h
      obtain ⟨name, s₂, ⟨-, rfl⟩, type, s₃, ⟨-, rfl⟩, parsed, s₄, hparsed, rfl, rfl⟩ := h
      rw [get?, lookup_put_self, Option.getD_some] at hn ⊢
      exact htype type _ parsed _ hn hparsed
  | _ => exact (throw_eq_ok.1 h).elim

/-- An attempt that succeeds completes the schemas of its result. -/
theorem completes_parseIn {schema : Json} (h : parseIn depth false hint space schema s = (.ok d, t))
    (hn : d.depth < n) : Completes (schemas n d) s t := by
  induction depth generalizing n hint space schema d s t with
  | zero => exact (throw_eq_ok.1 h).elim
  | succ depth ih =>
    obtain ⟨n, rfl⟩ := Nat.exists_eq_add_of_le' (Nat.succ_le_of_lt (Nat.zero_lt_of_lt hn))
    have hlt : ∀ x ∈ inner d, x.depth < n := fun x hx =>
      Nat.lt_of_lt_of_le (depth_lt_of_mem_inner hx) (Nat.le_of_lt_succ hn)
    cases schema with
    | arr branches =>
      simp only [parseIn, bind_eq_ok, pure_eq_ok] at h
      obtain ⟨parsed, s₁, hparsed, rfl, rfl⟩ := h
      refine (Completes.single (d := .arr parsed) rfl rfl (by simp)).append (completes_mapM ?_ hparsed)
      exact fun _ _ y hy _ _ hrun => ih hrun (hlt y hy)
    | str reference =>
      have hnone : inner d = [] := by rw [(parseReference_eq h).1]; rfl
      rw [schemas, hnone]
      exact completes_parseReference h
    | obj members =>
      have hd := (parseIn_eq h).trans (normalIn_obj ..)
      have hspace : d.get? "namespace" = none := by
        rw [hd, get?, lookup_normalMembers (by decide), lookup_namespace_carried]
      have hdef : isDefinition d = isDefinition (.obj members) := hd ▸ isDefinition_normalMembers
      have hname : isDefinition (.obj members) = true → nameOf d = definedName space members :=
        fun h => hd ▸ nameOf_normalMembers h
      have hinner := congrArg inner hd
      rw [inner_obj, shapeOf_normalMembers] at hinner
      rw [isDefinition_obj] at hdef hname
      simp only [parseIn_obj, bind_eq_ok, lift_eq_ok] at h
      obtain ⟨-, s₁, ⟨-, rfl⟩, -, s₂, ⟨-, rfl⟩, h⟩ := h
      cases hshape : shapeOf members with
      | container key =>
        rw [hshape] at h hdef hinner
        simp only [parseMembers, bind_eq_ok, lift_eq_ok, pure_eq_ok, need_eq_ok] at h
        obtain ⟨x, s₃, ⟨hx, rfl⟩, parsed, s₄, hparsed, rfl, rfl⟩ := h
        dsimp only at hinner
        rw [normalMembers, lookup_put_self, Option.getD_some, hx, Option.getD_some, ← parseIn_eq hparsed] at hinner
        rw [schemas, hinner, List.flatMap_singleton]
        exact (Completes.single hdef hspace (by simp)).append (ih hparsed (hlt parsed (hinner ▸ List.mem_cons_self)))
      | leaf key =>
        rw [hshape] at h hdef hname hinner
        exact completes_parseLeaf hdef (hname rfl) hspace hinner h
      | record =>
        rw [hshape] at h hdef hname hinner
        refine completes_parseRecord hdef (hname rfl) hspace (fun fields hfields => ?_) ?_ hn h
        · rw [hd, get?, hshape] at hfields
          rw [hinner, fieldTypes, fieldList, hfields]
          rfl
        · exact fun _ _ _ _ _ hn h => completes_parseFieldWith (fun _ _ _ _ hn h => ih h hn) hn h
      | plain =>
        rw [hshape] at h hdef hinner
        rw [parseMembers] at h
        split_ifs at h
        · obtain ⟨rfl, rfl⟩ := pure_eq_ok.1 h
          rw [schemas, hinner]
          exact .single hdef hspace (by simp)
        · exact (throw_eq_ok.1 h).elim
        · exact (throw_eq_ok.1 h).elim
    | _ => exact (throw_eq_ok.1 h).elim

end Parse

theorem exists_inner_of_reference (hspace : d.get? "namespace" = none) (hd : ∀ s, d ≠ .str s)
    (h : .reference k ∈ mentions (n + 1) (.str "") d) : ∃ x ∈ inner d, .reference k ∈ mentions n (.str "") x := by
  cases d with
  | str s => exact absurd rfl (hd s)
  | arr branches => exact List.mem_flatMap.1 h
  | obj members =>
    rw [get?] at hspace
    rw [mentions_obj, normalSpace, hspace, Option.getD_none] at h
    rw [inner_obj]
    generalize shapeOf members = shape at h ⊢
    cases shape with
    | container key => exact ⟨_, List.mem_singleton_self _, h⟩
    | leaf => simp at h
    | record => exact List.mem_flatMap.1 (by simpa using h)
    | plain => cases h
  | _ => cases h

theorem mem_schemas_of_reference (hspace : ∀ x ∈ schemas n d, x.get? "namespace" = none)
    (h : .reference k ∈ mentions n (.str "") d) : .str k ∈ schemas n d ∧ primitives.contains k = false := by
  induction n generalizing d with
  | zero => cases h
  | succ n ih =>
    by_cases hd : ∃ s, d = .str s
    · obtain ⟨s, rfl⟩ := hd
      rw [mentions] at h
      split_ifs at h with hp
      · cases h
      · cases List.mem_singleton.1 h
        rw [normalName, show truthy (.str "") = false from rfl, Bool.not_false, Bool.or_true, if_pos rfl]
        exact ⟨List.mem_cons_self, Bool.eq_false_iff.2 hp⟩
    · obtain ⟨x, hx, h⟩ := exists_inner_of_reference (hspace d List.mem_cons_self) (fun s hs => hd ⟨s, hs⟩) h
      have hsub : ∀ y ∈ schemas n x, y ∈ schemas (n + 1) d := fun y hy =>
        List.mem_cons_of_mem _ (List.mem_flatMap.2 ⟨x, hx, hy⟩)
      obtain ⟨hk, hp⟩ := ih (fun y hy => hspace y (hsub y hy)) h
      exact ⟨hsub _ hk, hp⟩

theorem Completes.knows (h : Completes (schemas n d) s t)
    (hk : .reference k ∈ mentions n (.str "") d) : t.registry.knows k = true := by
  obtain ⟨hmem, hp⟩ := mem_schemas_of_reference h.spaceless hk
  exact (h.known k hmem).resolve_left (by rw [hp]; exact Bool.false_ne_true)

/-- A successful attempt is closed and its definitions are unique. Types that are given by their names are primitive or
known in the end, the names of the definitions are new and different from one another, these names are taken and no
others, and under each of them its definition is recorded as it stands in the result. What is recorded under other
names stays. -/
theorem parsed_closed {hint : Bool} {space schema d : Json} {s t : Parsing}
    (h : parseWith false hint space schema s = (.ok d, t)) :
    let ds := schemas (d.depth + 1) d
    (∀ n, .str n ∈ ds → primitives.contains n = true ∨ (t.registry.find? (.str n)).isSome = true) ∧
      (definedNames ds).Pairwise (fun n m => n.same m = false) ∧
      (∀ n ∈ definedNames ds, ∀ m ∈ s.named, m.same n = false) ∧
      t.named = s.named ++ definedNames ds ∧
      (∀ c ∈ ds, isDefinition c = true → t.registry.find? (nameOf c) = some c) ∧
      ∀ m, (∀ n ∈ definedNames ds, n.same m = false) → t.registry.find? m = s.registry.find? m := by
  have hc : Completes (schemas (d.depth + 1) d) s t := completes_parseIn h (Nat.lt_succ_self _)
  refine ⟨hc.known, hc.apart, hc.fresh, hc.named, fun c hmem hdef => ?_, hc.kept⟩
  exact hc.recorded c hmem hdef _ (same_self (hc.scalar _ (mem_definedNames hmem hdef)))

/-- A record with the definition of an enumeration, and references to both. -/
def tree : Json :=
  .record "Tree" [
    .field "kind" (.obj
      [("type", .str "enum"), ("name", .str "Kind"), ("symbols", .arr [.str "leaf", .str "fork"])]),
    .field "next" (.arr [.str "null", .str "Tree", .str "Kind"])]

theorem tree_closed : ∃ d t, parseWith false true (.str "wood") tree ⟨[], [.str "wood.Axe"]⟩ = (.ok d, t) ∧
    definedNames (schemas (d.depth + 1) d) = [.str "wood.Tree", .str "wood.Kind"] ∧
    t.named = [.str "wood.Axe", .str "wood.Tree", .str "wood.Kind"] ∧ t.registry.find? (.str "wood.Tree") = some d := by
  have hrun : ∃ d t, parseWith false true (.str "wood") tree ⟨[], [.str "wood.Axe"]⟩ = (.ok d, t) ∧
      definedNames (schemas (d.depth + 1) d) = [.str "wood.Tree", .str "wood.Kind"] ∧
      isDefinition d = true ∧ nameOf d = .str "wood.Tree" := ⟨_, _, rfl, by decide +kernel⟩
  obtain ⟨d, t, hrun, hnames, hdef, hname⟩ := hrun
  obtain ⟨-, -, -, hnamed, hrecorded, -⟩ := parsed_closed hrun
  refine ⟨d, t, hrun, hnames, ?_, hname ▸ hrecorded d List.mem_cons_self hdef⟩
  rw [hnamed, hnames]
  rfl

end Schema

end AvroCodec
