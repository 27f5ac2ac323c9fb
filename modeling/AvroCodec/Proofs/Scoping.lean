import AvroCodec.Proofs.Closed

/-!
# Names of definitions and references to them

A definition gets its full name in one way, and a reference gets the full name that it means in another. In a
namespace the two agree for names without a dot: a definition whose name has a dot is put into the namespace, while
a reference with a dot is a full name already. Where they agree, a reference with the text of the definition means
the definition, and no attempt reports it as unknown because of a reference that comes after the definition.
-/

namespace AvroCodec.Schema

open Json

variable {space : Json} {n f : String} {members : Members} {depth : Nat}

/-- The text `n` means the type that is defined by these members, both in the namespace `space`. -/
structure Means (space : Json) (n : String) (members : Members) (f : String) : Prop where
  defined : fullName (.obj members) space = .ok (space, .str f)
  resolved : resolve space n = .ok f
  /-- When the definition has been parsed, it is recorded under the name. -/
  recorded : isDefinition (.obj members) = true → ∀ depth hint s d t,
    parseIn depth false hint space (.obj members) s = (.ok d, t) → t.registry.find? (.str f) = some d
  /-- The name stays known, whatever is parsed and whether it succeeds. -/
  kept : ∀ depth hint space' schema s, s.registry.knows f = true →
    (parseIn depth false hint space' schema s).2.registry.knows f = true
  found : ∀ s, s.registry.knows f = true → parseReference false space n s = (.ok (.str f), s)
  /-- The parser meets the name of the definition before what stands inside it. -/
  met : ∀ depth, mentions (depth + 1) space (.str n) = [.reference f] ∧
    (isDefinition (.obj members) = true →
      ∃ ms, mentions (depth + 1) space (.obj members) = .definition (.str f) :: ms)
  /-- An attempt that reports the name has met a reference before the definition, unless the name is the text of
  an object without a type that there is. -/
  reported : ∀ schema r t before after, parse schema {} r = (.error (.unknownType f), t) →
    topMentions (schema.depth + 1) schema = before ++ .definition (.str f) :: after →
      .reference f ∈ before ∨ ∃ ms, f = (obj ms).literal

theorem exists_mentions_of_isDefinition (h : isDefinition (.obj members) = true) :
    ∃ ms, mentions (depth + 1) space (.obj members) = .definition (definedName space members) :: ms := by
  rw [isDefinition_obj] at h
  rw [mentions_obj]
  generalize shapeOf members = shape at h ⊢
  cases shape with
  | leaf key => exact ⟨_, rfl⟩
  | record => exact ⟨_, rfl⟩
  | _ => cases h

theorem definedName_of_fullName {inner name : Json} (h : fullName (.obj members) space = .ok (inner, name)) :
    definedName space members = name := by
  obtain ⟨hinner, hname⟩ := fullName_eq h
  rw [definedName, ← hinner, hname]

theorem Means.of_resolve (hn : primitives.contains n = false)
    (hdefined : fullName (.obj members) space = .ok (space, .str f)) (hresolved : resolve space n = .ok f) :
    Means space n members f where
  defined := hdefined
  resolved := hresolved
  recorded hdef depth hint s d t hrun := by
    cases depth with
    | zero => exact (throw_eq_ok.1 hrun).elim
    | succ depth =>
      have hd := (parseIn_eq hrun).trans (normalIn_obj ..)
      have hcompletes := completes_parseIn hrun (Nat.lt_succ_self _)
      refine hcompletes.recorded d List.mem_cons_self (hd ▸ isDefinition_normalMembers.trans hdef) (.str f) ?_
      rw [hd, nameOf_normalMembers hdef, same_str_iff, definedName_of_fullName hdefined]
  kept depth hint space' schema s hs :=
    (meets_parseIn (U := fun _ => True) (.inr fun _ => trivial) (.inr trivial)).keeps s (.str f) hs
  found s hs := by rw [parseReference_run hn hresolved, if_pos hs]
  met depth := by
    refine ⟨?_, fun hdef => ?_⟩
    · rw [mentions, if_neg (by rw [hn]; exact Bool.false_ne_true), normalName_of_resolve hn hresolved]
    · exact definedName_of_fullName hdefined ▸ exists_mentions_of_isDefinition hdef
  reported schema r t before after hrun hmentions := by
    have hmeets : Meets (fun e => ∃ ms, e = .unknownType (obj ms).literal) .plain
        (topMentions (schema.depth + 1) schema) (parse schema) :=
      meets_parseTop (.inr fun ms => ⟨ms, rfl⟩) (.inl (Nat.lt_succ_self _))
    rcases hmeets.unknown hrun with ⟨ms, hms⟩ | ⟨hahead, -⟩
    · cases hms
      exact .inr ⟨ms, rfl⟩
    · rw [hmentions, mem_ahead_append] at hahead
      refine .inl (reference_mem_of_mem_ahead (hahead.resolve_right fun hafter => ?_))
      simp [ahead] at hafter

/-- A definition and a reference with the same text give the same full name in a namespace exactly if the text has no
dot or there is no namespace. The reference means the definition then. -/
theorem names_resolve_alike (hn : primitives.contains n = false) (hname : lookup "name" members = some (.str n))
    (hspace : lookup "namespace" members = none) :
    (∃ f, Means space n members f) ↔ space.truthy = false ∨ hasDot n = false ∧ ∃ s, space = .str s := by
  have hfull : fullName (.obj members) space = .ok (space, qualify space (.str n)) := by
    rw [fullName, hname, hspace]
    rfl
  by_cases htruthy : space.truthy = true
  · rw [htruthy, or_iff_right (by decide)]
    constructor
    · rintro ⟨f, hmeans⟩
      have hdefined := hfull.symm.trans hmeans.defined
      have hresolved := hmeans.resolved
      rw [qualify, if_pos htruthy] at hdefined
      cases hdefined
      unfold resolve at hresolved
      rw [htruthy, Bool.not_true, Bool.or_false] at hresolved
      split_ifs at hresolved with hdot
      · -- The name of the definition is longer than the reference.
        have hlength := congrArg String.length (Except.ok.inj hresolved)
        simp [Json.pasted] at hlength
      · split at hresolved
        · exact ⟨Bool.eq_false_iff.2 hdot, _, rfl⟩
        · cases hresolved
    · rintro ⟨hdot, s, rfl⟩
      refine ⟨s ++ "." ++ n, .of_resolve hn ?_ ?_⟩
      · rw [hfull, qualify, if_pos htruthy]
        rfl
      · rw [resolve, hdot, htruthy]
        rfl
  · rw [Bool.not_eq_true] at htruthy
    refine iff_of_true ⟨n, .of_resolve hn ?_ ?_⟩ (.inl htruthy)
    · rw [hfull, qualify, htruthy]
      rfl
    · exact if_pos (by rw [htruthy]; exact Bool.or_true _)

theorem kind_resolved : ∃ f, Means (.str "wood") "Kind"
    [("type", .str "enum"), ("name", .str "Kind"), ("symbols", .arr [.str "leaf", .str "fork"])] f :=
  (names_resolve_alike rfl rfl rfl).2 (.inr ⟨by decide, "wood", rfl⟩)

/-- In a namespace a definition whose name has a dot is not found by its name. -/
theorem dotted_definition_reported :
    let definition := obj [("type", .str "enum"), ("name", .str "wood.Kind"), ("symbols", .arr [.str "leaf"])]
    fullName definition (.str "north") = .ok (.str "north", .str "north.wood.Kind") ∧
      resolve (.str "north") "wood.Kind" = .ok "wood.Kind" ∧
      (parseWith false false (.str "north") (.arr [definition, .str "wood.Kind"]) ⟨[], []⟩).1 =
        .error (.unknownType "wood.Kind") :=
  ⟨rfl, rfl, rfl⟩

end AvroCodec.Schema
