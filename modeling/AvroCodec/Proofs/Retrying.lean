import AvroCodec.Proofs.History
import AvroCodec.Proofs.Mention

/-!
# Attempts that are repeated

An attempt that fails at an unknown name is repeated with an empty definition for the name. `Schema.Attempts`
counts the attempts. There is at most one more than there are names that the schema refers to before it
defines them, and that are not known.

What the failed attempts have recorded cannot be seen in the end: the outcome and the registry are those of one
attempt that finds an empty definition for each of these names.
-/

namespace AvroCodec.Schema

open Registry

namespace Registry

/-- A registry with empty definitions for some names. -/
def stub (r : Registry) (names : List String) : Registry :=
  names.foldl (fun r n => r.record (.str n) (.obj [])) r

theorem str_same_iff {n : String} {m : Json} : (Json.str n).same m = true ↔ m = .str n := by
  constructor
  · intro h
    exact Json.same_str_iff.1 (Json.same_symm rfl h).2
  · rintro rfl
    exact Json.same_str_iff.2 rfl

theorem find?_record_str (r : Registry) (n : String) (d m : Json) :
    (r.record (.str n) d).find? m = if m = .str n then some d else r.find? m := by
  rw [find?_record rfl, if_congr str_same_iff rfl rfl]

theorem find?_stub (r : Registry) (names : List String) (m : Json) :
    (r.stub names).find? m = if ∃ n ∈ names, m = .str n then some (.obj []) else r.find? m := by
  induction names generalizing r with
  | nil => simp [stub]
  | cons n names ih =>
    have hstub : r.stub (n :: names) = (r.record (.str n) (.obj [])).stub names := rfl
    rw [hstub, ih, find?_record_str]
    by_cases hm : m = .str n <;> simp [hm]

end Registry

/-- The names that a schema refers to before it defines them, if it does, and that are not known. -/
def unresolved (schema : Json) (r : Registry) : List String :=
  ((ahead (topMentions (schema.depth + 1) schema)).filter fun n => !r.knows n).dedup

/-- So many attempts are made at a schema, and this comes out of the last one. -/
inductive Attempts (schema : Json) : Nat → Registry → Except SchemaError Json × Registry → Prop
  | last {r : Registry} : (∀ n, (parse schema {} r).1 ≠ .error (.unknownType n)) →
      Attempts schema 1 r (parse schema {} r)
  | again {k : Nat} {r t : Registry} {n : String} {o : Except SchemaError Json × Registry} :
      parse schema {} r = (.error (.unknownType n), t) →
      Attempts schema k (t.record (.str n) (.obj [])) o → Attempts schema (k + 1) r o

variable {schema : Json} {r t : Registry} {k j : Nat} {n : String} {o : Except SchemaError Json × Registry}

theorem mem_unresolved : n ∈ unresolved schema r ↔
    n ∈ ahead (topMentions (schema.depth + 1) schema) ∧ r.knows n = false := by
  rw [unresolved, List.mem_dedup, List.mem_filter, Bool.not_eq_true']

/-- A failed attempt settles one name, and leaves no other unresolved. -/
theorem length_unresolved_lt (hr : Recognised schema) (h : parse schema {} r = (.error (.unknownType n), t)) :
    (unresolved schema (t.record (.str n) (.obj []))).length < (unresolved schema r).length := by
  have hmeets := meets_parse hr
  obtain ⟨hahead, hunknown⟩ := (hmeets.unknown h).resolve_left id
  have hkeeps : ∀ m, r.knows m = true → t.knows m = true := by
    intro m hm
    have hkept := hmeets.keeps r (.str m) hm
    rwa [h] at hkept
  have hmem : n ∈ unresolved schema r := by
    refine mem_unresolved.2 ⟨hahead, Bool.eq_false_iff.2 fun hknown => ?_⟩
    cases (hkeeps n hknown).symm.trans hunknown
  have hsubset : unresolved schema (t.record (.str n) (.obj [])) ⊆ (unresolved schema r).erase n := by
    intro m hm
    obtain ⟨hm, hfresh⟩ := mem_unresolved.1 hm
    have hne : m ≠ n := by
      rintro rfl
      rw [knows_record_self] at hfresh
      cases hfresh
    refine (List.mem_erase_of_ne hne).2 (mem_unresolved.2 ⟨hm, Bool.eq_false_iff.2 fun hknown => ?_⟩)
    rw [knows_record rfl _ (hkeeps m hknown)] at hfresh
    cases hfresh
  have hle := (List.subperm_of_subset (List.nodup_dedup _) hsubset).length_le
  have hpos := List.length_pos_of_mem hmem
  rw [List.length_erase_of_mem hmem] at hle
  exact Nat.lt_of_le_of_lt hle (Nat.sub_lt hpos Nat.one_pos)

theorem exists_attempts (hr : Recognised schema) (r : Registry) :
    ∃ k o, Attempts schema k r o ∧ k ≤ (unresolved schema r).length + 1 := by
  induction hn : (unresolved schema r).length using Nat.strong_induction_on generalizing r with
  | _ size ih =>
    rcases hparse : parse schema {} r with ⟨e | d, t⟩
    · by_cases hunknown : ∃ n, e = .unknownType n
      · obtain ⟨n, rfl⟩ := hunknown
        have hlt := length_unresolved_lt hr hparse
        obtain ⟨k, o, hattempts, hk⟩ := ih _ (hn ▸ hlt) _ rfl
        exact ⟨k + 1, o, .again hparse hattempts, by omega⟩
      · refine ⟨1, _, .last fun n hn => ?_, Nat.le_add_left 1 _⟩
        rw [hparse] at hn
        cases hn
        exact hunknown ⟨n, rfl⟩
    · refine ⟨1, _, .last fun n hn => ?_, Nat.le_add_left 1 _⟩
      rw [hparse] at hn
      cases hn

theorem retry_of_unknown (h : parse schema {} r = (.error (.unknownType n), t)) :
    retry (j + 1) schema r = retry j schema (t.record (.str n) (.obj [])) := by
  simp only [retry, h]

theorem Attempts.retry_eq (h : Attempts schema k r o) (hk : k ≤ j) : retry j schema r = o := by
  induction h generalizing j with
  | last hlast =>
    obtain ⟨j, rfl⟩ := Nat.exists_eq_add_of_le' hk
    exact retry_eq_parse hlast
  | again hparse _ ih =>
    obtain ⟨j, rfl⟩ := Nat.exists_eq_add_of_le' (Nat.le_trans (Nat.le_add_left 1 _) hk)
    rw [retry_of_unknown hparse]
    exact ih (Nat.le_of_succ_le_succ hk)

theorem Attempts.retry_endless (h : Attempts schema k r o) (hj : j < k) :
    (retry j schema r).1 = .error .endless := by
  induction h generalizing j with
  | last =>
    obtain rfl : j = 0 := by omega
    rfl
  | again hparse _ ih =>
    cases j with
    | zero => rfl
    | succ j =>
      rw [retry_of_unknown hparse]
      exact ih (Nat.lt_of_succ_lt_succ hj)

theorem Attempts.parseOpen_eq (h : Attempts schema k r o) (hr : Recognised schema) :
    parseOpen schema r = o := by
  refine h.retry_eq ?_
  by_contra! hlt
  have hsettled := parseOpen_settled hr (h.retry_endless hlt)
  cases hsettled

/-- The registry that the last attempt starts from has empty definitions for some of the names that the schema
refers to before it defines them. It may have something else for the names that the schema defines. -/
theorem Attempts.exists_last (h : Attempts schema k r o) (hr : Recognised schema) :
    ∃ r', parse schema {} r' = o ∧ ∀ m, ¬ Introduces (topMentions (schema.depth + 1) schema) m →
      r'.find? m = r.find? m ∨ r.find? m = none ∧ r'.find? m = some (.obj []) ∧
        ∃ n ∈ ahead (topMentions (schema.depth + 1) schema), m = .str n := by
  induction h with
  | last => exact ⟨_, rfl, fun m _ => .inl rfl⟩
  | @again k r t n o hparse _ ih =>
    obtain ⟨r', hlast, hstubs⟩ := ih
    refine ⟨r', hlast, fun m hm => ?_⟩
    have hframe := (meets_parse hr).frame r m hm
    obtain ⟨hahead, hunknown⟩ := ((meets_parse hr).unknown hparse).resolve_left id
    rw [hparse] at hframe
    have hstubs := hstubs m hm
    rw [find?_record_str] at hstubs
    split_ifs at hstubs with hname
    · have hnone : r.find? m = none := by
        rw [knows, ← hname, Option.isSome_eq_false_iff, Option.isNone_iff_eq_none] at hunknown
        exact hframe.symm.trans hunknown
      rcases hstubs with hstub | ⟨habsurd, -⟩
      · exact .inr ⟨hnone, hstub, n, hahead, hname⟩
      · cases habsurd
    · rw [← show t.find? m = r.find? m from hframe]
      exact hstubs

theorem knows_iff : r.knows n = true ↔ r.find? (.str n) ≠ none := by
  rw [knows, Option.isSome_iff_ne_none]

theorem parse_stub_not_unknown (hr : Recognised schema) (n : String) :
    (parse schema {} (r.stub (unresolved schema r))).1 ≠ .error (.unknownType n) := by
  intro hn
  rcases hparse : parse schema {} (r.stub (unresolved schema r)) with ⟨e, t⟩
  rw [hparse] at hn
  cases hn
  obtain ⟨hahead, hunknown⟩ := ((meets_parse hr).unknown hparse).resolve_left id
  have hstub : (r.stub (unresolved schema r)).knows n = true := by
    rw [knows_iff, find?_stub]
    split_ifs with hmem
    · exact nofun
    · rw [← knows_iff, ← Bool.not_eq_false]
      exact fun hknown => hmem ⟨n, mem_unresolved.2 ⟨hahead, hknown⟩, rfl⟩
  have hkept := (meets_parse hr).keeps (r.stub (unresolved schema r)) (.str n) hstub
  rw [hparse] at hkept
  rw [knows, hkept] at hunknown
  cases hunknown

/-- The last attempt finds the same as one from the empty definitions, as far as the schema does not define it
itself. -/
theorem find?_eq_of_last {r' t : Registry} {d m : Json} (hr : Recognised schema)
    (hm : ¬ Introduces (topMentions (schema.depth + 1) schema) m) (hlast : parse schema {} r' = (.ok d, t))
    (h : r'.find? m = r.find? m ∨ r.find? m = none ∧ r'.find? m = some (.obj []) ∧
      ∃ n ∈ ahead (topMentions (schema.depth + 1) schema), m = .str n) :
    r'.find? m = (r.stub (unresolved schema r)).find? m := by
  rw [find?_stub]
  rcases h with hsame | ⟨hnone, hstub, n, hahead, rfl⟩
  · rw [if_neg, hsame]
    rintro ⟨n, hn, rfl⟩
    obtain ⟨hahead, hunknown⟩ := mem_unresolved.1 hn
    -- The attempt has found a definition for the name, and has not made one.
    have hfound : t.knows n = true := (meets_parse hr).refers r' d t hlast n (reference_mem_of_mem_ahead hahead)
    have hframe := (meets_parse hr).frame r' (.str n) hm
    rw [hlast] at hframe
    rw [knows, show t.find? (.str n) = r'.find? (.str n) from hframe, hsame] at hfound
    rw [knows, hfound] at hunknown
    cases hunknown
  · have hunknown : r.knows n = false := by rw [knows, hnone]; rfl
    rw [hstub, if_pos ⟨n, mem_unresolved.2 ⟨hahead, hunknown⟩, rfl⟩]

/-- Attempts at a schema of recognised types are repeated at most once for every unresolved name. If the last one
succeeds, then its result and what is recorded under every name are those of one attempt from a registry with an
empty definition for each of these names. -/
theorem retried_as_parsed_once (hr : Recognised schema) (r : Registry) :
    ∃ k o, Attempts schema k r o ∧ k ≤ (unresolved schema r).length + 1 ∧ parseOpen schema r = o ∧
      ∀ d t, o = (.ok d, t) → ∃ t', parse schema {} (r.stub (unresolved schema r)) = (.ok d, t') ∧
        ∀ m, t.find? m = t'.find? m := by
  obtain ⟨k, o, hattempts, hk⟩ := exists_attempts hr r
  refine ⟨k, o, hattempts, hk, hattempts.parseOpen_eq hr, ?_⟩
  rintro d t rfl
  obtain ⟨r', hlast, hstubs⟩ := hattempts.exists_last hr
  have hresult : (parse schema {} (r.stub (unresolved schema r))).1 = .ok d := by
    rcases parse_alike schema r' (r.stub (unresolved schema r)) with hmiss | hmiss | halike
    · obtain ⟨n, t', hparse, -⟩ := hmiss
      cases hlast.symm.trans hparse
    · obtain ⟨n, t', hparse, -⟩ := hmiss
      exact absurd (congrArg Prod.fst hparse) (parse_stub_not_unknown hr n)
    · rw [← halike, hlast]
  rcases hparse : parse schema {} (r.stub (unresolved schema r)) with ⟨o', t'⟩
  rw [hparse] at hresult
  cases hresult
  refine ⟨t', rfl, fun m => ?_⟩
  have hsettles := (meets_parse hr).settles (fun m => ¬ Introduces (topMentions (schema.depth + 1) schema) m)
    r' (r.stub (unresolved schema r)) d d t t'
    (fun m hm => find?_eq_of_last hr hm hlast (hstubs m hm)) hlast hparse
  exact hsettles.2 m (em' _)

/-- A record that refers to a type before its definition, and to one without a definition. -/
def parcel : Json :=
  .record "post.parcel" [
    .field "from" (.str "post.code"),
    .field "to" (.obj
      [("type", .str "fixed"), ("name", .str "post.code"), ("size", .int 2)]),
    .field "back" (.arr [.str "null", .str "post.parcel", .str "post.stamp"])]

theorem recognised_parcel : Recognised parcel := by
  refine .record rfl (by decide) ?_
  intro inner hinner
  have hcases : inner = .str "post.code" ∨ inner = .obj
      [("type", .str "fixed"), ("name", .str "post.code"), ("size", .int 2)] ∨
      inner = .arr [.str "null", .str "post.parcel", .str "post.stamp"] := by
    simpa [fieldTypes, fieldList, Json.lookup, Json.elements?, Json.get?] using hinner
  rcases hcases with rfl | rfl | rfl
  · exact .plain rfl rfl
  · exact .leaf rfl (by decide)
  · refine .union fun branch hbranch => ?_
    simp only [List.mem_cons, List.not_mem_nil, or_false] at hbranch
    rcases hbranch with rfl | rfl | rfl <;> exact .plain rfl rfl

/-- Two names are unresolved there, so that there are at most three attempts. -/
theorem parcel_retried :
    unresolved parcel [] = ["post.code", "post.stamp"] ∧
      ∃ k d t t', Attempts parcel k [] (.ok d, t) ∧ k ≤ 3 ∧ parseOpen parcel [] = (.ok d, t) ∧
        parse parcel {} (stub [] ["post.code", "post.stamp"]) = (.ok d, t') ∧
        ∀ m, t.find? m = t'.find? m := by
  have hunresolved : unresolved parcel [] = ["post.code", "post.stamp"] := by decide +kernel
  have hsucceeds : (parseOpen parcel []).1.toBool = true := by decide +kernel
  obtain ⟨k, o, hattempts, hk, rfl, honce⟩ := retried_as_parsed_once recognised_parcel []
  rw [hunresolved] at hk honce
  rcases hparsed : parseOpen parcel [] with ⟨e | d, t⟩ <;> rw [hparsed] at hsucceeds hattempts
  · cases hsucceeds
  · obtain ⟨t', hparse, hsame⟩ := honce d t hparsed
    exact ⟨hunresolved, k, d, t, t', hattempts, hk, rfl, hparse, hsame⟩

end AvroCodec.Schema
