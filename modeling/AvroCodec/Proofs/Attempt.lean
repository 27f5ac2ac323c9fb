import AvroCodec.Proofs.Mention

/-!
# Attempts to parse

An attempt that fails at an unknown name is repeated with one more name known, and there are only as many
names as the schema refers to. Other failures stay. What comes out in the end is the same for all registries.
-/

namespace AvroCodec.Schema

variable {e : SchemaError} {schema : Json} {r : Registry} {attempts : Nat}

/-- An attempt fails at a name that the schema refers to and that is not known, and has not forgotten any. -/
def AttemptMisses (schema : Json) (r : Registry) : Prop :=
  ∃ n t, parse schema {} r = (.error (.unknownType n), t) ∧
    .reference n ∈ topMentions (schema.depth + 1) schema ∧ t.knows n = false ∧
    ∀ m, r.knows m = true → t.knows m = true

theorem parse_alike (schema : Json) (r r' : Registry) :
    AttemptMisses schema r ∨ AttemptMisses schema r' ∨
      (parse schema {} r).1 = (parse schema {} r').1 := by
  have hmeets : Meets (fun _ => True) .plain (topMentions (schema.depth + 1) schema) (parse schema) :=
    meets_parseTop (.inr fun _ => trivial) (.inr trivial)
  have hmisses : ∀ {r e t}, parse schema {} r = (.error e, t) → (∃ n, e = .unknownType n ∧
      .reference n ∈ topMentions (schema.depth + 1) schema ∧ t.knows n = false) → AttemptMisses schema r := by
    rintro r e t hparse ⟨n, rfl, hn, hunknown⟩
    refine ⟨n, t, hparse, hn, hunknown, fun m hm => ?_⟩
    have hkept := hmeets.keeps r (.str m) hm
    rwa [hparse] at hkept
  have hrun := hmeets.alike _ (fun _ hn => hn) r r' rfl
  rcases hx : parse schema {} r with ⟨e | d, t⟩ <;>
    rcases hy : parse schema {} r' with ⟨e' | d', t'⟩ <;> simp only [hx, hy] at hrun
  · rcases hrun with hrun | hrun | rfl
    · exact .inl (hmisses hx hrun)
    · exact .inr (.inl (hmisses hy hrun))
    · exact .inr (.inr rfl)
  · exact .inl (hmisses hx hrun)
  · exact .inr (.inl (hmisses hy hrun))
  · exact .inr (.inr (congrArg Except.ok hrun.1))

theorem parse_settled (h : Recognised schema) (r : Registry) :
    AttemptMisses schema r ∨ ∀ e, (parse schema {} r).1 = .error e → e.isSettled = true := by
  rcases hx : parse schema {} r with ⟨e | d, t⟩
  · rcases (meets_parse h).fails r e t hx with hsettled | hnever | ⟨n, rfl, hahead, hunknown⟩
    · right
      rintro _ ⟨⟩
      exact hsettled
    · exact hnever.elim
    · refine .inl ⟨n, t, hx, reference_mem_of_mem_ahead hahead, hunknown, fun m hm => ?_⟩
      have hkept := (meets_parse h).keeps r (.str m) hm
      rwa [hx] at hkept
  · exact .inr fun e he => nomatch he

def Mention.misses (r : Registry) : Mention → Bool
  | .reference name => !r.knows name
  | .definition _ => false

def missing (schema : Json) (r : Registry) : Nat :=
  (topMentions (schema.depth + 1) schema).countP (Mention.misses r)

theorem missing_lt (schema : Json) (r : Registry) : missing schema r < schema.stringCount + 1 :=
  Nat.lt_succ_of_le (countP_topMentions_le fun _ => rfl)

/-- After an attempt that fails at an unknown name one name less is missing. -/
theorem exists_retry_of_misses (h : AttemptMisses schema r) :
    ∃ r', missing schema r' < missing schema r ∧
      ∀ attempts, retry (attempts + 1) schema r = retry attempts schema r' := by
  obtain ⟨n, t, hparse, hn, hunknown, hkept⟩ := h
  refine ⟨t.record (.str n) (.obj []), ?_, fun attempts => by simp only [retry, hparse]⟩
  have hr : r.knows n = false := by
    rw [← Bool.not_eq_true]
    exact fun hr => absurd (hkept n hr) (by rw [hunknown]; exact Bool.false_ne_true)
  obtain ⟨before, after, hsplit⟩ := List.append_of_mem hn
  have hfewer : ∀ ms : List Mention, ms.countP (Mention.misses (t.record (.str n) (.obj []))) ≤
      ms.countP (Mention.misses r) := by
    refine fun ms => List.countP_mono_left fun m _ hm => ?_
    cases m with
    | definition name => cases hm
    | reference name =>
      rw [Mention.misses, Bool.not_eq_true', ← Bool.not_eq_true] at hm ⊢
      exact fun hknown => hm (Registry.knows_record rfl _ (hkept name hknown))
  have hbefore := hfewer before
  have hafter := hfewer after
  simp only [missing, hsplit, List.countP_append, List.countP_cons, Mention.misses, hr,
    Registry.knows_record_self, Bool.not_true, Bool.not_false, if_true, Bool.false_eq_true, if_false]
  omega

theorem retry_eq_parse
    (h : ∀ n, (parse schema {} r).1 ≠ .error (.unknownType n)) :
    retry (attempts + 1) schema r = parse schema {} r := by
  rw [retry]
  beta_reduce
  split
  next n t hparse => exact absurd (congrArg Prod.fst hparse) (h n)
  next => rfl

/-- An outcome that an attempt has with one registry comes out with every other, after as many attempts
as names are missing there. -/
theorem retry_eq_of_parse {r' : Registry}
    (hknown : ∀ n, (parse schema {} r').1 ≠ .error (.unknownType n))
    (hr : missing schema r < attempts) : (retry attempts schema r).1 = (parse schema {} r').1 := by
  induction attempts generalizing r with
  | zero => exact absurd hr (Nat.not_lt_zero _)
  | succ attempts ih =>
    rcases parse_alike schema r r' with hmiss | hmiss | halike
    · obtain ⟨t, hfewer, hretry⟩ := exists_retry_of_misses hmiss
      rw [hretry]
      exact ih (Nat.lt_of_lt_of_le hfewer (Nat.le_of_lt_succ hr))
    · obtain ⟨n, t, hparse, -⟩ := hmiss
      exact absurd (congrArg Prod.fst hparse) (hknown n)
    · rw [← halike] at hknown ⊢
      rw [retry_eq_parse hknown]

theorem retry_eq_endless
    (h : ∀ r, ∃ n, (parse schema {} r).1 = .error (.unknownType n)) :
    (retry attempts schema r).1 = .error .endless := by
  induction attempts generalizing r with
  | zero => rfl
  | succ attempts ih =>
    obtain ⟨n, hn⟩ := h r
    rcases hparse : parse schema {} r with ⟨o, t⟩
    rw [hparse] at hn
    cases hn
    simp only [retry, hparse]
    exact ih

theorem parseOpen_alike (schema : Json) (r r' : Registry) :
    (parseOpen schema r).1 = (parseOpen schema r').1 := by
  by_cases h : ∃ t, ∀ n, (parse schema {} t).1 ≠ .error (.unknownType n)
  · obtain ⟨t, ht⟩ := h
    exact (retry_eq_of_parse ht (missing_lt schema r)).trans
      (retry_eq_of_parse ht (missing_lt schema r')).symm
  · push Not at h
    exact (retry_eq_endless h).trans (retry_eq_endless h).symm

theorem retry_settled (h : Recognised schema)
    (hr : missing schema r < attempts) (e : SchemaError)
    (he : (retry attempts schema r).1 = .error e) : e.isSettled = true := by
  induction attempts generalizing r with
  | zero => exact absurd hr (Nat.not_lt_zero _)
  | succ attempts ih =>
    rcases parse_settled h r with hmiss | hsettled
    · obtain ⟨t, hfewer, hretry⟩ := exists_retry_of_misses hmiss
      rw [hretry] at he
      exact ih (Nat.lt_of_lt_of_le hfewer (Nat.le_of_lt_succ hr)) he
    · rw [retry_eq_parse fun n hn => absurd (hsettled _ hn) Bool.false_ne_true] at he
      exact hsettled e he

/-- Parsing a schema of recognised types ends, and never with an unknown name. -/
theorem parseOpen_settled (h : Recognised schema)
    (he : (parseOpen schema r).1 = .error e) : e.isSettled = true :=
  retry_settled h (missing_lt schema r) e he

end AvroCodec.Schema
