import AvroCodec.Proofs.Closed
import AvroCodec.Store

/-!
# Independence of what was parsed before

A schema that has been parsed refers to known names only, so parsing it once more cannot fail at an
unknown one. With that, whatever is computed through the registry (a parsed schema, a database, a store,
a definition loaded from a store) is the same for all registries. In particular no request has an
influence on the answers to later ones.
-/

namespace AvroCodec

namespace Schema

variable {r t : Registry} {k : Nat} {d schema : Json} {hint : Bool}

/-- Known names stay known, and more become known. -/
def Learns (r : Registry) (ms : List Mention) (t : Registry) : Prop :=
  (∀ m, r.knows m = true → t.knows m = true) ∧ ∀ m, .reference m ∈ ms → t.knows m = true

theorem learns_mapM {f : Json → WithRegistry Json} {L : Json → List Mention} {xs ys : List Json}
    (hf : ∀ x ∈ xs, ∀ r y t, f x r = (.ok y, t) → Learns r (L y) t) (h : xs.mapM f r = (.ok ys, t)) :
    Learns r (ys.flatMap L) t := by
  induction xs generalizing r ys with
  | nil =>
    rw [List.mapM_nil, pure_eq_ok] at h
    obtain ⟨rfl, rfl⟩ := h
    exact ⟨fun _ hm => hm, fun _ hm => absurd hm List.not_mem_nil⟩
  | cons x xs ih =>
    simp only [List.mapM_cons, bind_eq_ok, pure_eq_ok] at h
    obtain ⟨y, r₁, hy, ys, r₂, hys, rfl, rfl⟩ := h
    obtain ⟨hkept, hnames⟩ := hf x List.mem_cons_self r y r₁ hy
    obtain ⟨hkept', hmore⟩ := ih (fun x hx => hf x (List.mem_cons_of_mem _ hx)) hys
    refine ⟨fun m hm => hkept' m (hkept m hm), fun m hm => ?_⟩
    rcases List.mem_append.1 hm with hm | hm
    · exact hkept' m (hnames m hm)
    · exact hmore m hm

theorem topMentions_subset (hd : ∀ branches, d ≠ .arr branches) :
    topMentions k d ⊆ mentions (d.depth + 1) (.str "") d := by
  cases k with
  | zero => exact List.nil_subset _
  | succ k =>
    cases d with
    | arr branches => exact absurd rfl (hd branches)
    | obj members =>
      rw [topMentions]
      split_ifs
      · exact List.nil_subset _
      · exact List.Subset.refl _
    | _ => exact List.Subset.refl _

theorem parseFresh_ne_arr (hschema : ∀ branches, schema ≠ .arr branches)
    (h : parseFresh false hint schema r = (.ok d, t)) : ∀ branches, d ≠ .arr branches := by
  rw [parseFresh_eq h]
  cases schema with
  | arr branches => exact absurd rfl (hschema branches)
  | obj members =>
    obtain ⟨members', hmembers⟩ := exists_normalIn_obj ((Json.obj members).depth + 1) hint (.str "") members
    rw [hmembers]
    exact fun _ heq => nomatch heq
  | _ => exact fun _ heq => nomatch heq

theorem learns_parseFresh (hschema : ∀ branches, schema ≠ .arr branches)
    (h : parseFresh false hint schema r = (.ok d, t)) : Learns r (topMentions k d) t := by
  have hd := parseFresh_ne_arr hschema h
  obtain ⟨s, hrun, rfl⟩ := parseFresh_eq_iff.1 h
  have hcompletes := completes_parseIn hrun (Nat.lt_succ_self _)
  exact ⟨fun m hm => hcompletes.keeps hm, fun m hm => hcompletes.knows (topMentions_subset hd hm)⟩

theorem learns_parseTop {depth : Nat}
    (h : parseTop depth {} schema r = (.ok d, t)) : Learns r (topMentions k d) t := by
  induction depth generalizing k schema d r t with
  | zero => exact (throw_eq_ok.1 h).elim
  | succ depth ih =>
    simp only [parseTop, Bool.or_self, Bool.false_eq_true, if_false] at h
    split at h
    · split_ifs at h with hmark
      · obtain ⟨rfl, rfl⟩ := pure_eq_ok.1 h
        refine ⟨fun _ hm => hm, ?_⟩
        cases k <;> simp [topMentions, hmark]
      · exact learns_parseFresh (by rintro _ ⟨⟩) h
    · obtain ⟨ds, t, hds, hd⟩ := bind_eq_ok.1 h
      obtain ⟨rfl, rfl⟩ := pure_eq_ok.1 hd
      cases k with
      | zero =>
        have hlearns := learns_mapM (fun _ _ _ _ _ hx => ih (k := 0) hx) hds
        exact ⟨hlearns.1, fun _ hm => absurd hm List.not_mem_nil⟩
      | succ k => exact learns_mapM (fun _ _ _ _ _ hx => ih hx) hds
    · rename_i harr
      exact learns_parseFresh harr h

theorem exists_parse_of_retry {attempts : Nat}
    (h : retry attempts schema r = (.ok d, t)) : ∃ r', parse schema {} r' = (.ok d, t) := by
  induction attempts generalizing r with
  | zero => exact (throw_eq_ok.1 h).elim
  | succ attempts ih =>
    rw [retry] at h
    beta_reduce at h
    split at h
    · exact ih h
    · exact ⟨r, h⟩

theorem knows_of_parseOpen (h : parseOpen schema r = (.ok d, t)) :
    ∀ n, .reference n ∈ topMentions (d.depth + 1) d → t.knows n = true := by
  obtain ⟨r', hparse⟩ := exists_parse_of_retry h
  exact (learns_parseTop hparse).2

theorem not_attemptMisses
    (h : ∀ n, .reference n ∈ topMentions (schema.depth + 1) schema → r.knows n = true) : ¬AttemptMisses schema r := by
  rintro ⟨n, t, -, hn, hunknown, hkept⟩
  exact absurd (hkept n (h n hn)) (by rw [hunknown]; exact Bool.false_ne_true)

theorem exists_parse_of_knows {r' : Registry} (h : parse schema {} r = (.ok d, t))
    (hknown : ∀ n, .reference n ∈ topMentions (schema.depth + 1) schema → r'.knows n = true) :
    ∃ t', parse schema {} r' = (.ok d, t') := by
  have hmiss : ¬AttemptMisses schema r := by
    rintro ⟨n, t, he, -⟩
    rw [h] at he
    cases he
  have halike := ((parse_alike schema r' r).resolve_left (not_attemptMisses hknown)).resolve_left hmiss
  rw [h] at halike
  exact ⟨(parse schema {} r').2, Prod.ext halike rfl⟩

/-- A failure of either of two runs is the failure of the other. -/
def sameTerms (σ : Type) : Terms σ where
  first _ _ := False
  second _ _ := False
  both e _ e' _ := e = e'

/-- An action whose outcome is the same with all registries. -/
abbrev Oblivious {α : Type} (x : WithRegistry α) : Prop :=
  Blind (sameTerms Registry) (fun _ _ => True) x

theorem Oblivious.outcome {α : Type} {x : WithRegistry α} (h : Oblivious x) (r r' : Registry) :
    (x r).1 = (x r').1 := by
  have hrun := h r r' trivial
  rcases hx : x r with ⟨e | a, t⟩ <;> rcases hy : x r' with ⟨e' | a', t'⟩ <;>
    simp only [hx, hy] at hrun
  · exact congrArg Except.error (hrun.resolve_left id |>.resolve_left id)
  · exact hrun.elim
  · exact hrun.elim
  · exact congrArg Except.ok hrun.1

theorem oblivious_lift {α : Type} (o : Except SchemaError α) : Oblivious (liftM o) := by
  cases o with
  | ok a => exact Blind.pure a
  | error e => exact Blind.throw fun _ _ _ => rfl

/-- Two registries that know every name of a schema. -/
def KnowsAll (schema : Json) (r r' : Registry) : Prop :=
  ∀ n, .reference n ∈ topMentions (schema.depth + 1) schema → r.knows n = true ∧ r'.knows n = true

theorem compares_parseOpen (schema : Json) :
    Compares (sameTerms Registry) (fun _ _ => True) (parseOpen schema) (parseOpen schema)
      fun d t d' t' => d = d' ∧ KnowsAll d t t' := by
  intro r r' _
  have halike := parseOpen_alike schema r r'
  rcases hx : parseOpen schema r with ⟨e | d, t⟩ <;>
    rcases hy : parseOpen schema r' with ⟨e' | d', t'⟩ <;> rw [hx, hy] at halike <;> cases halike
  · exact .inr (.inr rfl)
  · exact ⟨rfl, fun n hn => ⟨knows_of_parseOpen hx n hn, knows_of_parseOpen hy n hn⟩⟩

theorem oblivious_parseOpen (schema : Json) : Oblivious (parseOpen schema) :=
  (compares_parseOpen schema).mono (fun _ _ h => h) fun _ _ _ _ h => ⟨h.1, trivial⟩

theorem compares_parse (schema : Json) :
    Compares (sameTerms Registry) (KnowsAll schema) (parse schema) (parse schema)
      fun d _ d' _ => d = d' := by
  intro r r' hknown
  have halike := ((parse_alike schema r r').resolve_left
    (not_attemptMisses fun n hn => (hknown n hn).1)).resolve_left (not_attemptMisses fun n hn => (hknown n hn).2)
  rcases hx : parse schema {} r with ⟨e | d, t⟩ <;>
    rcases hy : parse schema {} r' with ⟨e' | d', t'⟩ <;> rw [hx, hy] at halike <;> cases halike
  · exact .inr (.inr rfl)
  · exact rfl

end Schema

open Schema

namespace Database

theorem oblivious_add (db : Database) (identifier : String) (schema : Json) :
    Oblivious (add db identifier schema) := by
  unfold add
  refine Compares.bind (compares_parseOpen schema) ?_
  rintro d d' r r' ⟨rfl, hknown⟩
  refine (?_ : Compares _ (KnowsAll d) _ _ _) r r' hknown
  split_ifs
  · refine Compares.bind (compares_parse d) ?_
    rintro again _ t t' rfl
    exact oblivious_lift (scan d (Json.put identifier again db)) t t' trivial
  · exact (oblivious_lift (scan d db)).mono (fun _ _ _ => trivial) fun _ _ _ _ h => h

theorem oblivious_gather (schemata : Schemata) : Oblivious (gather schemata) := by
  have hfold : ∀ (schemata : Schemata) (db : Database),
      Oblivious (schemata.foldlM (fun db entry => add db entry.1 entry.2) db) := by
    intro schemata
    induction schemata with
    | nil => exact fun db => Blind.pure db
    | cons entry rest ih =>
      intro db
      rw [List.foldlM_cons]
      exact Blind.bind (oblivious_add db entry.1 entry.2) ih
  exact hfold schemata []

end Database

namespace Store

theorem oblivious_build (schemata : Schemata) : Oblivious (build schemata) := by
  unfold build
  refine Blind.bind (Database.oblivious_gather schemata) fun database => ?_
  refine Blind.bind (oblivious_lift (Trail.cyclesOf database)) fun cycles => ?_
  exact Blind.pure _

theorem oblivious_load (store : Store) (identifier context : String) :
    Oblivious (store.load identifier context) := by
  unfold load
  split_ifs
  · exact oblivious_lift _
  · refine Blind.bind ?_ fun db => ?_
    · unfold localDatabase
      split
      · exact Database.oblivious_gather _
      · exact Blind.throw fun _ _ _ => rfl
    · split
      · exact Blind.pure _
      · exact oblivious_lift _

end Store

/-- What can be asked for through the registry. -/
inductive Request
  | parsed (schema : Json)
  | gathered (schemata : Schemata)
  | built (schemata : Schemata)
  | loaded (store : Store) (identifier context : String)

namespace Request

inductive Answer
  | schema (d : Json)
  | database (db : Database)
  | store (store : Store)

def answer : Request → WithRegistry Answer
  | parsed schema => do return .schema (← parseOpen schema)
  | gathered schemata => do return .database (← Database.gather schemata)
  | built schemata => do return .store (← Store.build schemata)
  | loaded store identifier context => do return .schema (← store.load identifier context)

/-- The answers to requests that are made one after the other. A request that fails leaves what it has
recorded. -/
def answers : List Request → Registry → List (Except SchemaError Answer)
  | [], _ => []
  | request :: rest, r => (request.answer r).1 :: answers rest (request.answer r).2

theorem oblivious_answer (request : Request) : Oblivious request.answer := by
  cases request with
  | parsed schema => exact Blind.bind (oblivious_parseOpen schema) fun _ => Blind.pure _
  | gathered schemata => exact Blind.bind (Database.oblivious_gather schemata) fun _ => Blind.pure _
  | built schemata => exact Blind.bind (Store.oblivious_build schemata) fun _ => Blind.pure _
  | loaded store identifier context =>
    exact Blind.bind (store.oblivious_load identifier context) fun _ => Blind.pure _

theorem answers_eq_map (requests : List Request) (r r' : Registry) :
    answers requests r = requests.map fun request => (request.answer r').1 := by
  induction requests generalizing r with
  | nil => rfl
  | cons request rest ih =>
    rw [answers, List.map_cons, ih, (oblivious_answer request).outcome r r']

end Request

/-- Parsing a schema of recognised types ends with the same result, or with the same failure, whatever
the registry holds, and the failure is not that a name is unknown. Nothing that is asked for through the
registry has an influence on what is asked for later. -/
theorem parsing_independent_of_history :
    (∀ schema, Recognised schema → ∃ outcome : Except SchemaError Json,
      (∀ r, (parseOpen schema r).1 = outcome) ∧ ∀ e, outcome = .error e → e.isSettled = true) ∧
    ∀ requests r r', Request.answers requests r =
      requests.map fun request => (request.answer r').1 := by
  refine ⟨fun schema h => ⟨(parseOpen schema []).1, fun r => ?_, fun e he => ?_⟩, ?_⟩
  · exact parseOpen_alike schema r []
  · exact parseOpen_settled h he
  · exact Request.answers_eq_map

/-- A record that refers to itself, and to a name that it does not define. -/
def linkedSchema : Json :=
  .obj [("type", .str "record"), ("name", .str "Node"), ("namespace", .str "a"), ("fields", .arr [
    .field "next" (.arr [.str "null", .str "Node", .str "b.Other"])])]

theorem recognised_linkedSchema : Recognised linkedSchema := by
  refine .record rfl (by decide) fun inner hinner => ?_
  cases List.mem_singleton.1 hinner
  have hplain : ∀ branch ∈ [Json.str "null", .str "Node", .str "b.Other"],
      branch.isObj = false ∧ branch.isArr = false := by decide
  exact .union fun branch hbranch => .plain (hplain branch hbranch).1 (hplain branch hbranch).2

theorem parsing_independent_of_history_linked : Recognised linkedSchema ∧
    (∃ outcome : Except SchemaError Json, (∀ r, (parseOpen linkedSchema r).1 = outcome) ∧
      ∀ e, outcome = .error e → e.isSettled = true) ∧
    (parseOpen linkedSchema []).1.toOption.isSome = true :=
  ⟨recognised_linkedSchema, parsing_independent_of_history.1 linkedSchema recognised_linkedSchema,
    by decide +kernel⟩

end AvroCodec
