import AvroCodec.Proofs.Nature

/-!
# Uniting types

If code was generated for every type of a union, and their values can be told, then code can be generated
for the union. It has the code of the types inside it.
-/

namespace AvroCodec

open Code Gen Recursion Generator

namespace Store

variable {store : Store} {extended : Bool} {known : String → Prop} {types : Nat} {α β ι : Type}

/-! ### Generating code for a union -/

/-- An action that comes to something from all states that fit. -/
def Succeeds (store : Store) (extended : Bool) (known : String → Prop) (types : Nat) (x : Gen α) : Prop :=
  ∀ ⦃s⦄, store.Fits known types s → ∃ a t, x ⟨store, extended⟩ s = (.ok a, t) ∧ store.Fits known types t

namespace Succeeds

theorem pure (a : α) : store.Succeeds extended known types (Pure.pure a : Gen α) := fun s hs => ⟨a, s, rfl, hs⟩

theorem bind {x : Gen α} {f : α → Gen β} (hx : store.Succeeds extended known types x)
    (hf : ∀ a, store.Succeeds extended known types (f a)) : store.Succeeds extended known types (x >>= f) := by
  intro s hs
  obtain ⟨a, s₁, ha, hs₁⟩ := hx hs
  obtain ⟨b, t, hb, ht⟩ := hf a hs₁
  exact ⟨b, t, bind_eq_ok.2 ⟨a, s₁, ha, hb⟩, ht⟩

theorem bind_lift {x : Except SchemaError α} {a : α} {f : α → Gen β} (hx : x = .ok a)
    (hf : store.Succeeds extended known types (f a)) : store.Succeeds extended known types (liftM x >>= f) := by
  subst hx
  exact hf

theorem mapM {f : ι → Gen α} {is : List ι} (h : ∀ i ∈ is, store.Succeeds extended known types (f i)) :
    store.Succeeds extended known types (is.mapM f) := by
  induction is with
  | nil => exact pure []
  | cons i is ih =>
    rw [List.mapM_cons]
    refine (h i List.mem_cons_self).bind fun a => ?_
    exact (ih fun j hj => h j (List.mem_cons_of_mem _ hj)).bind fun as => pure (a :: as)

theorem requireReady : store.Succeeds extended known types Gen.requireReady := by
  intro s hs
  refine ⟨(), s, ?_, hs⟩
  change (if !s.ready then throw SchemaError.templatesNotReady else Pure.pure () : Gen Unit) _ s = _
  rw [hs.ready]
  rfl

theorem declare (type name : String) : store.Succeeds extended known types (Gen.declare type name) :=
  fun _ hs => ⟨(), _, rfl, hs.ready, hs.context, hs.handled, hs.remaining⟩

theorem draw {kind : String} {z : Gen String} {f : String → Gen α} (hz : Gen.Fresh kind z)
    (hf : ∀ n, store.Succeeds extended known types (f (variableName kind n))) :
    store.Succeeds extended known types (z >>= f) := by
  intro s hs
  obtain ⟨n, u, -, hrun⟩ := hz.exists_count
  have hs₁ : store.Fits known types (s.count (u s.counters)) := ⟨hs.ready, hs.context, hs.handled, hs.remaining⟩
  obtain ⟨b, t, hb, ht⟩ := hf (n s.counters) hs₁
  exact ⟨b, t, Gen.bind_eq_ok.2 ⟨_, _, hrun _ s, hb⟩, ht⟩

end Succeeds

section Union

variable {schemata : Schemata} {g g' : Schema.Registry} {rec : Recursion} {union : List Json}
  (h : Store.build schemata g = (.ok store, g')) (hc : store.Consistent)

include h hc in
theorem succeeds_guardOf {d : Json} {n : Nature} (hn : store.nature? d = some n) :
    store.Succeeds extended known types (guardOf d) := by
  intro s hs
  obtain ⟨k, t, hk, ht, -⟩ := exists_guardIn h hc hn (.refl d) hs
  exact ⟨k, t, hk, ht⟩

include h hc in
theorem succeeds_encodeUnion (hnature : ∀ d ∈ union, ∃ n, store.nature? d = some n)
    (htag : ∀ d ∈ union, ∃ tag, tagOf d = .ok tag) (harrays : (union.filter isArrayType).length ≤ 1)
    (hencode : ∀ d ∈ union, ∀ p : Place, p.root ≠ "" → store.Succeeds extended known types (rec.encode d p)) :
    store.Succeeds extended known types (encodeUnion rec (.arr union) (.of "data")) := by
  have hmem : ∀ t ∈ inTrialOrder union, t.1 ∈ union := fun t ht => Parallel.mem_of_inTrialOrder ht
  refine Succeeds.bind_lift (a := union) rfl ?_
  unfold encodeBranches
  rw [if_neg (by omega)]
  refine Succeeds.bind (Succeeds.mapM fun t ht => ?_) fun plain => Succeeds.draw .tag fun k =>
    (Succeeds.declare "str" _).bind fun _ => Succeeds.draw .value fun n => ?_
  · split_ifs
    · exact Succeeds.pure Encoder.null
    · exact hencode t.1 (hmem t ht) _ (by decide)
  · rw [if_neg (by decide)]
    refine Succeeds.bind (Succeeds.mapM fun t ht => ?_) fun tagged => Succeeds.bind (Succeeds.mapM fun t ht => ?_)
      fun guards => Succeeds.pure _
    · obtain ⟨tag, htag⟩ := htag t.1 (hmem t ht)
      refine Succeeds.requireReady.bind fun _ => Succeeds.bind_lift htag ?_
      exact (hencode t.1 (hmem t ht) _ (variableName_ne_empty _ n)).bind fun code => Succeeds.pure _
    · obtain ⟨k, hk⟩ := hnature t.1 (hmem t ht)
      exact succeeds_guardOf h hc hk

theorem succeeds_decodeUnion
    (hdecode : ∀ d ∈ union, ∀ p, store.Succeeds extended known types (rec.decode d p)) (p : Place) :
    store.Succeeds extended known types (decodeUnion rec (.arr union) p) := by
  refine Succeeds.bind (Succeeds.draw .integer fun n => (Succeeds.declare "long" _).bind fun _ =>
    Succeeds.pure _) fun index => Succeeds.bind_lift (a := union) rfl ?_
  refine Succeeds.bind (Succeeds.mapM fun d hd => ?_) fun cases s hs => ⟨_, s, rfl, hs⟩
  exact Succeeds.requireReady.bind fun _ => (hdecode d hd p).bind fun code => Succeeds.pure _

end Union

/-! ### The run of a generator -/

/-- A generator makes a routine for what is stored under a name, and has then met these recursive types. -/
def Runs (store : Store) (extended : Bool) (registry : Schema.Registry) (name : String) (r : Routine)
    (handled : List String) : Prop :=
  ∃ x registry' t, store.load name name registry = (.ok x, registry') ∧
    routine (.upTo (reach store x)) x ⟨store, extended⟩ (.new name registry') = (.ok r, t) ∧
      t.handled = handled

theorem remaining_nil : store.remaining [] = store.cycles.length := by
  rw [remaining, List.filter_eq_self.2]
  simp

theorem fits_start (hname : store.contains name = true) (known : String → Prop) (registry : Schema.Registry) :
    store.Fits known store.cycles.length { new name registry with ready := true } :=
  ⟨rfl, hname, fun _ ha => absurd ha List.not_mem_nil, remaining_nil.le⟩

theorem weight_lt_reach {d d' : Json} {names : Nat} (hd : d.depth ≤ store.database.depth)
    (hd' : d'.depth ≤ store.database.depth) (hnames : names ≤ store.database.length) :
    store.weight store.cycles.length names d'.depth + 1 < reach store d := by
  rw [weight, reach, Nat.max_eq_left hd]
  have hle : (store.cycles.length * (store.database.length + 1) + names) * (store.database.depth + 1) ≤
      (store.cycles.length * (store.database.length + 1) + store.database.length) * (store.database.depth + 1) :=
    Nat.mul_le_mul_right _ (by omega)
  calc (store.cycles.length * (store.database.length + 1) + names) * (store.database.depth + 1) + d'.depth + 1
      < (store.cycles.length * (store.database.length + 1) + store.database.length + 1) *
        (store.database.depth + 1) + 1 := by
        rw [Nat.add_mul _ 1, Nat.one_mul]
        omega
    _ = (store.database.length + 1) * (store.cycles.length + 1) * (store.database.depth + 1) + 1 := by ring
    _ ≤ (store.database.namedCount + store.database.length + 2) * (store.cycles.length + 2) *
        (store.database.depth + 3) :=
        Nat.succ_le_of_lt (Nat.mul_lt_mul'' (Nat.mul_lt_mul'' (by omega) (by omega)) (by omega))

section Run

variable {schemata : Schemata} {g g' registry : Schema.Registry} {name : String} {d : Json}
  (h : Store.build schemata g = (.ok store, g')) (hc : store.Consistent)
include h hc

theorem succeeds_of_madeIn (hknown : store.Knowable extended known) {context : String}
    (hcontext : store.contains context = true) {mode : Mode} {n steps : Nat} {d' : Json} {q : Place}
    (hmade : store.MadeIn extended known mode n d) (halike : d.Alike d') (hq : mode = .write → q.root ≠ "")
    (hweight : ∀ names ≤ store.database.length, store.weight types names d.depth < steps) :
    store.Succeeds extended known types ((upTo steps).make mode d' q) := by
  obtain ⟨x, p, s, t, a, hx, ha, hall⟩ := hmade
  have hrepeats := repeats h hc hknown hcontext types n mode x d' p q steps (hx.symm.trans halike) hq
    (hx.depth ▸ hweight _ within_le_length)
  intro s' hs'
  obtain ⟨b, t', hb, ht', -⟩ := (hrepeats ha).2.2 hall hs'
  exact ⟨b, t', hb, ht'⟩

variable (known) in
theorem exists_routine (hd : Json.lookup name store.database = some d)
    (hmake : ∀ mode z, z.Alike d → store.Succeeds extended known store.cycles.length
      ((upTo (reach store d)).make mode z (.of "data")))
    (registry : Schema.Registry) :
    ∃ r handled, store.Runs extended registry name r handled ∧ ∀ a ∈ handled, known a := by
  have hcontext := contains_of_lookup hd
  obtain ⟨x, registry', hx, halike⟩ := exists_load h hc hcontext registry hd
  have hreach : reach store x = reach store d := by rw [reach, reach, halike.depth]
  have hstart := fits_start hcontext known registry'
  obtain ⟨m, t, hm, ht⟩ := exists_draft ((hc.parsed hd).alike halike.symm)
    (fun mode z s hz hs => hmake mode z (hz.trans halike) hs) hstart
  refine ⟨m.complete t.helpers, t.handled, ⟨x, registry', { t with helpers := [] }, hx, ?_, rfl⟩, ht.handled⟩
  rw [hreach, routine_eq]
  exact Gen.bind_eq_ok.2 ⟨m, t, hm, rfl⟩

omit h hc in
theorem Runs.unique {r r' : Routine} {handled handled' : List String} (hr : store.Runs extended registry name r handled)
    (hr' : store.Runs extended registry name r' handled') : r = r' ∧ handled = handled' := by
  obtain ⟨x, _, t, hx, hrun, rfl⟩ := hr
  obtain ⟨x', _, t', hx', hrun', rfl⟩ := hr'
  cases hx.symm.trans hx'
  cases hrun.symm.trans hrun'
  exact ⟨rfl, rfl⟩

theorem Runs.known_of_mem {r : Routine} {handled : List String} (hr : store.Runs extended registry name r handled)
    (hknown : store.Knowable extended known) (hd : Json.lookup name store.database = some d)
    (hmade : ∀ mode, ∃ n, store.MadeIn extended known mode n d) : ∀ a ∈ handled, known a := by
  have hcontext := contains_of_lookup hd
  have hdepth : d.depth ≤ store.database.depth := Json.depth_le_of_lookup hd
  obtain ⟨r', handled', hr', hall⟩ := exists_routine known h hc hd (fun mode z hz => by
    obtain ⟨n, hmade⟩ := hmade mode
    refine succeeds_of_madeIn h hc hknown hcontext hmade hz.symm (fun _ => by decide) fun names hnames => ?_
    exact (Nat.lt_succ_self _).trans (weight_lt_reach hdepth hdepth hnames)) registry
  obtain ⟨-, rfl⟩ := hr.unique hr'
  exact hall

/-- The routine of a union, if code has been made for all its types. -/
theorem exists_union_routine (hknown : store.Knowable extended known) {union : List Json}
    (hd : Json.lookup name store.database = some (.arr union))
    (hmade : ∀ d ∈ union, ∀ mode, ∃ n, store.MadeIn extended known mode n d)
    (hnature : ∀ d ∈ union, ∃ n, store.nature? d = some n) (htag : ∀ d ∈ union, ∃ tag, tagOf d = .ok tag)
    (harrays : (union.filter isArrayType).length ≤ 1) (registry : Schema.Registry) :
    ∃ r handled, store.Runs extended registry name r handled ∧ ∀ a ∈ handled, known a := by
  have hcontext := contains_of_lookup hd
  have hdepth : (Json.arr union).depth ≤ store.database.depth := Json.depth_le_of_lookup hd
  obtain ⟨steps, hsteps⟩ : ∃ steps, reach store (.arr union) = steps + 1 :=
    Nat.exists_eq_succ_of_ne_zero (Nat.ne_of_gt ((Nat.zero_le _).trans_lt (weight_lt_reach hdepth hdepth le_rfl)))
  have hpart : ∀ mode, ∀ d ∈ union, ∀ q : Place, (mode = .write → q.root ≠ "") →
      store.Succeeds extended known store.cycles.length ((upTo steps).make mode d q) := by
    intro mode d hd q hq
    obtain ⟨n, hmade⟩ := hmade d hd mode
    refine succeeds_of_madeIn h hc hknown hcontext hmade (.refl d) hq fun names hnames => ?_
    have hd' : d.depth ≤ store.database.depth := (Nat.le_succ_of_le (Json.depth_le_of_mem_items hd)).trans hdepth
    have hlt := weight_lt_reach hdepth hd' hnames
    omega
  refine exists_routine known h hc hd (fun mode z hz => ?_) registry
  obtain rfl := hz.symm.eq_of_isObj rfl
  rw [hsteps]
  cases mode with
  | write => exact succeeds_encodeUnion h hc hnature htag harrays fun d hd q hq => hpart .write d hd q fun _ => hq
  | read => exact succeeds_decodeUnion (fun d hd q => hpart .read d hd q nofun) _

end Run

end Store

/-! ### The code of a union -/

namespace Gen

variable {σ : Setting} {s t : Generator} {α ι : Type}

theorem forall₂_of_mapM {f : ι → Gen α} {is : List ι} {as : List α} (hf : ∀ i ∈ is, Grows σ (f i))
    (h : is.mapM f σ s = (.ok as, t)) :
    s.Grows t ∧ List.Forall₂ (fun i a => ∃ s' t', f i σ s' = (.ok a, t') ∧ t'.Grows t) is as := by
  induction is generalizing s as with
  | nil =>
    cases h
    exact ⟨.refl _, .nil⟩
  | cons i is ih =>
    simp only [List.mapM_cons, bind_eq_ok, pure_eq_ok] at h
    obtain ⟨a, s₁, ha, as, s₂, has, rfl, rfl⟩ := h
    obtain ⟨hgrows, hall⟩ := ih (fun j hj => hf j (List.mem_cons_of_mem _ hj)) has
    exact ⟨(hf i List.mem_cons_self ha).trans hgrows, .cons ⟨s, s₁, ha, hgrows⟩ hall⟩

theorem forall₂_branches {ordered : List (Json × Nat)} {plain : List Encoder} {tagged : List (String × Encoder)}
    {guards : List Guard} {P : Json × Nat → Encoder → Prop} {T : Json × Nat → String × Encoder → Prop}
    {G : Json × Nat → Guard → Prop} (hplain : List.Forall₂ P ordered plain) (htagged : List.Forall₂ T ordered tagged)
    (hguards : List.Forall₂ G ordered guards) :
    List.Forall₂ (fun t b => b.index = t.2 ∧ P t b.plain ∧ T t (b.tag, b.tagged) ∧ G t b.guard) ordered
      (branches ordered plain tagged guards) := by
  induction hplain generalizing tagged guards with
  | nil => exact .nil
  | cons hp _ ih =>
    cases htagged with
    | cons ht htagged =>
      cases hguards with
      | cons hg hguards => exact .cons ⟨rfl, hp, ht, hg⟩ (ih htagged hguards)

end Gen

namespace Store

variable {store : Store} {extended : Bool} {known : String → Prop} {schemata : Schemata}
  {g g' : Schema.Registry} {union : List Json}

/-- A branch of a union at the place of a function's value, for a type at a position. -/
structure HasBranch (store : Store) (extended : Bool) (known : String → Prop) (data : String) (type : Json × Nat)
    (b : Branch Encoder) : Prop where
  index : b.index = type.2
  tag : ∃ tag, tagOf type.1 = .ok tag ∧ b.tag = tag.pasted
  guard : ∃ s t, guardOf type.1 ⟨store, extended⟩ s = (.ok b.guard, t)
  tagged : Setting.Encodes ⟨store, extended⟩ known type.1 (.of data) b.tagged
  plain : type.1 = .str "null" ∧ b.plain = .null ∨ Setting.Encodes ⟨store, extended⟩ known type.1 (.of "data") b.plain

variable (h : Store.build schemata g = (.ok store, g'))
include h

/-- The code that writes a union. -/
theorem exists_branches_of_encodes {a : Encoder}
    (ha : Setting.Encodes ⟨store, extended⟩ known (.arr union) (.of "data") a) :
    ∃ tag data bs, a = .union (.value (.of "data")) tag data bs ∧
      List.Forall₂ (store.HasBranch extended known data) (inTrialOrder union) bs := by
  obtain ⟨d, n, s, t, halike, hrun, hknown⟩ := ha
  obtain rfl := halike.eq_of_isObj rfl
  cases n with
  | zero => exact (Gen.throw_eq_ok.1 hrun).elim
  | succ n =>
    have hgrows : ∀ d p, Grows ⟨store, extended⟩ ((checked n).encode d p) :=
      (hygienic_checked (hasDot_of_contains h) n).grows .write
    have hrun : encodeBranches (.checked n) union (.of "data") (some (.value (.of "data"))) ⟨store, extended⟩ s =
        (.ok a, t) := visiting_eq_ok eq_of_checkHandled hrun
    simp only [encodeBranches] at hrun
    split_ifs at hrun with hseveral
    · rw [Gen.bind_eq_ok] at hrun
      obtain ⟨_, _, hrun, -⟩ := hrun
      exact (Gen.throw_eq_ok.1 hrun).elim
    · simp only [Gen.bind_eq_ok, Gen.pure_eq_ok] at hrun
      obtain ⟨plain, s₁, hplain, tag, s₂, htag, _, s₃, hdeclare, data, s₄, hdata, tagged, s₅, htagged, guards, s₆,
        hguards, rfl, rfl⟩ := hrun
      have hfresh : s₁.Grows s₄ := by
        cases htag
        cases hdeclare
        cases hdata
        exact kept_grows.still (Counters.le_of_le le_rfl (Nat.le_succ _) le_rfl (Nat.le_succ _) le_rfl) rfl rfl
      have hgrowsPlain : ∀ t ∈ inTrialOrder union, Grows ⟨store, extended⟩
          (if t.1.isStr "null" then encodeType (.checked n) "null" (.of "data")
            else (checked n).encode t.1 (.of "data")) := by
        intro t _
        split_ifs
        · intro _ _ _ hnull
          cases hnull
          exact .refl _
        · exact hgrows t.1 _
      have hgrowsTagged : ∀ t ∈ inTrialOrder union, Grows ⟨store, extended⟩ (do
          requireReady
          let tag ← tagOf t.1
          return (tag.pasted, ← (checked n).encode t.1 (.of data))) := by
        intro t _ r r' c hc
        simp only [Gen.bind_eq_ok, Gen.pure_eq_ok, Gen.lift_eq_ok] at hc
        obtain ⟨_, r₁, hready, tag, r₂, ⟨htag, rfl⟩, code, r₃, hcode, rfl, rfl⟩ := hc
        obtain rfl := requireReady_eq_ok hready
        exact hgrows _ _ hcode
      obtain ⟨hlast, hguards⟩ := forall₂_of_mapM (fun t _ => grows_guardOf t.1) hguards
      obtain ⟨hmiddle, htagged⟩ := forall₂_of_mapM hgrowsTagged htagged
      obtain ⟨-, hplain⟩ := forall₂_of_mapM hgrowsPlain hplain
      refine ⟨tag, data, _, rfl, (forall₂_branches hplain htagged hguards).imp ?_⟩
      rintro type b ⟨hindex, ⟨r, r', hp, hrs⟩, ⟨u, u', ht, hus⟩, ⟨w, w', hg, -⟩⟩
      simp only [Gen.bind_eq_ok, Gen.pure_eq_ok, Gen.lift_eq_ok] at ht
      obtain ⟨_, u₁, -, tag, u₂, ⟨htag, rfl⟩, code, u₃, hcode, heq, rfl⟩ := ht
      obtain ⟨hname, rfl⟩ := Prod.mk.inj heq
      have htagged : Setting.Encodes ⟨store, extended⟩ known type.1 (.of data) b.tagged :=
        ⟨type.1, n, _, _, .refl _, hcode, fun name hname => hknown name (hlast.handled (hus.handled hname))⟩
      refine ⟨hindex, ⟨tag, htag, hname⟩, ⟨w, w', hg⟩, htagged, ?_⟩
      split_ifs at hp with hnull
      · exact .inl ⟨Json.eq_str_of_isStr hnull, (Gen.pure_eq_ok.1 hp).1⟩
      · exact .inr ⟨type.1, n, r, r', .refl _, hp, fun name hname =>
          hknown name (hlast.handled (hmiddle.handled (hfresh.handled (hrs.handled hname))))⟩

/-- The code that reads a union. -/
theorem exists_cases_of_decodes {a : Decoder}
    (ha : Setting.Decodes ⟨store, extended⟩ known (.arr union) (.of "data") a) :
    ∃ index cs, a = .union (.of "data") index extended cs ∧
      List.Forall₂ (fun d c => Setting.Decodes ⟨store, extended⟩ known d (.of "data") c.2) union cs := by
  obtain ⟨d, n, s, t, halike, hrun, hknown⟩ := ha
  obtain rfl := halike.eq_of_isObj rfl
  cases n with
  | zero => exact (Gen.throw_eq_ok.1 hrun).elim
  | succ n =>
    have hgrows : ∀ d p, Grows ⟨store, extended⟩ ((checked n).decode d p) :=
      (hygienic_checked (hasDot_of_contains h) n).grows .read
    have hrun : decodeUnion (.checked n) (.arr union) (.of "data") ⟨store, extended⟩ s = (.ok a, t) :=
      visiting_eq_ok eq_of_checkHandled hrun
    simp only [decodeUnion, decodeBranches, Gen.bind_eq_ok, Gen.pure_eq_ok] at hrun
    obtain ⟨index, s₁, -, types, s₂, htypes, cs, s₃, hcs, σ, s₄, hread, rfl, rfl⟩ := hrun
    cases htypes
    cases hread
    have hgrowsCase : ∀ d ∈ union, Grows ⟨store, extended⟩ (do
        requireReady
        return (d, ← (checked n).decode d (.of "data"))) := by
      intro d _ r r' c hc
      simp only [Gen.bind_eq_ok, Gen.pure_eq_ok] at hc
      obtain ⟨_, r₁, hready, code, r₂, hcode, rfl, rfl⟩ := hc
      obtain rfl := requireReady_eq_ok hready
      exact hgrows _ _ hcode
    obtain ⟨-, hcs⟩ := forall₂_of_mapM hgrowsCase hcs
    refine ⟨index, cs, rfl, hcs.imp ?_⟩
    rintro d c ⟨r, r', hc, hrt⟩
    simp only [Gen.bind_eq_ok, Gen.pure_eq_ok] at hc
    obtain ⟨_, r₁, -, code, r₂, hcode, rfl, rfl⟩ := hc
    exact ⟨d, n, r₁, r', .refl d, hcode, fun name hname => hknown name (hrt.handled hname)⟩

end Store

end AvroCodec
