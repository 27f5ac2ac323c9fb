import AvroCodec.Proofs.Context
import Mathlib.Data.List.Chain

/-!
# Generating code ends

A generator goes into the types inside a schema, into the definitions that it refers to, and into the
routines of the recursive types that it meets. If there is a recursive type on every cycle of references,
then it comes to an end: with every routine there is a recursive type less that has none, names that stand
for no recursive type can be followed only so many times, and types are nested only so deep.
-/

namespace AvroCodec

open Code Json Gen Generator

namespace Json

/-- The name that a document stands for another by. -/
def referred : Json → List String
  | .str name => [name]
  | .obj members =>
    match lookup "type" members with
    | some (.str name) => [name]
    | _ => []
  | _ => []

theorem Refers.mem_referred {d : Json} {name : String} (h : d.Refers name) : name ∈ d.referred := by
  rcases h with rfl | h
  · exact List.mem_cons_self
  · cases d with
    | obj members =>
      rw [get?] at h
      rw [referred, h]
      exact List.mem_cons_self
    | _ => cases h

/-- The names that a document mentions, down to a depth. -/
def mentioned : Nat → Json → List String
  | 0, _ => []
  | depth + 1, d => d.referred ++ d.parts.flatMap (mentioned depth)

theorem Mentions.mem_mentioned {d : Json} {name : String} {depth : Nat} (h : d.Mentions name)
    (hdepth : d.depth < depth) : name ∈ d.mentioned depth := by
  induction h generalizing depth with
  | here h =>
    cases depth with
    | zero => exact absurd hdepth (Nat.not_lt_zero _)
    | succ depth => exact List.mem_append_left _ h.mem_referred
  | inside hx _ ih =>
    cases depth with
    | zero => exact absurd hdepth (Nat.not_lt_zero _)
    | succ depth =>
      have hlt := depth_lt_of_mem_parts hx
      exact List.mem_append_right _ (List.mem_flatMap.2 ⟨_, hx, ih (by omega)⟩)

end Json

namespace Store

variable {store : Store}

variable {k steps types : Nat} {d x d' y : Json} {name : String}

/-- A name leads to the names that its definition mentions. -/
def Leads (store : Store) (a b : String) : Prop :=
  ∃ d, lookup a store.database = some d ∧ d.Mentions b ∧ store.contains b = true

/-- There is a recursive type on every cycle of references. -/
def Guarded (store : Store) : Prop :=
  ∀ first rest, List.IsChain store.Leads (first :: (rest ++ [first])) →
    ∃ name ∈ first :: rest, store.isCycleStarting name = true

/-- It is enough to find numbers for the names that stand for no recursive type which fall along the
references between them. -/
theorem guarded_of_rank (rank : String → Nat)
    (h : ∀ e ∈ store.database, store.isCycleStarting e.1 = false →
      ∀ b ∈ e.2.mentioned (e.2.depth + 1), store.contains b = true →
        store.isCycleStarting b = false → rank b < rank e.1) : store.Guarded := by
  have hfall : ∀ a b, store.Leads a b → store.isCycleStarting a = false →
      store.isCycleStarting b = false → rank b < rank a := by
    rintro a b ⟨d, hd, hb, hstored⟩ ha hflag
    exact h (a, d) (mem_of_lookup hd) ha b (hb.mem_mentioned (Nat.lt_succ_self _)) hstored hflag
  intro first rest hchain
  by_contra hnone
  push Not at hnone
  have hlast : ∀ (rest : List String) (a last : String), List.IsChain store.Leads (a :: (rest ++ [last])) →
      (∀ name ∈ a :: (rest ++ [last]), store.isCycleStarting name = false) → rank last < rank a := by
    intro rest
    induction rest with
    | nil =>
      intro a last hchain hflag
      exact hfall a last (List.isChain_pair.1 hchain) (hflag a (by simp)) (hflag last (by simp))
    | cons b rest ih =>
      intro a last hchain hflag
      obtain ⟨hab, hrest⟩ := List.isChain_cons_cons.1 hchain
      have hlt := ih b last hrest fun name hname => hflag name (List.mem_cons_of_mem _ hname)
      exact Nat.lt_trans hlt (hfall a b hab (hflag a (by simp)) (hflag b (by simp)))
  refine absurd (hlast rest first first hchain fun name hname => ?_) (Nat.lt_irrefl _)
  have hmem : name ∈ first :: rest := by
    rcases List.mem_cons.1 hname with rfl | hname
    · exact List.mem_cons_self
    · rcases List.mem_append.1 hname with hname | hname
      · exact List.mem_cons_of_mem _ hname
      · rw [List.mem_singleton.1 hname]
        exact List.mem_cons_self
  rw [← Bool.not_eq_true]
  exact hnone name hmem

/-- Names that stand for no recursive type can be followed at most so many times. -/
def Shallow (store : Store) : Nat → Json → Prop
  | 0, d => ∀ name, d.Mentions name → store.contains name = true → store.isCycleStarting name = true
  | k + 1, d => ∀ name x, d.Mentions name → lookup name store.database = some x →
      store.isCycleStarting name = false → Shallow store k x

theorem Shallow.of_mentions (h : store.Shallow k d)
    (hd : ∀ name, d'.Mentions name → d.Mentions name) : store.Shallow k d' := by
  cases k with
  | zero => exact fun name hname => h name (hd name hname)
  | succ k => exact fun name x hname => h name x (hd name hname)

theorem Shallow.alike (h : store.Shallow k d) (halike : d.Alike d') : store.Shallow k d' :=
  h.of_mentions fun _ hname => halike.symm.mentions hname

theorem Shallow.part (h : store.Shallow k d) (hx : x ∈ d.parts) :
    store.Shallow k x :=
  h.of_mentions fun _ hname => .inside hx hname

theorem exists_chain_of_not_shallow (h : ¬store.Shallow k d) :
    ∃ first rest, (first :: rest).length = k + 1 ∧ d.Mentions first ∧
      List.IsChain store.Leads (first :: rest) ∧
      ∀ name ∈ first :: rest, store.contains name = true ∧ store.isCycleStarting name = false := by
  induction k generalizing d with
  | zero =>
    simp only [Shallow, not_forall, Bool.not_eq_true] at h
    obtain ⟨name, hname, hstored, hflag⟩ := h
    refine ⟨name, [], rfl, hname, .singleton _, fun n hn => ?_⟩
    rw [List.mem_singleton.1 hn]
    exact ⟨hstored, hflag⟩
  | succ k ih =>
    simp only [Shallow, not_forall] at h
    obtain ⟨name, x, hname, hx, hflag, hnot⟩ := h
    obtain ⟨first, rest, hlength, hfirst, hchain, hall⟩ := ih hnot
    have hlead : store.Leads name first := ⟨x, hx, hfirst, (hall first List.mem_cons_self).1⟩
    refine ⟨name, first :: rest, by rw [List.length_cons, hlength], hname, .cons_cons hlead hchain, ?_⟩
    intro n hn
    rcases List.mem_cons.1 hn with rfl | hn
    · exact ⟨Option.isSome_iff_exists.2 ⟨x, hx⟩, hflag⟩
    · exact hall n hn

theorem nodup_of_chain (hg : store.Guarded) {names : List String} (hchain : List.IsChain store.Leads names)
    (hflag : ∀ name ∈ names, store.isCycleStarting name = false) : names.Nodup := by
  induction names with
  | nil => exact List.nodup_nil
  | cons name rest ih =>
    refine List.nodup_cons.2 ⟨fun hmem => ?_, ih hchain.tail fun n hn => hflag n (List.mem_cons_of_mem _ hn)⟩
    obtain ⟨before, after, rfl⟩ := List.append_of_mem hmem
    have hcycle : List.IsChain store.Leads (name :: (before ++ [name])) := by
      have hsplit : List.IsChain store.Leads ((name :: (before ++ [name])) ++ after) := by
        simpa using hchain
      exact hsplit.left_of_append
    obtain ⟨n, hn, hn'⟩ := hg name before hcycle
    have hfalse := hflag n (by
      rcases List.mem_cons.1 hn with rfl | hn
      · exact List.mem_cons_self
      · exact List.mem_cons_of_mem _ (List.mem_append_left _ hn))
    rw [hn'] at hfalse
    cases hfalse

theorem shallow_length (hg : store.Guarded) (d : Json) : store.Shallow store.database.length d := by
  by_contra h
  obtain ⟨first, rest, hlength, -, hchain, hall⟩ := exists_chain_of_not_shallow h
  have hnodup := nodup_of_chain hg hchain fun n hn => (hall n hn).2
  have hsubset : first :: rest ⊆ store.database.map Prod.fst := by
    intro n hn
    obtain ⟨x, hx⟩ := Option.isSome_iff_exists.1 (hall n hn).1
    exact List.mem_map.2 ⟨_, mem_of_lookup hx, rfl⟩
  have hle := hnodup.length_le_of_subset hsubset
  rw [List.length_map, hlength] at hle
  omega

/-- The number of recursive types without a routine. -/
def remaining (store : Store) (handled : List String) : Nat :=
  (store.cycles.filter fun name => !handled.contains name).length

theorem remaining_append {handled : List String}
    (hflag : store.isCycleStarting name = true) (hnew : name ∉ handled) :
    store.remaining (handled ++ [name]) < store.remaining handled := by
  have hfilter : (store.cycles.filter fun n => !(handled ++ [name]).contains n) =
      (store.cycles.filter fun n => !handled.contains n).filter fun n => n ≠ name := by
    rw [List.filter_filter]
    refine List.filter_congr fun n _ => ?_
    simp [List.contains_eq_mem, Bool.and_comm]
  rw [remaining, hfilter, remaining]
  refine List.length_filter_lt_length_iff_exists.2 ⟨name, List.mem_filter.2 ⟨?_, ?_⟩, by simp⟩
  · exact List.contains_iff_mem.1 hflag
  · simpa using hnew

/-- A bound for the steps inside one another, given how many recursive types have no routine yet, how many
names can be followed and how deep types are nested. -/
def weight (store : Store) (types names depth : Nat) : Nat :=
  (types * (store.database.length + 1) + names) * (store.database.depth + 1) + depth

/-- Every recursive type has been begun at most once. -/
def Once (store : Store) (handled : List String) : Prop :=
  handled.Nodup ∧ ∀ name ∈ handled, store.isCycleStarting name = true

/-- Two runs that come to an end, with so many recursive types left that have no routine. -/
def ending (store : Store) (types : Nat) : Parallel Still where
  terms :=
    { first := fun _ _ => False
      second := fun _ _ => False
      both := fun e s e' _ => e.family = e'.family ∧ e ≠ .endless ∧ store.Once s.handled }
  contexts c c' := store.contains c = true ∧ store.contains c' = true
  line _ := True
  held _ handled _ := store.Once handled ∧ store.remaining handled ≤ types
  met _ _ := True
  guard _ := True
  encoder _ _ _ _ := True
  decoder _ _ _ _ := True

theorem ending_lenient (types : Nat) : (store.ending types).Lenient :=
  fun hs h he => ⟨h, he, hs.held.1⟩

def Reaches (store : Store) (types steps : Nat) (d : Json) : Prop :=
  ∃ k ≤ store.database.length, store.Shallow k d ∧ store.weight types k d.depth < steps

theorem Reaches.part (h : store.Reaches types (steps + 1) d) (hx : x ∈ d.parts) : store.Reaches types steps x := by
  obtain ⟨k, hk, hshallow, hweight⟩ := h
  have hdepth := depth_lt_of_mem_parts hx
  refine ⟨k, hk, hshallow.part hx, ?_⟩
  unfold weight at hweight ⊢
  omega

theorem Reaches.load (h : store.Reaches types (steps + 1) d) (hname : d.Refers name)
    (hy : lookup name store.database = some y) (hflag : store.isCycleStarting name = false)
    (halike : y.Alike x) : store.Reaches types steps x := by
  obtain ⟨k, hk, hshallow, hweight⟩ := h
  cases k with
  | zero =>
    have hflag' := hshallow name (.here hname) (Option.isSome_iff_exists.2 ⟨y, hy⟩)
    rw [hflag] at hflag'
    cases hflag'
  | succ k =>
    have hdepth : x.depth ≤ store.database.depth := halike.depth ▸ depth_le_of_lookup hy
    refine ⟨k, Nat.le_of_succ_le hk, (hshallow name y (.here hname) hy hflag).alike halike, ?_⟩
    unfold weight at hweight ⊢
    rw [← Nat.add_assoc, Nat.add_mul _ 1, Nat.one_mul] at hweight
    omega

theorem Reaches.routine (hg : store.Guarded) (h : store.Reaches (types + 1) (steps + 1) d)
    (hy : lookup name store.database = some y) (halike : y.Alike x) : store.Reaches types steps x := by
  obtain ⟨k, hk, hshallow, hweight⟩ := h
  have hdepth : x.depth ≤ store.database.depth := halike.depth ▸ depth_le_of_lookup hy
  refine ⟨store.database.length, Nat.le_refl _, shallow_length hg x, ?_⟩
  unfold weight at hweight ⊢
  have hle : (types * (store.database.length + 1) + store.database.length + 1) *
      (store.database.depth + 1) ≤
      ((types + 1) * (store.database.length + 1) + k) * (store.database.depth + 1) := by
    refine Nat.mul_le_mul_right _ ?_
    rw [Nat.add_mul, Nat.one_mul]
    omega
  rw [Nat.add_mul _ 1, Nat.one_mul] at hle
  omega

/-- What is stored are objects and unions. -/
def Structured (store : Store) : Prop :=
  ∀ name d, lookup name store.database = some d → d.isObj = true ∨ d.isArr = true

section Ending

variable {schemata : Schemata} {r r' : Schema.Registry} {extended : Bool}
  (h : Store.build schemata r = (.ok store, r')) (hc : store.Consistent)

variable {d : Json} {name : String} {steps types : Nat}
include h hc

/-- A guard is found after following one name at most. -/
theorem follows_guardOf_ending (hs : store.Structured) (types : Nat) (x : Json) :
    (store.ending types).Follows ⟨store, extended⟩ .still (guardOf x) (guardOf x) fun _ g g' =>
      g = g' ∧ True := by
  refine Parallel.follows_guardOf (R := store.ending types)
    (G := fun bound x => 2 ≤ bound ∨ 1 ≤ bound ∧ ∀ s, x ≠ .str s) (ending_lenient types) ?_
    (.inl (Nat.le_add_left 2 _))
  refine
    { null := trivial
      value := fun _ => trivial
      object := fun _ _ => trivial
      load := fun {_ bound name} hbound _ => ?_
      exhausted := fun h _ => ?_ }
  · refine (follows_load h hc (ending_lenient types) (fun h => h) name).imp ?_
    rintro _ x y - ⟨hxy, -, d, hd, halike⟩
    refine ⟨hxy, .inr ⟨?_, ?_⟩⟩
    · rcases hbound with hbound | hbound
      · omega
      · exact absurd rfl (hbound.2 name)
    · rintro s rfl
      rcases alike_cases halike with rfl | ⟨ms, ms', -, hms, -⟩
      · exact absurd (hs name _ hd) (by simp [isObj, isArr])
      · cases hms
  · omega

/-- Making the routine of a recursive type ends if generating code with one recursive type less does. -/
theorem follows_meet_ending (hg : store.Guarded) {rec rec' : Recursion} (hd : store.Reaches types (steps + 1) d)
    (hflag : store.isCycleStarting name = true)
    (hm : ∀ types, (store.ending types).Matches ⟨store, extended⟩ (store.Reaches types steps) rec rec') :
    (store.ending types).Follows ⟨store, extended⟩ .still (meet rec name) (meet rec' name)
      fun _ _ _ => True := by
  cases types with
  | zero =>
    refine Parallel.follows_meet (fun _ _ _ => False) (fun _ => True) (fun _ _ => trivial) ?_
      (fun _ h => h.elim) fun _ _ h => h.elim
    intro handled _ hheld hnew
    have hlt := remaining_append hflag hnew
    have hle := hheld.2
    omega
  | succ types =>
    refine Parallel.follows_meet (store.ending types).held (store.Reaches types steps)
      (fun _ _ => trivial) ?_ (fun _ _ => ?_) ?_
    · intro handled _ hheld hnew
      have hlt := remaining_append hflag hnew
      have hle := hheld.2
      refine ⟨.still, le_rfl, ⟨?_, ?_⟩, by omega⟩
      · refine List.nodup_append.2 ⟨hheld.1.1, List.nodup_singleton _, ?_⟩
        rintro a ha b hb rfl
        exact hnew (List.mem_singleton.1 hb ▸ ha)
      · intro n hn
        rcases List.mem_append.1 hn with hn | hn
        · exact hheld.1.2 n hn
        · rw [List.mem_singleton.1 hn]
          exact hflag
    · refine (follows_load h hc (ending_lenient types) (fun h => h) name).bind ?_
      rintro _ x y - ⟨hxy, -, e, he, halike⟩
      refine Parallel.follows_draft (hm types) (fun _ => id) (fun _ => id) (fun hx => hx) fun q q' => ?_
      refine (outcomes_parseOpen ((hc.parsed he).alike halike) hxy q q').imp fun x' y' h' => ?_
      exact ⟨h'.1, hd.routine hg he (halike.trans h'.2)⟩
    · intro _ m handled helpers _ _ hheld
      exact ⟨⟨hheld.1, Nat.le_succ_of_le hheld.2⟩, trivial⟩

/-- Two runs with enough steps do the same, and neither needs more. -/
theorem matches_ending (hs : store.Structured) (hg : store.Guarded) {n m : Nat} (hnm : n ≤ m) :
    (store.ending types).Matches ⟨store, extended⟩ (store.Reaches types n) (.upTo n) (.upTo m) := by
  induction n generalizing types m with
  | zero =>
    constructor
    · rintro _ d _ _ ⟨k, -, -, hweight⟩
      exact absurd hweight (Nat.not_lt_zero _)
    · rintro _ d _ _ ⟨k, -, -, hweight⟩
      exact absurd hweight (Nat.not_lt_zero _)
  | succ n ih =>
    obtain ⟨m, rfl⟩ : ∃ m', m = m' + 1 := ⟨m - 1, by omega⟩
    have ih' : ∀ types, (store.ending types).Matches ⟨store, extended⟩ (store.Reaches types n)
        (.upTo n) (.upTo m) := fun types => ih (by omega)
    rw [Recursion.upTo_succ, Recursion.upTo_succ]
    refine Parallel.Matches.next (store.Reaches types n) ?_ ?_ ?_
    · refine
        { lenient := ending_lenient types
          contexts := fun hname => ⟨hname, hname⟩
          dotted := hasDot_of_contains h
          parts := fun hd hx => hd.part hx
          load := fun {_ d name} hd hname _ => ?_
          meet := fun hd _ hflag => follows_meet_ending h hc hg hd hflag ih'
          guard := fun _ => follows_guardOf_ending h hc hs types _
          line := fun _ => trivial
          inner := ih' types }
      refine (follows_load h hc (ending_lenient types) (fun h => h) name).imp ?_
      rintro _ x y - ⟨hxy, hx, e, he, halike⟩
      exact ⟨hxy, hx, fun hflag => hd.load hname he hflag halike⟩
    · constructor <;> intros <;> trivial
    · constructor <;> intros <;> trivial

omit h hc in
theorem reaches_of_lookup (hg : store.Guarded) {x : Json}
    (hd : lookup name store.database = some d) (halike : d.Alike x) :
    store.Reaches store.cycles.length (reach store d) x := by
  have hdepth : d.depth ≤ store.database.depth := depth_le_of_lookup hd
  refine ⟨store.database.length, Nat.le_refl _, shallow_length hg x, ?_⟩
  rw [← halike.depth, weight, reach, Nat.max_eq_left hdepth]
  calc (store.cycles.length * (store.database.length + 1) + store.database.length) *
        (store.database.depth + 1) + d.depth
      < (store.cycles.length * (store.database.length + 1) + store.database.length + 1) *
        (store.database.depth + 1) := by
        rw [Nat.add_mul _ 1, Nat.one_mul]
        omega
    _ = (store.database.length + 1) * (store.cycles.length + 1) * (store.database.depth + 1) := by
        ring
    _ ≤ (store.database.namedCount + store.database.length + 2) * (store.cycles.length + 2) *
        (store.database.depth + 3) :=
        Nat.mul_le_mul (Nat.mul_le_mul (by omega) (by omega)) (by omega)

theorem compares_routine_ending (extended : Bool) (hs : store.Structured) (hg : store.Guarded)
    (hd : lookup name store.database = some d) (hsteps : reach store d ≤ steps) :
    Compares (store.ending store.cycles.length).terms ((store.ending store.cycles.length).Aligned .still)
      (routine (.upTo (reach store d)) d ⟨store, extended⟩)
      (routine (.upTo steps) d ⟨store, extended⟩) fun a t b t' =>
        a = b ∧ t.core = t'.core ∧ store.Once t.handled := by
  refine (Parallel.compares_routine (Parallel.follows_draft (X := store.Reaches _ _)
    (matches_ending h hc hs hg hsteps) (fun _ => id) (fun _ => id) (fun hx => hx) fun q q' => ?_)).mono
    (fun _ _ h => h) ?_
  · refine (outcomes_parseOpen (hc.parsed hd) (.refl d) q q').imp fun x y hxy => ⟨hxy.1, ?_⟩
    exact reaches_of_lookup hg hd hxy.2
  · rintro a t b t' ⟨hab, hcore, -, _, _, _, -, -, -, hheld⟩
    exact ⟨hab, hcore, hheld.1⟩

end Ending

end Store

namespace Gen

theorem renderRoutine_run (d : Json) (σ : Setting) (s : Generator) : renderRoutine d σ s =
    match routine (.upTo (reach σ.store d)) d σ s with
    | (.ok a, t) => (.ok a.render, t)
    | (.error e, t) => (.error e, t) := by
  change (routine (.upTo (reach σ.store d)) d σ >>= fun a => pure a.render :
    Action Generator String) s = _
  rw [Action.bind_run]
  rcases routine (.upTo (reach σ.store d)) d σ s with ⟨e | a, t⟩ <;> rfl

end Gen

/-- Generating the routine of a schema of the store ends, and the routine of a recursive type is made at
most once. More steps would not change what comes out. -/
theorem generation_ends {schemata : Schemata} {store : Store} {r r' : Schema.Registry}
    (h : Store.build schemata r = (.ok store, r')) (hc : store.Consistent) (hs : store.Structured)
    (hg : store.Guarded) (extended : Bool) {identifier name : String} {d : Json}
    (hid : store.contains identifier = true) (hd : lookup name store.database = some d)
    (registry : Schema.Registry) :
    (renderRoutine d ⟨store, extended⟩ (.new identifier registry)).1 ≠ .error .endless ∧
      store.Once (renderRoutine d ⟨store, extended⟩ (.new identifier registry)).2.handled ∧
      ∀ steps, reach store d ≤ steps →
        SameCode (routine (.upTo (reach store d)) d ⟨store, extended⟩
            (.new identifier registry))
          (routine (.upTo steps) d ⟨store, extended⟩ (.new identifier registry)) := by
  have hstart : (store.ending store.cycles.length).Aligned .still (.new identifier registry)
      (.new identifier registry) := by
    refine ⟨⟨hid, hid⟩, rfl, fun _ h => absurd h List.not_mem_nil, ⟨List.nodup_nil, ?_⟩, ?_⟩
    · exact fun _ h => absurd h List.not_mem_nil
    · exact List.length_filter_le ..
  have hrun := fun steps (hsteps : reach store d ≤ steps) =>
    Store.compares_routine_ending h hc extended hs hg hd hsteps _ _ hstart
  refine ⟨?_, ?_, fun steps hsteps => ?_⟩
  · have hself := hrun _ (Nat.le_refl _)
    rw [renderRoutine_run]
    rcases ho : routine (.upTo (reach store d)) d ⟨store, extended⟩
      (.new identifier registry) with ⟨e | a, t⟩ <;> simp only [ho] at hself
    · obtain ⟨-, he, -⟩ := (hself.resolve_left id).resolve_left id
      exact fun heq => he (Except.error.inj heq)
    · exact fun heq => by cases heq
  · have hself := hrun _ (Nat.le_refl _)
    rw [renderRoutine_run]
    rcases ho : routine (.upTo (reach store d)) d ⟨store, extended⟩
      (.new identifier registry) with ⟨e | a, t⟩ <;> simp only [ho] at hself
    · exact ((hself.resolve_left id).resolve_left id).2.2
    · exact hself.2.2
  · have hmore := hrun steps hsteps
    rcases ho : routine (.upTo (reach store d)) d ⟨store, extended⟩
        (.new identifier registry) with ⟨e | a, t⟩ <;>
      rcases ho' : routine (.upTo steps) d ⟨store, extended⟩ (.new identifier registry)
        with ⟨e' | b, t'⟩ <;> simp only [ho, ho'] at hmore
    · exact ((hmore.resolve_left id).resolve_left id).1
    · exact hmore
    · exact hmore
    · exact ⟨hmore.1, hmore.2.1⟩

def chainSchemata : Schemata :=
  [("net.chain", .obj [("type", .str "record"), ("name", .str "chain"), ("namespace", .str "net"),
      ("fields", .arr [.field "heads" (.obj [("type", .str "array"),
        ("items", .str "link")])])]),
    ("net.link", .obj [("type", .str "record"), ("name", .str "link"), ("namespace", .str "net"),
      ("fields", .arr [.field "value" (.str "int"),
        .field "next" (.arr [.str "null", .str "link"])])])]

theorem generation_ends_chain : ∃ store registry d,
    Store.build chainSchemata [] = (.ok store, registry) ∧ store.Consistent ∧ store.Structured ∧
    store.Guarded ∧ store.contains "net.link" = true ∧
    lookup "net.chain" store.database = some d ∧ store.cycles = ["net.link"] ∧
    (renderRoutine d ⟨store, false⟩ (.new "net.link" registry)).1 ≠ .error .endless ∧
    store.Once (renderRoutine d ⟨store, false⟩ (.new "net.link" registry)).2.handled := by
  obtain ⟨store, registry, hstore, hcheck, hstructured, hguarded, hlink, hchain, hcycles⟩ :=
    Codec.exists_store chainSchemata (fun store =>
      store.isConsistent = true ∧
      (∀ e ∈ store.database, e.2.isObj = true ∨ e.2.isArr = true) ∧
      (∀ e ∈ store.database, store.isCycleStarting e.1 = false →
        ∀ b ∈ e.2.mentioned (e.2.depth + 1), store.contains b = true →
          store.isCycleStarting b = false → 0 < 0) ∧
      store.contains "net.link" = true ∧ (lookup "net.chain" store.database).isSome = true ∧
      store.cycles = ["net.link"]) (by decide +kernel)
  have hc := Store.consistent_of_isConsistent hcheck
  have hs : store.Structured := fun name d hd => hstructured (name, d) (mem_of_lookup hd)
  have hg := Store.guarded_of_rank (fun _ => 0) hguarded
  obtain ⟨d, hd⟩ := Option.isSome_iff_exists.1 hchain
  have hends := generation_ends hstore hc hs hg false hlink hd registry
  exact ⟨store, registry, d, hstore, hc, hs, hg, hlink, hd, hcycles, hends.1, hends.2.1⟩

end AvroCodec
