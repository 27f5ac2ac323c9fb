import AvroCodec.Proofs.Repeating

/-!
# Stores in which a name means one thing

In a consistent store no name has two different definitions, and every definition is a schema in normal
form. A name that is stored can then be loaded in every context, and what is loaded is what is stored
under it, but for the mark of a parser.
-/

namespace AvroCodec

open Json

namespace Database

variable {d : Json} {db db' : Database} {r r' : Schema.Registry}

theorem scans_of_scanItems {items : List Json} (h : scanItems items db = .ok db') :
    ∀ x ∈ items, Scans x := by
  induction items generalizing db with
  | nil => exact fun _ hx => absurd hx List.not_mem_nil
  | cons x xs ih =>
    obtain ⟨next, hx, hxs⟩ := except_bind_eq_ok.1 h
    exact List.forall_mem_cons.2 ⟨scans_of_ok hx, ih hxs⟩

theorem scans_of_scanMembers {members : Members}
    (h : scanMembers members db = .ok db') : ∀ m ∈ members, Scans m.2 := by
  induction members generalizing db with
  | nil => exact fun _ hm => absurd hm List.not_mem_nil
  | cons m rest ih =>
    obtain ⟨next, hm, hrest⟩ := except_bind_eq_ok.1 h
    exact List.forall_mem_cons.2 ⟨scans_of_ok hm, ih hrest⟩

theorem Scans.of_inside {x : Json} (h : Scans d) (hx : x.Inside d) : Scans x := by
  induction hx with
  | refl => exact h
  | item hy _ ih => exact ih (scans_of_scanItems (h []) _ hy)
  | member hm _ ih =>
    obtain ⟨entered, -, hscan⟩ := except_bind_eq_ok.1 (h [])
    exact ih (scans_of_scanMembers hscan _ hm)

theorem scanMembers_unmarkedMembers (members : Members) :
    scanMembers (unmarkedMembers members) = scanMembers members :=
  unmarkedMembers_congr (F := scanMembers) (g := fun m b db => scan m.2 db >>= b)
    (fun _ _ => rfl) (fun _ => rfl) members

theorem Scans.alike {d' : Json} (h : Scans d) (halike : d.Alike d') : Scans d' := by
  rcases alike_cases halike with rfl | ⟨ms, ms', rfl, rfl, -, -, hms⟩
  · exact h
  · obtain ⟨entered, henter, hscan⟩ := except_bind_eq_ok.1 (h [])
    rw [← scanMembers_unmarkedMembers, hms, scanMembers_unmarkedMembers] at hscan
    have hname := lookup_eq_of_unmarkedMembers hms (show "name" ≠ Schema.parsedMark by decide)
    have hfits := (stores_enter _).resolve_right fun hno => by cases henter.symm.trans (hno ms hname [])
    have hmembers := Stores.of_ok (stores_scanMembers ms') hscan
    exact scans_of_ok (except_bind_eq_ok.2 ⟨_, hfits ms' rfl [], hmembers _⟩)

end Database

theorem Json.isSome_lookup_of_mem {key : String} {x : Json} {members : Members}
    (h : (key, x) ∈ members) : (lookup key members).isSome = true := by
  induction members with
  | nil => cases h
  | cons m rest ih =>
    obtain ⟨k, y⟩ := m
    rw [lookup]
    split_ifs with hk
    · rfl
    · rcases List.mem_cons.1 h with heq | h
      · cases heq
        exact absurd rfl hk
      · exact ih h

namespace Schema

theorem parse_of_marked {members : Members} (h : (lookup parsedMark members).isSome = true)
    (r : Registry) : parse (.obj members) {} r = (.ok (.obj members), r) := by
  rw [parse, parseTop]
  simp only [Bool.or_self, Bool.false_eq_true, if_false, if_pos h]
  rfl

theorem exists_parseOpen_of_parse {d x : Json} {r t : Registry} (h : parse d {} r = (.ok x, t)) (q : Registry) :
    ∃ q', parseOpen d q = (.ok x, q') := by
  have hopen : (parseOpen d r).1 = .ok x := by rw [parseOpen, retry_eq_parse (by simp [h]), h]
  exact ⟨_, Prod.ext ((parseOpen_alike d q r).trans hopen) rfl⟩

/-- A document that is a schema in normal form, but for the mark of a parser. -/
def IsParsed (d : Json) : Prop := ∃ x, (parseOpen d.unmarked []).1 = .ok x ∧ x.Alike d

namespace IsParsed

variable {d d' x : Json}

theorem alike (h : IsParsed d) (halike : d.Alike d') : IsParsed d' := by
  obtain ⟨x, hx, hxd⟩ := h
  refine ⟨x, ?_, hxd.trans halike⟩
  rw [← hx, show d'.unmarked = d.unmarked from halike.symm]

theorem exists_parseOpen (h : IsParsed d) (r : Registry) :
    ∃ x r', parseOpen d r = (.ok x, r') ∧ x.Alike d := by
  obtain ⟨x, hx, halike⟩ := h
  have hsame : d.unmarked = d → ∃ x r', parseOpen d r = (.ok x, r') ∧ x.Alike d := by
    intro hd
    rw [hd] at hx
    exact ⟨x, _, Prod.ext ((parseOpen_alike d r []).trans hx) rfl, halike⟩
  cases d with
  | obj ms =>
    by_cases hmark : (lookup parsedMark ms).isSome = true
    · obtain ⟨r', hr'⟩ := exists_parseOpen_of_parse (parse_of_marked hmark r) r
      exact ⟨.obj ms, r', hr', .refl _⟩
    · refine hsame ?_
      have hms : unmarkedMembers ms = ms := by
        refine List.filter_eq_self.2 fun m hm => decide_eq_true ?_
        rintro rfl
        exact hmark (isSome_lookup_of_mem hm)
      rw [unmarked, hms, ite_self]
  | _ => exact hsame rfl

end IsParsed

end Schema

namespace Store

/-- What a store knows under a name: what is stored under it, and the objects that carry the name inside
of what is stored. -/
inductive Defines (store : Store) : String → Json → Prop
  | stored {name : String} {d : Json} (h : lookup name store.database = some d) :
      Defines store name d
  | inside {name : String} {d : Json} {e : String × Json}
      (h : lookup name store.database = some d) (he : e ∈ d.named) : Defines store e.1 e.2

/-- No name has two different definitions, and what is stored are parsed schemas. -/
structure Consistent (store : Store) : Prop where
  unique : ∀ {name d d'}, store.Defines name d → store.Defines name d' → d.Alike d'
  parsed : ∀ {name d}, lookup name store.database = some d → Schema.IsParsed d

variable {schemata : Schemata} {store : Store} {r r' q q₁ : Schema.Registry} {d x : Json}
  {context name : String}

def definitions (store : Store) : List (String × Json) :=
  store.database ++ store.database.flatMap fun e => e.2.named

theorem Defines.mem_definitions (h : store.Defines name d) : (name, d) ∈ store.definitions := by
  cases h with
  | stored h => exact List.mem_append_left _ (mem_of_lookup h)
  | inside h he => exact List.mem_append_right _ (List.mem_flatMap.2 ⟨_, mem_of_lookup h, he⟩)

def isConsistent (store : Store) : Bool :=
  decide (∀ e ∈ store.definitions, ∀ e' ∈ store.definitions, e.1 = e'.1 →
    e.2.unmarked = e'.2.unmarked) &&
  decide (∀ e ∈ store.database, (Schema.parseOpen e.2.unmarked []).1.toOption.map unmarked =
    some e.2.unmarked)

theorem consistent_of_isConsistent (h : store.isConsistent = true) : store.Consistent := by
  rw [isConsistent, Bool.and_eq_true, decide_eq_true_eq, decide_eq_true_eq] at h
  obtain ⟨hunique, hparsed⟩ := h
  refine ⟨fun h h' => hunique _ h.mem_definitions _ h'.mem_definitions rfl, fun {name d} h => ?_⟩
  obtain ⟨x, hx, halike⟩ := Option.map_eq_some_iff.1 (hparsed _ (mem_of_lookup h))
  cases ho : (Schema.parseOpen d.unmarked []).1 with
  | error e => rw [ho] at hx; cases hx
  | ok y =>
    rw [ho] at hx
    cases hx
    exact ⟨x, ho, halike⟩

theorem scans_of_lookup (h : Store.build schemata r = (.ok store, r'))
    (hd : lookup name store.database = some d) : Database.Scans d := by
  obtain ⟨r₁, hdb⟩ := gather_of_build h
  obtain ⟨e, he, hb⟩ := Database.lookup_gather hdb hd
  obtain ⟨hscans, -⟩ := (Database.gather_eq hdb).2 e he
  cases hb with
  | itself =>
    rw [Schema.normal_normal]
    exact hscans
  | inside hnamed => exact hscans.of_inside (inside_of_named hnamed)

theorem Defines.contains (h : Store.build schemata r = (.ok store, r'))
    (hd : store.Defines name d) : store.contains name = true := by
  cases hd with
  | stored hd => exact Option.isSome_iff_exists.2 ⟨d, hd⟩
  | @inside _ outer e hd he =>
    obtain ⟨r₁, hdb⟩ := gather_of_build h
    obtain ⟨entry, hentry, hb⟩ := Database.lookup_gather hdb hd
    refine Database.isSome_lookup_of_brought hdb hentry (x := e.2) (List.mem_append_right _ ?_)
    cases hb with
    | itself => rwa [Schema.normal_normal] at he
    | inside hnamed => exact named_trans hnamed he

theorem exists_localDatabase (h : Store.build schemata r = (.ok store, r'))
    (hd : lookup context store.database = some d) (hx : Schema.parseOpen d q = (.ok x, q₁)) (halike : x.Alike d) :
    ∃ q', store.localDatabase context q = (.ok (Database.store [(context, x)] x.named), q') := by
  obtain ⟨q₂, hagain⟩ := Schema.exists_parse_again hx
  have hscan := ((scans_of_lookup h hd).alike halike.symm) (put context x [])
  refine ⟨q₂, ?_⟩
  rw [localDatabase, hd]
  change Database.gather [(context, d)] q = _
  rw [Database.gather, List.foldlM_cons, bind_eq_ok]
  refine ⟨_, q₂, ?_, rfl⟩
  rw [Database.add, bind_eq_ok]
  refine ⟨x, q₁, hx, ?_⟩
  rw [if_pos (hasDot_of_contains h (contains_of_lookup hd)), bind_eq_ok]
  exact ⟨x, q₂, hagain, bind_eq_ok.2 ⟨put context x [], q₂, rfl, lift_eq_ok.2 ⟨hscan, rfl⟩⟩⟩

theorem context_ne_empty (h : Store.build schemata r = (.ok store, r'))
    (hcontext : store.contains context = true) : context ≠ "" := by
  rintro rfl
  exact absurd (hasDot_of_contains h hcontext) (by decide)

theorem load_eq (h : Store.build schemata r = (.ok store, r')) (hd : lookup context store.database = some d)
    (hx : Schema.parseOpen d q = (.ok x, q₁)) (halike : x.Alike d) (name : String) :
    ∃ q', store.load name context q = match lookup name (Database.store [(context, x)] x.named) with
      | some y => (.ok y, q')
      | none => (store.loadGlobal name, q') := by
  obtain ⟨q', hlocal⟩ := exists_localDatabase h hd hx halike
  refine ⟨q', ?_⟩
  rw [load, if_neg (context_ne_empty h (contains_of_lookup hd)), Action.bind_of_ok hlocal]
  cases lookup name (Database.store [(context, x)] x.named) with
  | some y => rfl
  | none => cases store.loadGlobal name <;> rfl

section Load

variable (h : Store.build schemata r = (.ok store, r')) (hc : store.Consistent) {name context : String}
  (hcontext : store.contains context = true) (q : Schema.Registry)
include h hc hcontext

theorem load_cases (name : String) :
    (∃ x y q', store.load name context q = (.ok x, q') ∧ store.Defines name y ∧ x.Alike y) ∨
      ∃ q', store.load name context q = (store.loadGlobal name, q') := by
  obtain ⟨d, hd⟩ := Option.isSome_iff_exists.1 hcontext
  obtain ⟨x, q₁, hx, halike⟩ := (hc.parsed hd).exists_parseOpen q
  obtain ⟨q', hload⟩ := load_eq h hd hx halike name
  rcases Database.lookup_store x.named [(context, x)] name with ⟨y, hy, hlookup⟩ | ⟨-, hlookup⟩
  · rw [hlookup] at hload
    obtain ⟨⟨_, e⟩, he, rfl, halike'⟩ := halike.exists_named hy
    exact .inl ⟨y, e, q', hload, .inside hd he, halike'.symm⟩
  · by_cases hname : name = context
    · subst hname
      rw [lookup, if_pos rfl] at hlookup
      rw [hlookup] at hload
      exact .inl ⟨x, d, q', hload, .stored hd, halike⟩
    · rw [lookup, if_neg (Ne.symm hname)] at hlookup
      rw [hlookup] at hload
      exact .inr ⟨q', hload⟩

/-- A name can be loaded in every context, and it means the same everywhere. -/
theorem exists_load {d : Json} (hd : lookup name store.database = some d) :
    ∃ x q', store.load name context q = (.ok x, q') ∧ x.Alike d := by
  rcases load_cases h hc hcontext q name with ⟨x, y, q', hx, hy, halike⟩ | ⟨q', hload⟩
  · exact ⟨x, q', hx, halike.trans (hc.unique hy (.stored hd))⟩
  · rw [loadGlobal, hd] at hload
    exact ⟨d, q', hload, .refl d⟩

theorem load_of_not_contains (hname : store.contains name = false) :
    (store.load name context q).1 = .error (.notStored name) := by
  rcases load_cases h hc hcontext q name with ⟨x, y, q', hx, hy, -⟩ | ⟨q', hload⟩
  · rw [hy.contains h] at hname
    cases hname
  · rw [contains, Option.isSome_eq_false_iff, Option.isNone_iff_eq_none] at hname
    rw [hload, loadGlobal, hname]

end Load

end Store

end AvroCodec
