import AvroCodec.Proofs.RoundTrip
import AvroCodec.Proofs.Walk
import Mathlib.Logic.Relation

/-!
# Cycles that are found

The walk that looks for cycles goes on from the type of a field to the definition it refers to. A name
among the branches of a union is only compared with the names on the way. So a cycle of references is
found if all of them are types of fields, except that one may be a branch of a union.
-/

namespace AvroCodec

open Json

namespace Trail

variable {db : Database} {n : Nat} {t t' : Trail} {d e : Json} {members : Members} {a b name : String}
  {stops : List Json}

theorem foldlM_grows {next : Trail → Json → Except SchemaError Trail} (hnext : ∀ t t' d, next t d = .ok t' → t.Grows t')
    (h : stops.foldlM next t = .ok t') : t.Grows t' := by
  induction stops generalizing t with
  | nil =>
    cases h
    exact .refl _
  | cons d stops ih =>
    rw [List.foldlM_cons, except_bind_eq_ok] at h
    obtain ⟨u, hu, h⟩ := h
    exact (hnext _ _ _ hu).trans (ih h)

theorem follow_grows (h : follow db n t d = .ok t') : t.Grows t' := by
  induction n generalizing t t' d with
  | zero => cases h
  | succ n ih =>
    have hacts := acts_follow db n t d
    rw [h] at hacts
    cases hacts with
    | stops => exact .refl t
    | finds => exact grows_found t _
    | passes hpasses hr =>
      obtain ⟨inner, hinner, rfl⟩ := except_map_eq_ok.1 hr
      have hgrows := (grows_passName hpasses.noted).1
      have hfold := foldlM_grows (fun _ _ _ => ih) hinner
      exact ⟨hgrows.passed, hgrows.trans hfold |>.cycles⟩

theorem exists_follow_of_mem (h : stops.foldlM (follow db n) t = .ok t') (hd : d ∈ stops) :
    ∃ u u', follow db n u d = .ok u' ∧ t.passed ⊆ u.passed ∧ u'.cycles ⊆ t'.cycles := by
  induction stops generalizing t with
  | nil => cases hd
  | cons d' stops ih =>
    rw [List.foldlM_cons, except_bind_eq_ok] at h
    obtain ⟨u, hu, h⟩ := h
    rcases List.mem_cons.1 hd with rfl | hd
    · exact ⟨t, u, hu, fun _ hx => hx, (foldlM_grows (fun _ _ _ => follow_grows) h).cycles⟩
    · obtain ⟨v, v', hv, hpassed, hcycles⟩ := ih h hd
      exact ⟨v, v', hv, fun _ hx => hpassed ((follow_grows hu).passed hx), hcycles⟩

/-- The names that are noted where a document is followed. -/
def notedAt : Json → List String
  | .obj members => noted members
  | _ => []

/-- What follows from a walk that comes by at a document: it comes by at another one, with the names
noted on the way. -/
def Comes (db : Database) (t t' : Trail) (d e : Json) : Prop :=
  ∃ n u u', follow db n u e = .ok u' ∧ t.passed ++ notedAt d ⊆ u.passed ∧ u'.cycles ⊆ t'.cycles

theorem comes_of_mem (h : follow db n t (.obj members) = .ok t') (hname : isNamed members = true)
    {type : Json} (htype : lookup "type" members = some type)
    (hd : d ∈ fieldStops members ++ typeStops db type) :
    (∃ s, type = .str s ∧ s ∈ t'.cycles) ∨ Comes db t t' (.obj members) d := by
  obtain ⟨k, rfl, hacts⟩ := exists_acts h
  cases hacts with
  | stops hunnamed => cases (hunnamed members rfl).symm.trans hname
  | finds hrefers =>
    cases htype.symm.trans (hrefers.resolve_left nofun)
    exact .inl ⟨_, rfl, mem_insert.2 (.inl rfl)⟩
  | passes hpasses hr =>
    obtain ⟨inner, hinner, rfl⟩ := except_map_eq_ok.1 hr
    cases htype.symm.trans hpasses.type_eq
    rw [fieldStops, Schema.needElements_eq_ok.1 hpasses.fields_eq] at hd
    obtain ⟨u, u', hu, hpassed, hcycles⟩ := exists_follow_of_mem hinner hd
    obtain ⟨hgrows, hnoted⟩ := grows_passName hpasses.noted
    exact .inr ⟨k, u, u', hu, fun _ hx => hpassed ((List.mem_append.1 hx).elim (hgrows.passed ·) (hnoted ·)),
      hcycles⟩

/-- One step inside a definition: to a field, to a type that is an object, or to a branch of a type that
is a union. What has fields is not itself a reference. -/
inductive Inner (db : Database) : Json → Json → Prop
  | field {members : Members} {type d : Json} (hname : isNamed members = true)
      (htype : lookup "type" members = some type)
      (hplain : ∀ s, type = .str s → lookup s db = none) (hd : d ∈ fieldStops members) :
      Inner db (.obj members) d
  | type {members inner : Members} (hname : isNamed members = true)
      (htype : lookup "type" members = some (.obj inner)) : Inner db (.obj members) (.obj inner)
  | branch {members : Members} {branches : List Json} {d : Json}
      (hname : isNamed members = true) (htype : lookup "type" members = some (.arr branches))
      (hd : d ∈ branches) : Inner db (.obj members) d

/-- No cycle was found at a name that is not defined. -/
def Worded (db : Database) (t : Trail) : Prop := ∀ s ∈ t.cycles, (lookup s db).isSome = true

theorem Worded.mono (h : Worded db t') (hcycles : t.cycles ⊆ t'.cycles) : Worded db t :=
  fun s hs => h s (hcycles hs)

theorem Inner.comes (hstep : Inner db d e) (h : follow db n t d = .ok t') (hwords : Worded db t') :
    Comes db t t' d e := by
  cases hstep with
  | field hname htype hplain hd =>
    refine (comes_of_mem h hname htype (List.mem_append_left _ hd)).resolve_left ?_
    rintro ⟨s, hs, hfound⟩
    have hdefined := hwords s hfound
    rw [hplain s hs] at hdefined
    cases hdefined
  | type hname htype =>
    refine (comes_of_mem h hname htype (List.mem_append_right _ List.mem_cons_self)).resolve_left ?_
    rintro ⟨s, hs, -⟩
    cases hs
  | branch hname htype hd =>
    refine (comes_of_mem h hname htype (List.mem_append_right _ hd)).resolve_left ?_
    rintro ⟨s, hs, -⟩
    cases hs

theorem comes_of_inside (hsteps : Relation.TransGen (Inner db) d e) (h : follow db n t d = .ok t')
    (hwords : Worded db t') : Comes db t t' d e := by
  induction hsteps with
  | single hstep => exact hstep.comes h hwords
  | tail _ hstep ih =>
    obtain ⟨k, u, u', hu, hpassed, hcycles⟩ := ih
    obtain ⟨k', v, v', hv, hpassed', hcycles'⟩ := hstep.comes hu (hwords.mono hcycles)
    exact ⟨k', v, v', hv, fun _ hx => hpassed' (List.mem_append_left _ (hpassed hx)),
      fun _ hx => hcycles (hcycles' hx)⟩

/-- A definition refers to a name by the type of something inside it that has a name, such as a field. -/
def RefersTo (db : Database) (a b : String) : Prop :=
  ∃ d members, lookup a db = some d ∧ Relation.TransGen (Inner db) d (.obj members) ∧
    isNamed members = true ∧ lookup "type" members = some (.str b)

/-- A definition mentions a name, as a type or as a branch of a union. -/
def Mentions (db : Database) (a b : String) : Prop :=
  ∃ d e, lookup a db = some d ∧ Relation.TransGen (Inner db) d e ∧
    (e = .str b ∨ ∃ members, e = .obj members ∧ lookup "type" members = some (.str b))

theorem RefersTo.comes (href : RefersTo db a b) (ha : lookup a db = some d)
    (hb : lookup b db = some e) (h : follow db n t d = .ok t') (hwords : Worded db t') :
    b ∈ t'.cycles ∨ Comes db t t' d e := by
  obtain ⟨d', members, ha', hinside, hname, htype⟩ := href
  cases ha.symm.trans ha'
  obtain ⟨k, u, u', hu, hpassed, hcycles⟩ := comes_of_inside hinside h hwords
  have he : e ∈ fieldStops members ++ typeStops db (.str b) := by
    rw [typeStops, hb]
    exact List.mem_append_right _ List.mem_cons_self
  rcases comes_of_mem hu hname htype he with ⟨s, hs, hfound⟩ | ⟨k', v, v', hv, hpassed', hcycles'⟩
  · cases hs
    exact .inl (hcycles hfound)
  · exact .inr ⟨k', v, v', hv, fun _ hx => hpassed' (List.mem_append_left _ (hpassed hx)),
      fun _ hx => hcycles (hcycles' hx)⟩

/-- A walk finds a cycle at a name that it has passed and that is mentioned. -/
theorem Mentions.found (hmentions : Mentions db a b) (ha : lookup a db = some d)
    (h : follow db n t d = .ok t') (hwords : Worded db t') (hb : b ∈ t.passed ++ notedAt d) :
    b ∈ t'.cycles := by
  obtain ⟨d', e, ha', hinside, he⟩ := hmentions
  cases ha.symm.trans ha'
  obtain ⟨k, u, u', hu, hpassed, hcycles⟩ := comes_of_inside hinside h hwords
  have hin : b ∈ u.passed := hpassed hb
  refine hcycles ?_
  cases k with
  | zero => cases hu
  | succ k =>
    rcases he with rfl | ⟨members, rfl, htype⟩
    · rw [follow, if_pos (List.contains_iff_mem.2 hin)] at hu
      cases hu
      exact mem_insert.2 (.inl rfl)
    · rw [follow, except_bind_eq_ok] at hu
      obtain ⟨type, hneed, hu⟩ := hu
      cases htype.symm.trans (Schema.need_eq_ok.1 hneed)
      simp only [List.contains_iff_mem.2 hin, if_true] at hu
      cases hu
      exact mem_insert.2 (.inl rfl)

/-- A walk through references that lead on from one definition to the next, and back to a name that it
has passed, finds a cycle at one of them. The induction is on the references. -/
theorem exists_found_of_chain {names : List String} (hchain : List.IsChain (RefersTo db) (a :: names))
    (hnames : ∀ s ∈ names, (lookup s db).isSome = true)
    (hback : Mentions db ((a :: names).getLast (List.cons_ne_nil _ _)) b)
    (ha : lookup a db = some d) (h : follow db n t d = .ok t') (hwords : Worded db t')
    (hb : b ∈ t.passed ++ notedAt d) : ∃ s ∈ b :: names, s ∈ t'.cycles := by
  induction names generalizing a d n t t' with
  | nil => exact ⟨b, List.mem_cons_self, Mentions.found hback ha h hwords hb⟩
  | cons c names ih =>
    rw [List.isChain_cons_cons] at hchain
    obtain ⟨e, he⟩ := Option.isSome_iff_exists.1 (hnames c List.mem_cons_self)
    rcases hchain.1.comes ha he h hwords with hfound | ⟨k, u, u', hu, hpassed, hcycles⟩
    · exact ⟨c, List.mem_cons_of_mem _ List.mem_cons_self, hfound⟩
    · rw [List.getLast_cons (List.cons_ne_nil _ _)] at hback
      obtain ⟨s, hs, hfound⟩ := ih hchain.2 (fun s hs => hnames s (List.mem_cons_of_mem _ hs)) hback he hu
        (hwords.mono hcycles) (List.mem_append_left _ (hpassed hb))
      refine ⟨s, ?_, hcycles hfound⟩
      rcases List.mem_cons.1 hs with rfl | hs
      · exact List.mem_cons_self
      · exact List.mem_cons_of_mem _ (List.mem_cons_of_mem _ hs)

/-- All definitions are walked through. -/
theorem exists_follow_of_cyclesOf {cycles : List String} (h : cyclesOf db = .ok cycles)
    {entry : String × Json} (hentry : entry ∈ db) :
    ∃ t t', follow db (bound db) t entry.2 = .ok t' ∧ t'.cycles ⊆ cycles := by
  have hfold : ∀ (entries : List (String × Json)) (start : List String), entries.foldlM (fun cycles entry => do
      let t ← follow db (bound db) ⟨[], cycles⟩ entry.2
      return t.cycles) start = .ok cycles →
      start ⊆ cycles ∧ ∀ entry ∈ entries, ∃ t t', follow db (bound db) t entry.2 = .ok t' ∧
        t'.cycles ⊆ cycles := by
    intro entries
    induction entries with
    | nil =>
      intro start h
      cases h
      exact ⟨fun _ hx => hx, by simp⟩
    | cons entry entries ih =>
      intro start h
      rw [List.foldlM_cons, except_bind_eq_ok] at h
      obtain ⟨next, hnext, h⟩ := h
      obtain ⟨t', ht', hcycles⟩ := except_bind_eq_ok.1 hnext
      cases hcycles
      obtain ⟨hsub, hall⟩ := ih _ h
      exact ⟨fun _ hx => hsub ((follow_grows ht').cycles hx), List.forall_mem_cons.2 ⟨⟨_, t', ht', hsub⟩, hall⟩⟩
  exact (hfold db [] h).2 entry hentry

end Trail

namespace Store

variable {schemata : Schemata} {store : Store} {r r' : Schema.Registry}

theorem cyclesOf_of_build (h : Store.build schemata r = (.ok store, r')) :
    Trail.cyclesOf store.database = .ok store.cycles := by
  simp only [Store.build, bind_eq_ok, pure_eq_ok, lift_eq_ok] at h
  obtain ⟨db, r₁, -, cycles, r₂, ⟨hcycles, -⟩, rfl, -⟩ := h
  exact hcycles

/-- Among definitions that refer to one another in a circle one is found to start a cycle, if all
references but the last are types of fields, and no cycle was taken to start at a word that is not the
name of a definition. -/
theorem exists_cycleStarting_of_cycle (hstore : Store.build schemata r = (.ok store, r'))
    (hwords : ∀ s, store.isCycleStarting s = true → store.contains s = true) {first : String}
    {names : List String} (hchain : List.IsChain (Trail.RefersTo store.database) (first :: names))
    (hback : Trail.Mentions store.database ((first :: names).getLast (List.cons_ne_nil _ _)) first)
    (hnames : ∀ s ∈ names, store.contains s = true) {members : Members}
    (hfirst : lookup first store.database = some (.obj members))
    (hown : lookup "name" members = some (.str first)) :
    ∃ s ∈ first :: names, store.isCycleStarting s = true := by
  obtain ⟨t, t', ht', hcycles⟩ := Trail.exists_follow_of_cyclesOf (cyclesOf_of_build hstore)
    (mem_of_lookup hfirst)
  have hworded : Trail.Worded store.database t' :=
    fun s hs => hwords s (List.contains_iff_mem.2 (hcycles hs))
  have hnoted : first ∈ t.passed ++ Trail.notedAt (.obj members) := by
    rw [Trail.notedAt, Trail.noted, hown]
    exact List.mem_append_right _ List.mem_cons_self
  obtain ⟨s, hs, hfound⟩ := Trail.exists_found_of_chain hchain hnames hback hfirst ht' hworded hnoted
  exact ⟨s, hs, List.contains_iff_mem.2 (hcycles hfound)⟩

def townSchemata : Schemata :=
  [("town.house", .record "town.house" [
      .field "street" (.str "town.street")]),
    ("town.street", .record "town.street" [
      .field "corner" (.arr [.str "null", .str "town.house"])])]

def houseMembers : Members :=
  [("type", .str "record"), ("name", .str "town.house"),
    ("fields", .arr [.field "street" (.str "town.street")]),
    ("__fastavro_parsed", .bool true)]

def streetMembers : Members :=
  [("type", .str "record"), ("name", .str "town.street"),
    ("fields", .arr [.field "corner" (.arr [.str "null", .str "town.house"])]),
    ("__fastavro_parsed", .bool true)]

theorem town_cycleStarting : ∃ store registry, Store.build townSchemata [] = (.ok store, registry) ∧
    ∃ s ∈ ["town.house", "town.street"], store.isCycleStarting s = true := by
  obtain ⟨store, registry, hstore, hhouse, hstreet, hrecord, hcycles⟩ := Codec.exists_store townSchemata
    (fun store => lookup "town.house" store.database = some (.obj houseMembers) ∧
      lookup "town.street" store.database = some (.obj streetMembers) ∧
      lookup "record" store.database = none ∧
      ∀ s ∈ store.cycles, store.contains s = true) (by decide +kernel)
  have hplain : ∀ s, str "record" = .str s → lookup s store.database = none := by
    rintro s hs
    cases hs
    exact hrecord
  refine ⟨store, registry, hstore, exists_cycleStarting_of_cycle hstore
    (fun s hs => hcycles s (List.contains_iff_mem.1 hs)) (List.isChain_cons_cons.2 ⟨?_, .singleton _⟩) ?_ ?_ hhouse rfl⟩
  · exact ⟨_, _, hhouse, .single (.field rfl rfl hplain List.mem_cons_self), rfl, rfl⟩
  · exact ⟨_, _, hstreet, .tail (.single (.field rfl rfl hplain List.mem_cons_self))
      (.branch rfl rfl (List.mem_cons_of_mem _ List.mem_cons_self)), .inl rfl⟩
  · rw [List.forall_mem_singleton, Store.contains, hstreet]
    rfl

/-- A definition that refers to itself as the items of an array is not found to start a cycle. -/
theorem tree_not_cycleStarting : ∃ store registry,
    Store.build [("forest.tree", .obj [("type", .str "record"), ("name", .str "forest.tree"),
      ("fields", .arr [.obj [("name", .str "kids"),
        ("type", .obj [("type", .str "array"), ("items", .str "forest.tree")])]])])] [] =
      (.ok store, registry) ∧
    lookup "forest.tree" store.database = some (.obj [("type", .str "record"),
      ("name", .str "forest.tree"), ("fields", .arr [.obj [("name", .str "kids"),
        ("type", .obj [("type", .str "array"), ("items", .str "forest.tree")])]]),
      ("__fastavro_parsed", .bool true)]) ∧
    store.isCycleStarting "forest.tree" = false :=
  Codec.exists_store _ (fun store => lookup "forest.tree" store.database = some _ ∧
    store.isCycleStarting "forest.tree" = false) (by decide +kernel)

end Store

end AvroCodec
