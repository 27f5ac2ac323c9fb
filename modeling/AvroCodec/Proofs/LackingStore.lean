import AvroCodec.Proofs.Lacking

/-!
# Stores that lack a default

If a store can be built from schemas that lack defaults, then it can be built from the schemas that declare
them. Both stores know the same names, find the same cycles, and give out definitions of which the first
lack those defaults.
-/

namespace AvroCodec

namespace Json

def Lacks (x y : Json) : Prop := FieldLacks x y ∨ RecordLacks x y

theorem Lacks.refl (x : Json) : Lacks x x := .inl (.refl x)

theorem Lacks.cases {x y : Json} (h : Lacks x y) : x = y ∨ ∃ ms ms', x = .obj ms ∧ y = .obj ms' ∧
    (∀ key, key ≠ "fields" → key ≠ "default" → lookup key ms' = lookup key ms) ∧ FieldsLack ms ms' := by
  rcases h with h | h
  · cases h with
    | refl => exact .inl rfl
    | @default members _ =>
      refine .inr ⟨_, members, rfl, rfl, fun key _ hkey => (lookup_without hkey members).symm, .inl ?_⟩
      rw [lookup_without (by decide)]
  · cases h with
    | refl => exact .inl rfl
    | record hms _ =>
      exact .inr ⟨_, _, rfl, rfl, fun key hkey _ => lookup_of_lacks hms hkey, fieldsLack_of_lacks hms⟩

end Json

open Json

theorem Code.hasChar_of_isIdentifier {c : Char} {s : String} (h : Code.isIdentifier s = true)
    (hc : (c.isAlphanum || c == '_') = false) : Text.hasChar c s = false := by
  rw [Text.hasChar, ← Bool.not_eq_true, List.contains_iff_mem]
  intro hmem
  rw [List.all_eq_true.1 h c hmem] at hc
  cases hc

namespace Database

def Lacks (db db' : Database) : Prop :=
  List.Forall₂ (fun e e' => e.1 = e'.1 ∧ e.2.RecordLacks e'.2) db db'

variable {db db' : Database} {x y : Json} {members ms ms' : Members}

theorem Lacks.lookup (h : Lacks db db') (key : String) :
    (Json.lookup key db = none ∧ Json.lookup key db' = none) ∨
      ∃ x y, Json.lookup key db = some x ∧ Json.lookup key db' = some y ∧ RecordLacks x y := by
  induction h with
  | nil => exact .inl ⟨rfl, rfl⟩
  | @cons a b _ _ hab _ ih =>
    obtain ⟨k, x⟩ := a
    obtain ⟨k', y⟩ := b
    obtain ⟨rfl, hxy⟩ := hab
    by_cases hk : k = key
    · exact .inr ⟨x, y, if_pos hk, if_pos hk, hxy⟩
    · simpa only [Json.lookup, if_neg hk] using ih

theorem Lacks.put (h : Lacks db db') (key : String) (hxy : RecordLacks x y) :
    Lacks (Json.put key x db) (Json.put key y db') := by
  induction h with
  | nil => exact .cons ⟨rfl, hxy⟩ .nil
  | @cons a b _ _ hab hrest ih =>
    obtain ⟨k, _⟩ := a
    obtain ⟨k', _⟩ := b
    obtain ⟨rfl, hold⟩ := hab
    simp only [Json.put]
    split_ifs
    · exact .cons ⟨rfl, hxy⟩ hrest
    · exact .cons ⟨rfl, hold⟩ ih

theorem Lacks.sizes_le (h : Lacks db db') :
    db.length = db'.length ∧ db.depth ≤ db'.depth ∧ db.namedCount ≤ db'.namedCount := by
  refine ⟨h.length_eq, ?_⟩
  unfold Database.depth Database.namedCount
  induction h with
  | nil => exact ⟨le_rfl, le_rfl⟩
  | cons hab _ ih =>
    obtain ⟨hdepth, hcount⟩ := hab.2.sizes_le
    exact ⟨max_le_max hdepth ih.1, Nat.add_le_add hcount ih.2⟩

/-! ### Scanning -/

theorem Lacks.refl (db : Database) : Lacks db db := forall₂_refl (fun e => ⟨rfl, .refl e.2⟩) db

theorem Lacks.store {es es' : Database} (hdb : Lacks db db') (hes : Lacks es es') :
    Lacks (db.store es) (db'.store es') := by
  induction hes generalizing db db' with
  | nil => exact hdb
  | @cons e e' _ _ he _ ih =>
    obtain ⟨k, x⟩ := e
    obtain ⟨rfl, hxy⟩ := he
    exact ih (hdb.put _ hxy)

theorem lacks_of_stores {f : Database → Except SchemaError Database} {es : Database}
    (h : Stores f es ∨ Refuses f) (hdb : Lacks db db') : Succeeds (f db) (f db') Lacks := by
  intro e he
  have hf := Stores.of_ok h he
  cases he.symm.trans (hf db)
  exact ⟨_, hf db', hdb.store (.refl es)⟩

theorem lacks_enter (hdb : Lacks db db') (hms : RecordLacks (.obj ms) (.obj ms'))
    (hname : Json.lookup "name" ms' = Json.lookup "name" ms) : Succeeds (enter ms db) (enter ms' db') Lacks := by
  intro e he
  have hfits := (stores_enter _).resolve_right fun hno => by cases he.symm.trans (hno ms rfl db)
  cases he.symm.trans (hfits ms rfl db)
  refine ⟨_, hfits ms' hname db', hdb.store ?_⟩
  unfold ownName
  rw [hname]
  split
  · split_ifs
    · exact .cons ⟨rfl, hms⟩ .nil
    · exact .nil
  · exact .nil

theorem enter_of_carriesNoName (h : carriesNoName (Json.lookup "name" members) = true)
    (db : Database) : enter members db = .ok db := by
  unfold enter
  cases hname : Json.lookup "name" members with
  | none => rfl
  | some name =>
    rw [hname] at h
    cases name with
    | str s =>
      have hdot : Schema.hasDot s = false := by simpa [carriesNoName] using h
      simp only [hdot, Bool.false_eq_true, if_false]
    | arr items =>
      have hitems : items = [] := by simpa [carriesNoName, Json.truthy] using h
      rw [hitems]
      rfl
    | obj members =>
      have hmembers : members = [] := by simpa [carriesNoName, Json.truthy] using h
      rw [hmembers]
      rfl
    | _ =>
      simp only [carriesNoName, Bool.not_eq_true'] at h
      simp only [h, Bool.false_eq_true, if_false]

mutual

theorem scan_of_isInert : ∀ (d : Json), d.isInert = true → ∀ db, scan d db = .ok db
  | .arr items, h, db => scanItems_of_isInert items h db
  | .obj members, h, db => by
    obtain ⟨hname, hmembers⟩ := Bool.and_eq_true_iff.1 h
    rw [scan, enter_of_carriesNoName hname]
    exact scanMembers_of_isInert members hmembers db
  | .null, _, _ | .bool _, _, _ | .int _, _, _ | .fraction _ _, _, _ | .str _, _, _ => rfl

theorem scanItems_of_isInert : ∀ (items : List Json), itemsInert items = true → ∀ db, scanItems items db = .ok db
  | [], _, _ => rfl
  | x :: xs, h, db => by
    obtain ⟨hx, hxs⟩ := Bool.and_eq_true_iff.1 h
    rw [scanItems, scan_of_isInert x hx]
    exact scanItems_of_isInert xs hxs db

theorem scanMembers_of_isInert : ∀ (members : Members), membersInert members = true →
    ∀ db, scanMembers members db = .ok db
  | [], _, _ => rfl
  | (_, x) :: rest, h, db => by
    obtain ⟨hx, hrest⟩ := Bool.and_eq_true_iff.1 h
    rw [scanMembers, scan_of_isInert x hx]
    exact scanMembers_of_isInert rest hrest db

end

theorem scanMembers_without {key : String} (h : ∀ d, (key, d) ∈ members → d.isInert = true)
    (db : Database) : scanMembers members db = scanMembers (without key members) db := by
  induction members generalizing db with
  | nil => rfl
  | cons m rest ih =>
    obtain ⟨k, x⟩ := m
    have ih := ih fun d hd => h d (List.mem_cons_of_mem _ hd)
    rw [scanMembers, without, List.filter_cons]
    by_cases hk : k = key
    · subst hk
      rw [if_neg (by simp), scan_of_isInert x (h x List.mem_cons_self)]
      exact ih db
    · rw [if_pos (by simpa using hk), scanMembers]
      exact congrArg (scan x db >>= ·) (funext ih)

theorem lacks_scanField (hxy : FieldLacks x y) (hdb : Lacks db db') : Succeeds (scan x db) (scan y db') Lacks := by
  cases hxy with
  | refl => exact lacks_of_stores (stores_scan x) hdb
  | @default members hhonours =>
    obtain ⟨key, hkey, -, hidentifier⟩ := hhonours.name
    have hdot : Schema.hasDot key = false := Code.hasChar_of_isIdentifier hidentifier (by decide)
    have henter : ∀ {ms : Members} (db : Database), Json.lookup "name" ms = some (.str key) →
        scan (.obj ms) db = scanMembers ms db := by
      intro ms db hname
      rw [scan, enter, hname]
      simp only [hdot, Bool.false_eq_true, if_false]
      rfl
    rw [henter db ((lookup_without (by decide) members).trans hkey), henter db' hkey,
      ← scanMembers_without fun d hd => (hhonours.default d hd).2]
    exact lacks_of_stores (stores_scanMembers members) hdb

theorem lacks_scanFields {fields fields' : List Json} (hall : List.Forall₂ FieldLacks fields fields')
    (hdb : Lacks db db') : Succeeds (scanItems fields db) (scanItems fields' db') Lacks := by
  induction hall generalizing db db' with
  | nil => exact .ok hdb
  | cons hxy _ ih => exact (lacks_scanField hxy hdb).bind fun _ _ hnext => ih hnext

theorem lacks_scanMembers (hms : List.Forall₂ MemberLacks ms ms')
    (hdb : Lacks db db') : Succeeds (scanMembers ms db) (scanMembers ms' db') Lacks := by
  induction hms generalizing db db' with
  | nil => exact .ok hdb
  | cons hm _ ih =>
    cases hm with
    | refl m => exact (lacks_of_stores (stores_scan _) hdb).bind fun _ _ hnext => ih hnext
    | fields hfields => exact (lacks_scanFields hfields hdb).bind fun _ _ hnext => ih hnext

theorem lacks_scan (hxy : RecordLacks x y) (hdb : Lacks db db') : Succeeds (scan x db) (scan y db') Lacks := by
  cases hxy with
  | refl => exact lacks_of_stores (stores_scan x) hdb
  | record hms htype =>
    refine (lacks_enter hdb (.record hms htype) (lookup_of_lacks hms (by decide))).bind fun _ _ hstart => ?_
    exact lacks_scanMembers hms hstart

/-! ### Gathering -/

theorem lacks_add (hdb : Lacks db db') (identifier : String) (hxy : RecordLacks x y) :
    Carries (fun _ _ => True) (add db identifier x) (add db' identifier y) Lacks := by
  intro r r' e t _ h
  obtain ⟨parsed, r₁, hparsed, h⟩ := bind_eq_ok.1 h
  obtain ⟨parsed', r₁', hparsed', hlacks⟩ := Schema.lacks_parseOpen hxy hparsed r'
  by_cases hdot : Schema.hasDot identifier = true
  · simp only [hdot, if_true, bind_eq_ok, pure_eq_ok, lift_eq_ok] at h
    obtain ⟨again, r₂, hagain, start, r₃, ⟨rfl, rfl⟩, hscan, rfl⟩ := h
    obtain ⟨again', _, hagain', hlacks'⟩ := Schema.lacks_parse hlacks hagain
    obtain ⟨r₂', hagain'⟩ := Schema.exists_parse_of_knows hagain' (Schema.knows_of_parseOpen hparsed')
    obtain ⟨e', he', hdb'⟩ := lacks_scan hlacks (hdb.put identifier hlacks') e hscan
    refine ⟨e', r₂', bind_eq_ok.2 ⟨parsed', r₁', hparsed', ?_⟩, trivial, hdb'⟩
    rw [if_pos hdot, bind_eq_ok]
    exact ⟨again', r₂', hagain', bind_eq_ok.2 ⟨_, _, rfl, lift_eq_ok.2 ⟨he', rfl⟩⟩⟩
  · simp only [if_neg hdot, bind_eq_ok, pure_eq_ok, lift_eq_ok] at h
    obtain ⟨start, r₃, ⟨rfl, rfl⟩, hscan, rfl⟩ := h
    obtain ⟨e', he', hdb'⟩ := lacks_scan hlacks hdb e hscan
    refine ⟨e', r₁', bind_eq_ok.2 ⟨parsed', r₁', hparsed', ?_⟩, trivial, hdb'⟩
    rw [if_neg hdot]
    exact bind_eq_ok.2 ⟨_, _, rfl, lift_eq_ok.2 ⟨he', rfl⟩⟩

theorem lacks_gather {schemata schemata' : Schemata} (h : Lacks schemata schemata') :
    Carries (fun _ _ => True) (gather schemata) (gather schemata') Lacks := by
  have hfold : ∀ {db db' : Database}, Lacks db db' → Carries (fun _ _ => True)
      (schemata.foldlM (fun db entry => add db entry.1 entry.2) db : Schema.WithRegistry Database)
      (schemata'.foldlM (fun db entry => add db entry.1 entry.2) db') Lacks := by
    induction h with
    | nil => exact fun hdb => Carries.pure hdb
    | @cons entry entry' _ _ hentry _ ih =>
      intro db db' hdb
      rw [List.foldlM_cons, List.foldlM_cons, ← hentry.1]
      exact (lacks_add hdb entry.1 hentry.2).bind fun _ _ hnext => ih hnext
  exact hfold .nil

end Database

/-! ### Cycles -/

namespace Trail

variable {db db' : Database} {t u : Trail} {next next' : Trail → Json → Except SchemaError Trail}

theorem lacks_typeStops (hdb : db.Lacks db') (type : Json) :
    List.Forall₂ Lacks (typeStops db type) (typeStops db' type) := by
  cases type with
  | str reference =>
    rcases hdb.lookup reference with ⟨hx, hy⟩ | ⟨x, y, hx, hy, hxy⟩
    · rw [typeStops, typeStops, hx, hy]
      exact .nil
    · rw [typeStops, typeStops, hx, hy]
      exact .cons (.inr hxy) .nil
  | _ => exact forall₂_refl .refl _

theorem lacks_foldlM {xs ys : List Json} (hall : List.Forall₂ Lacks xs ys)
    (hnext : ∀ {x y t u}, Lacks x y → next t x = .ok u → next' t y = .ok u) (h : xs.foldlM next t = .ok u) :
    ys.foldlM next' t = .ok u := by
  induction hall generalizing t with
  | nil => exact h
  | cons hxy _ ih =>
    rw [List.foldlM_cons] at h ⊢
    obtain ⟨v, hv, h⟩ := except_bind_eq_ok.1 h
    exact except_bind_eq_ok.2 ⟨v, hnext hxy hv, ih h⟩

theorem lacks_descend {ms ms' : Members} {type : Json} (hdb : db.Lacks db')
    (hname : lookup "name" ms' = lookup "name" ms) (hfields : FieldsLack ms ms')
    (hnext : ∀ {x y t u}, Lacks x y → next t x = .ok u → next' t y = .ok u)
    (h : descend db next ms type t = .ok u) : descend db' next' ms' type t = .ok u := by
  unfold descend at h ⊢
  rw [hname]
  dsimp only at h ⊢
  split_ifs at h ⊢ with htruthy
  · exact h
  · obtain ⟨outer, houter, h⟩ := except_bind_eq_ok.1 h
    obtain ⟨fields, hneed, h⟩ := except_bind_eq_ok.1 h
    obtain ⟨inner, hinner, h⟩ := except_bind_eq_ok.1 h
    obtain ⟨fields', hneed', hall⟩ := hfields.needElements hneed
    have hstops := List.rel_append (hall.imp fun _ _ => Or.inl) (lacks_typeStops hdb type)
    refine except_bind_eq_ok.2 ⟨outer, houter, except_bind_eq_ok.2 ⟨fields', hneed', ?_⟩⟩
    exact except_bind_eq_ok.2 ⟨inner, lacks_foldlM hstops hnext hinner, h⟩

/-- A walk through a definition finds what it finds if defaults are added. -/
theorem lacks_follow (hdb : db.Lacks db') {n m : Nat} (hnm : n ≤ m) {x y : Json} (hxy : Lacks x y)
    (h : follow db n t x = .ok u) : follow db' m t y = .ok u := by
  induction n generalizing m x y t u with
  | zero => cases h
  | succ n ih =>
    obtain ⟨m, rfl⟩ : ∃ k, m = k + 1 := ⟨m - 1, by omega⟩
    have hnext : ∀ {x y t u}, Lacks x y → follow db n t x = .ok u → follow db' m t y = .ok u :=
      fun hxy h => ih (Nat.le_of_succ_le_succ hnm) hxy h
    have hobj : ∀ {ms ms' : Members}, lookup "type" ms' = lookup "type" ms →
        lookup "name" ms' = lookup "name" ms → FieldsLack ms ms' →
        follow db (n + 1) t (.obj ms) = .ok u → follow db' (m + 1) t (.obj ms') = .ok u := by
      intro ms ms' htype hname hfields h
      rw [follow] at h ⊢
      obtain ⟨type, hneed, h⟩ := except_bind_eq_ok.1 h
      refine except_bind_eq_ok.2 ⟨type, ?_, ?_⟩
      · rw [Schema.need_eq_ok] at hneed ⊢
        rw [htype, hneed]
      · split at h
        · split_ifs at h ⊢
          · exact h
          · exact lacks_descend hdb hname hfields hnext h
        · exact lacks_descend hdb hname hfields hnext h
    rcases hxy.cases with rfl | ⟨ms, ms', rfl, rfl, hlookup, hfields⟩
    · cases x with
      | obj ms => exact hobj rfl rfl (.inl rfl) h
      | _ => exact h
    · exact hobj (hlookup _ (by decide) (by decide)) (hlookup _ (by decide) (by decide)) hfields h

theorem bound_le_of_lacks (hdb : db.Lacks db') : bound db ≤ bound db' := by
  obtain ⟨hlength, hdepth, hcount⟩ := hdb.sizes_le
  unfold bound
  rw [hlength]
  gcongr

theorem lacks_cyclesOf (hdb : db.Lacks db') {cycles : List String} (h : cyclesOf db = .ok cycles) :
    cyclesOf db' = .ok cycles := by
  have hfold : ∀ {es es' : Database}, es.Lacks es' → ∀ {start : List String},
      es.foldlM (fun cycles entry => do
        let t ← follow db (bound db) ⟨[], cycles⟩ entry.2
        return t.cycles) start = .ok cycles →
      es'.foldlM (fun cycles entry => do
        let t ← follow db' (bound db') ⟨[], cycles⟩ entry.2
        return t.cycles) start = .ok cycles := by
    intro es es' hes
    induction hes with
    | nil => exact fun h => h
    | cons hentry _ ih =>
      intro start h
      rw [List.foldlM_cons] at h ⊢
      obtain ⟨next, hnext, h⟩ := except_bind_eq_ok.1 h
      obtain ⟨t, ht, hpure⟩ := except_bind_eq_ok.1 hnext
      refine except_bind_eq_ok.2 ⟨next, except_bind_eq_ok.2 ⟨t, ?_, hpure⟩, ih h⟩
      exact lacks_follow hdb (bound_le_of_lacks hdb) (.inr hentry.2) ht
  exact hfold hdb h

end Trail

/-! ### Stores -/

namespace Store

/-- Two stores with the same names and cycles, of which the first has definitions that lack defaults. -/
structure Lacks (store store' : Store) : Prop where
  database : store.database.Lacks store'.database
  cycles : store.cycles = store'.cycles

theorem lacks_build {schemata schemata' : Schemata} (h : Database.Lacks schemata schemata') :
    Carries (fun _ _ => True) (build schemata) (build schemata') Lacks := by
  unfold build
  refine (Database.lacks_gather h).bind fun db db' hdb => ?_
  have hcycles : Carries (fun _ _ => True) (liftM (Trail.cyclesOf db) : Schema.WithRegistry (List String))
      (liftM (Trail.cyclesOf db')) (· = ·) :=
    Carries.lift fun cycles hcycles => ⟨cycles, Trail.lacks_cyclesOf hdb hcycles, rfl⟩
  exact hcycles.bind fun cycles cycles' heq => Carries.pure ⟨hdb, heq⟩

variable {store store' : Store} (h : store.Lacks store')
include h

theorem Lacks.contains (identifier : String) : store'.contains identifier = store.contains identifier := by
  unfold Store.contains
  rcases h.database.lookup identifier with ⟨hx, hy⟩ | ⟨x, y, hx, hy, -⟩ <;> rw [hx, hy]
  rfl

theorem lacks_loadGlobal (identifier : String) :
    Succeeds (store.loadGlobal identifier) (store'.loadGlobal identifier) RecordLacks := by
  unfold loadGlobal
  rcases h.database.lookup identifier with ⟨hx, hy⟩ | ⟨x, y, hx, hy, hlacks⟩ <;> rw [hx, hy]
  · exact nofun
  · exact .ok hlacks

theorem lacks_localDatabase (context : String) :
    Carries (fun _ _ => True) (store.localDatabase context) (store'.localDatabase context) Database.Lacks := by
  unfold localDatabase
  rcases h.database.lookup context with ⟨hx, hy⟩ | ⟨x, y, hx, hy, hxy⟩
  · rw [hx]
    exact Carries.throw
  · rw [hx, hy]
    exact Database.lacks_gather (.cons ⟨rfl, hxy⟩ .nil)

theorem lacks_load (identifier context : String) :
    Carries (fun _ _ => True) (store.load identifier context) (store'.load identifier context) RecordLacks := by
  have hglobal : Carries (fun _ _ => True) (liftM (store.loadGlobal identifier) : Schema.WithRegistry Json)
      (liftM (store'.loadGlobal identifier)) RecordLacks :=
    Carries.lift (lacks_loadGlobal h identifier)
  unfold load
  split_ifs
  · exact hglobal
  · refine (lacks_localDatabase h context).bind fun db db' hdb => ?_
    rcases hdb.lookup identifier with ⟨hx, hy⟩ | ⟨x, y, hx, hy, hxy⟩
    · rw [hx, hy]
      exact hglobal
    · rw [hx, hy]
      exact Carries.pure hxy

theorem Lacks.reach_le {x y : Json} (hxy : RecordLacks x y) : Generator.reach store x ≤ Generator.reach store' y := by
  obtain ⟨hlength, hdepth, hcount⟩ := h.database.sizes_le
  have hxy := hxy.sizes_le.1
  unfold Generator.reach
  rw [hlength, h.cycles]
  gcongr

end Store

end AvroCodec
