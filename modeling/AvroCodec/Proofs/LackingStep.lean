import AvroCodec.Proofs.Begun
import AvroCodec.Proofs.Compiled
import AvroCodec.Proofs.LackingCode
import AvroCodec.Proofs.Once

/-!
# One step of two generators, of which the first lacks defaults

Where the first generator makes code for a schema, so does the second for the schema with its defaults, if
both do for the schemas inside. That is shown for routines and recursive types first, and then told of all code
that the generators make in step.
-/

namespace AvroCodec

open Code

namespace Code

structure Routine.Lacks (r r' : Routine) : Prop where
  writer : r.writer.Lacks r'.writer
  reader : r.reader.Lacks r'.reader
  functions : List.Forall₂ FunctionLacks r.functions r'.functions

theorem Routine.Lacks.compiles {r r' : Routine} (h : r.Lacks r') (hr : r.compiles = true) : r'.compiles = true := by
  have hnames : r'.functions.map (·.1) = r.functions.map (·.1) := by
    have := h.functions
    generalize r.functions = fs, r'.functions = gs at this ⊢
    induction this with
    | nil => rfl
    | cons hf _ ih => rw [List.map_cons, List.map_cons, ih, hf.name]
  simp only [Routine.compiles, Routine.isSound, Bool.and_eq_true, List.all_eq_true] at hr ⊢
  rw [hnames]
  refine ⟨⟨h.writer.sound _ hr.1.1, h.reader.isComplete hr.1.2⟩, fun g hg => ?_⟩
  obtain ⟨f, hf, hfg⟩ := exists_mem_of_forall₂ h.functions hg
  exact ⟨hfg.writer.sound _ (hr.2 f hf).1, hfg.reader.isComplete (hr.2 f hf).2⟩

end Code

structure Recursion.Lacks (σ σ' : Setting) (r r' : Recursion) : Prop where
  encode : ∀ {x y : Json} {p : Place}, x.Lacks y → y.isQuotable = true → p.isSound = true →
    Gen.Carried σ σ' (r.encode x p) (r'.encode y p) Encoder.Lacks
  decode : ∀ {x y : Json} {p : Place}, x.Lacks y → y.isQuotable = true →
    Gen.Carried σ σ' (r.decode x p) (r'.decode y p) Decoder.Lacks

namespace Gen

variable {σ σ' : Setting} (h : σ.Lacks σ') {r r' : Recursion} (hr : Recursion.Lacks σ σ' r r')

variable {x y : Json} {p : Place}
include hr

/-! ### Routines -/

theorem carried_draft (hxy : x.RecordLacks y) (hy : (Schema.normal y).isQuotable = true) :
    Carried σ σ' (draft r x) (draft r' y) fun m m' => m.writer.Lacks m'.writer ∧ m.reader.Lacks m'.reader := by
  have hready : Carried σ σ' _ _ fun _ _ => True :=
    Carried.update (fun s => { s with ready := true }) (fun _ => rfl) (fun _ => rfl) trivial
  have hparsed : Carries (fun _ _ => True) (Schema.parseOpen x) (Schema.parseOpen y) fun d d' =>
      d.RecordLacks d' ∧ d'.isQuotable = true := by
    intro s s' d t _ hd
    obtain ⟨d', t', hd', hlacks⟩ := Schema.lacks_parseOpen hxy hd s'
    rw [← Schema.parseOpen_eq hd'] at hy
    exact ⟨d', t', hd', trivial, hlacks, hy⟩
  refine hready.bind fun _ _ _ => (Carried.withRegistry hparsed).bind fun d d' hd => ?_
  refine (hr.encode (.inr hd.1) hd.2 rfl).bind fun a b hab => Carried.takeDeclarations.bind fun _ _ _ => ?_
  refine (hr.decode (.inr hd.1) hd.2).bind fun _ _ hab' => Carried.takeDeclarations.bind fun _ _ _ => ?_
  exact Carried.pure ⟨hab, hab'⟩

theorem carried_routine (hxy : x.RecordLacks y) (hy : (Schema.normal y).isQuotable = true) :
    Carried σ σ' (routine r x) (routine r' y) Routine.Lacks := by
  rw [routine_eq, routine_eq]
  refine (carried_draft hr hxy hy).bind fun m m' hm s s' a t hs hrun => ?_
  cases hrun
  exact ⟨_, _, rfl, ⟨hs.trim, .nil⟩, hm.1, hm.2, hs.functions⟩

include h

theorem carried_handle (name : String) : Carried σ σ' (handle r name) (handle r' name) fun _ _ => True := by
  rw [handle_eq, handle_eq]
  have hnote : Carried σ σ' _ _ fun _ _ => True :=
    Carried.update (fun s => { s with handled := s.handled ++ [name] }) (fun _ => rfl) (fun _ => rfl) trivial
  have hdraft : Carried σ σ' (load name >>= draft r) (load name >>= draft r') fun m m' =>
      m.writer.Lacks m'.writer ∧ m.reader.Lacks m'.reader :=
    (Carried.load h name).bind fun x y hxy => carried_draft hr hxy.2.2 (h.quotable hxy.2.1).2
  refine hnote.bind fun _ _ _ => hdraft.bind fun m m' hm s s' a t hs hrun => ?_
  cases hrun
  refine ⟨(), _, rfl, ⟨hs.trim, ?_⟩, trivial⟩
  exact .cons ⟨rfl, hm.1, hm.2⟩ (List.rel_append hs.functions .nil)

theorem carried_meet (name : String) : Carried σ σ' (meet r name) (meet r' name) fun _ _ => True := by
  refine Carried.get.bind fun s s' hs => ?_
  rw [hs.congr (fun u => u.handled) fun _ => rfl]
  split_ifs
  · exact carried_handle h hr name
  · exact Carried.pure trivial

/-! ### One step -/

def Differ (x y : Json) : Prop := x.Lacks y ∧ y.isQuotable = true

theorem lacks_premises : (lacking h).Premises Differ Differ (fun _ _ => True) r r' where
  fixed := h.fixed
  stable hd := hd.1.stable
  part hd hx := ⟨.refl _, Json.isQuotable_of_mem_parts hd.2 (hd.1.stable.inner hx).mem_parts⟩
  elements {_ x y} hd _ _ := by
    refine Carried.lift fun xs hxs => ?_
    obtain ⟨ys, hys, hall⟩ := hd.1.fields hxs
    refine ⟨ys, hys, rfl, hxs, ?_⟩
    have hquotable : ∀ f ∈ ys, f.isQuotable = true := by
      obtain ⟨ms, rfl, rfl⟩ := Parallel.exists_members_of_need hys
      exact fun f hf => Json.isQuotable_of_mem_parts hd.2 (Json.mem_parts_fieldList hf)
    exact ((List.forall₂_and_left ys xs).2 ⟨hquotable, hall.flip⟩).flip.imp fun _ _ hf => ⟨.inl hf.2, hf.1⟩
  load _ _ _ := Carries.imp (Carried.load h _) fun _ _ hxy => ⟨hxy.1, fun _ => ⟨.inr hxy.2.2, (h.quotable hxy.2.1).1⟩⟩
  meet _ _ _ _ := carried_meet h hr _

omit h hr in
/-- A default is put in where there was none, and every default stays. -/
theorem filledFrom_lacks (hxy : x.Lacks y) {a b : Encoder} (hab : a.Lacks b)
    (hp : p.isSound = true) (hsplit : ∀ key, y.get? "name" = some (.str key) → key ≠ "" →
      isIdentifier key = true → p.isSplit = true) : (filledFrom x p a).Lacks (filledFrom y p b) := by
  have hsame : y.get? "default" = x.get? "default" → (filledFrom x p a).Lacks (filledFrom y p b) := by
    intro heq
    unfold filledFrom
    rw [heq]
    split
    · exact hab
    · exact hab
    · exact hab.filled _
  rcases hxy with hxy | hxy
  · cases hxy with
    | refl => exact hsame rfl
    | @default members hm =>
      obtain ⟨key, hname, hne, hkey⟩ := hm.name
      have hnone : filledFrom (.obj (Json.without "default" members)) p a = a := by
        rw [filledFrom, Json.get?, Json.lookup_without_self]
      rw [hnone, filledFrom]
      split
      · exact hab
      · exact hab
      next d _ hd =>
        exact hab.fill hp (hsplit key hname hne hkey) (hm.default d (Json.mem_of_lookup hd)).1
  · cases hxy with
    | refl => exact hsame rfl
    | record hms _ => exact hsame (Json.lookup_of_lacks hms (by decide))

omit h hr in
theorem isSound_ownPlace (hy : y.isQuotable = true) (hp : p.isSound = true) :
    (Parallel.ownPlace y p).isSound = true := by
  unfold Parallel.ownPlace
  cases hname : y.get? "name" with
  | none => exact hp
  | some given =>
    rw [Option.getD_some]
    split_ifs
    · exact Place.isSound_member hp (Json.isLiteral_of_isQuotable hy hname)
    · exact hp

omit h hr in
theorem isSplit_ownPlace {key : String} (hkey : y.get? "name" = some (.str key)) (hne : key ≠ "")
    (hid : isIdentifier key = true) (p : Place) : (Parallel.ownPlace y p).isSplit = true := by
  have hgiven : Json.truthy (.str key) = true := by simpa [Json.truthy] using hne
  rw [Parallel.ownPlace, hkey, Option.getD_some, if_pos hgiven]
  exact Place.isSplit_member hid

/-- One step of generating code that writes. -/
theorem carried_encodeStep (hxy : x.Lacks y) (hy : y.isQuotable = true)
    (hp : p.isSound = true) :
    Carried σ σ' (encodeStep r x p) (encodeStep r' y p) Encoder.Lacks := by
  have hbranch : ∀ {types p q x y t u} {b b' : Code.Branch Encoder},
      Lockstep.Branches (fun _ => (· = ·)) (fun (_ _ : Unit) _ _ _ _ => Encoder.Lacks) () () () types p q x y t u b b' →
        Encoder.Lacks.Branch b b' := by
    rintro types p q x y t u b b'
      ⟨-, -, -, hguard, ⟨tag, -, htag, htag'⟩, htagged, hplain | ⟨-, hplain, hplain'⟩⟩
    · exact ⟨htag.trans htag'.symm, hguard, htagged, hplain⟩
    · exact ⟨htag.trans htag'.symm, hguard, htagged, by rw [hplain, hplain']; exact .refl _⟩
  have hrules : (lacking h).WriterRules Differ (fun p q => p = q ∧ p.isSound = true) (fun _ _ => True)
      (fun _ => (· = ·)) (fun _ _ _ _ _ _ => Encoder.Lacks) fun _ _ _ _ _ _ => Encoder.Lacks :=
    { mono := fun _ _ hab => hab
      null := .refl _
      primitive := fun _ hpq _ _ => hpq.1 ▸ .refl _
      fixed := fun _ hpq _ => hpq.1 ▸ .refl _
      recur := fun _ hpq _ _ => hpq.1 ▸ .refl _
      loaded := fun _ _ _ hab => hab
      reference := fun _ _ _ _ _ hab => hab
      logical := fun _ hpq _ _ => hpq.1 ▸ .refl _
      fields := fun _ _ _ hab => .fields (hab.results id)
      array := by
        rintro _ _ _ _ _ p q m n _ _ _ - ⟨rfl, -⟩ ⟨_, _, -, rfl, -⟩ - - hab
        exact hab.array _
      enum := fun _ hpq _ _ => hpq.1 ▸ .refl _
      map := by
        rintro _ _ _ _ _ _ p q k l m n _ _ _ - ⟨rfl, -⟩ ⟨_, _, -, rfl, -⟩ ⟨_, _, -, rfl, -⟩ - - hab
        exact hab.map _ _
      union := by
        rintro _ _ _ _ _ p q k l m n _ _ - ⟨rfl, -⟩ ⟨_, _, -, rfl, -⟩ ⟨_, _, -, rfl, -⟩ hbs
        exact .union (hbs.results hbranch) _ _ _
      unionField := by
        rintro _ _ _ _ _ _ p q _ _ k l m n _ _ - ⟨rfl, -⟩ - - ⟨_, _, -, rfl, -⟩ ⟨_, _, -, rfl, -⟩ hbs
        exact .union (hbs.results hbranch) _ _ _
      nested := fun hd hpq _ hname hab => by
        cases hpq.1
        have hname' := (hd.1.stable.get? (by decide)).trans hname
        refine filledFrom_lacks hd.1 hab (Place.isSound_member hpq.2 (Json.isLiteral_of_isQuotable hd.2 hname')) ?_
        intro key hkey _ hid
        cases hname'.symm.trans hkey
        exact Place.isSplit_member hid
      basic := fun {_ _ _ p _ _} hd hpq _ _ => by
        cases hpq.1
        rw [← hd.1.stable.ownPlace]
        exact filledFrom_lacks hd.1 (.refl _) (isSound_ownPlace hd.2 hpq.2) fun key hkey hne hid =>
          isSplit_ownPlace hkey hne hid p }
  have hwriting : (lacking h).Writing Differ Differ (fun _ _ => True) r r' (fun p q => p = q ∧ p.isSound = true)
      (fun _ => (· = ·)) (fun _ _ _ _ _ _ => Encoder.Lacks) fun _ _ _ _ _ _ => Encoder.Lacks :=
    { toPremises := lacks_premises h hr
      rules := hrules
      encode := fun hd hpq => hpq.1 ▸ hr.encode hd.1 hd.2 hpq.2
      guards := fun _ => Carried.guardOf h _
      value := fun hmn => hmn ▸ ⟨rfl, rfl⟩
      member := fun hd _ hname hpq =>
        hpq.1 ▸ ⟨rfl, Place.isSound_member hpq.2 (Json.isLiteral_of_isQuotable hd.2 hname)⟩
      text := fun hpq => hpq.1 ▸ ⟨.inl, .inl⟩ }
  exact hwriting.encodeStep (w := ()) ⟨hxy, hy⟩ ⟨rfl, hp⟩

/-- One step of generating code that reads. -/
theorem carried_decodeStep (hxy : x.Lacks y) (hy : y.isQuotable = true) (p : Place) :
    Carried σ σ' (decodeStep r x p) (decodeStep r' y p) Decoder.Lacks := by
  have hrules : (lacking h).ReaderRules Differ (· = ·) (fun _ _ => True) (fun _ _ _ _ _ _ => Decoder.Lacks)
      fun _ _ _ _ _ _ => Decoder.Lacks :=
    { mono := fun _ _ hab => hab
      null := fun hpq => hpq ▸ .refl _
      primitive := fun _ hpq _ _ => hpq ▸ .refl _
      fixed := fun _ hpq _ _ => hpq ▸ .primitive _ _ _
      basic := fun _ hpq _ _ => hpq ▸ .primitive _ _ _
      recur := fun _ hpq _ _ _ => hpq ▸ .refl _
      loaded := fun _ _ _ hab => hab
      reference := fun _ _ _ _ _ hab => hab
      logical := fun _ hpq _ _ => hpq ▸ .refl _
      record := fun _ hpq _ _ _ hab => hpq ▸ .record ((hab.rows fun _ _ => id).results id)
      array := by
        rintro _ _ _ _ _ _ _ p _ i j k l m n _ _ _ - rfl ⟨_, _, -, rfl, -⟩ ⟨_, _, -, rfl, -⟩ ⟨_, _, -, rfl, -⟩ - - hab
        exact hab.array _ _ _
      enum := fun _ hpq _ _ => hpq ▸ .refl _
      map := by
        rintro _ _ _ _ _ _ _ p _ i j k l m n _ _ _ - rfl ⟨_, _, -, rfl, -⟩ ⟨_, _, -, rfl, -⟩ ⟨_, _, -, rfl, -⟩ - - hab
        exact hab.map _ _ _
      union := by
        rintro _ _ _ _ p _ m n _ _ - rfl ⟨_, _, -, rfl, -⟩ hcs
        exact .union ((hcs.rows fun _ _ => id).results fun hc => hc.2.2.2) _ _
      unionField := by
        rintro _ _ _ _ _ p _ _ _ m n _ _ - rfl - - ⟨_, _, -, rfl, -⟩ hcs
        exact .union ((hcs.rows fun _ _ => id).results fun hc => hc.2.2.2) _ _
      nested := fun _ _ _ _ hab => hab }
  have hreading : (lacking h).Reading Differ Differ (fun _ _ => True) r r' (· = ·) (fun _ _ _ _ _ _ => Decoder.Lacks)
      fun _ _ _ _ _ _ => Decoder.Lacks :=
    { toPremises := lacks_premises h hr
      rules := hrules
      decode := fun hd hpq => hpq ▸ hr.decode hd.1 hd.2
      value := fun hmn => hmn ▸ rfl
      entry := fun hpq hmn => hpq ▸ hmn ▸ rfl
      member := fun hpq => hpq ▸ rfl }
  exact hreading.decodeStep (w := ()) ⟨hxy, hy⟩ rfl

end Gen

namespace Recursion

variable {σ σ' : Setting} (h : σ.Lacks σ')
include h

theorem lacks_upTo {n m : Nat} (hnm : n ≤ m) : Recursion.Lacks σ σ' (upTo n) (upTo m) := by
  induction n generalizing m with
  | zero => exact ⟨fun _ _ _ => Gen.Carried.throw, fun _ _ => Gen.Carried.throw⟩
  | succ n ih =>
    obtain ⟨m, rfl⟩ : ∃ k, m = k + 1 := ⟨m - 1, by omega⟩
    have hr := ih (Nat.le_of_succ_le_succ hnm)
    exact ⟨fun hxy hy hp => Gen.carried_encodeStep h hr hxy hy hp, fun hxy hy => Gen.carried_decodeStep h hr hxy hy _⟩

end Recursion

namespace Codec

variable {identifier : String}

/-- A routine that can be generated for a stored schema can be generated with its defaults. -/
theorem generate_of_lacks {store store' : Store} (h : store.Lacks store') (hfixed : store.contains "fixed" = false)
    (hquotable : ∀ {name x}, store'.Loads name x → x.isQuotable = true ∧ (Schema.normal x).isQuotable = true)
    (registry registry' : Schema.Registry) {r : Routine} (hr : generate store registry identifier = .ok r) :
    ∃ r', generate store' registry' identifier = .ok r' ∧ r.Lacks r' := by
  have hsetting : Setting.Lacks { store } { store := store' } := ⟨h, hfixed, rfl, hquotable⟩
  have hload : Carries (fun _ _ => True) (store.load identifier identifier) (store'.load identifier identifier)
      fun x y => x.RecordLacks y ∧ store'.Loads identifier y := by
    intro q q' x t _ hx
    obtain ⟨y, t', hy, -, hxy⟩ := Store.lacks_load h identifier identifier q q' x t trivial hx
    exact ⟨y, t', hy, trivial, hxy, identifier, q', t', hy⟩
  have haction : Gen.Carried { store } { store := store' } (do
      let schema ← Gen.withRegistry (store.load identifier identifier)
      Gen.routine (← Gen.recursionFor schema) schema) (do
      let schema ← Gen.withRegistry (store'.load identifier identifier)
      Gen.routine (← Gen.recursionFor schema) schema) Routine.Lacks := by
    refine (Gen.Carried.withRegistry hload).bind fun x y hxy => ?_
    have hrecursion : Gen.Carried { store } { store := store' } (Gen.recursionFor x) (Gen.recursionFor y)
        (Recursion.Lacks { store } { store := store' }) :=
      Carries.pure (Recursion.lacks_upTo hsetting (h.reach_le hxy.1))
    exact hrecursion.bind fun r r' hr => Gen.carried_routine hr hxy.1 (hquotable hxy.2).2
  obtain ⟨t, hrun⟩ := exists_of_fst hr
  obtain ⟨r', t', hrun', -, hlacks⟩ :=
    haction (.new identifier registry) (.new identifier registry') r t ⟨rfl, .nil⟩ hrun
  exact ⟨r', congrArg Prod.fst hrun', hlacks⟩

/-- A codec that can be built from schemas without defaults can be built from the schemas with them. -/
theorem build_of_lacks {schemata schemata' : Schemata} (h : Database.Lacks schemata schemata')
    (hquotable : ∀ {name x}, Schema.Defines schemata' name x → x.isQuotable = true) {c : Codec}
    (hc : build schemata identifier = .ok c) : ∃ c', build schemata' identifier = .ok c' := by
  obtain ⟨store, registry, hstore⟩ := exists_store_of_build hc
  obtain ⟨store', registry', hstore', -, hlacks⟩ := Store.lacks_build h [] [] store registry trivial hstore
  have hdefined : ∀ {name x}, store'.Loads name x → x.isQuotable = true ∧ (Schema.normal x).isQuotable = true := by
    intro name x hx
    exact ⟨hquotable (hx.defines hstore'), hquotable (.normal (hx.defines hstore'))⟩
  obtain ⟨hgenerate, hcompiles⟩ := build_eq_ok hstore hc
  have hfixed : store.contains "fixed" = false := by
    rw [← Bool.not_eq_true]
    exact fun hfixed => absurd (Store.hasDot_of_contains hstore hfixed) (by decide)
  obtain ⟨r', hr', hroutine⟩ := generate_of_lacks hlacks hfixed hdefined registry registry' hgenerate
  refine ⟨⟨r'⟩, ?_⟩
  rw [build, hstore']
  simp only [hr', hroutine.compiles hcompiles]
  rfl

end Codec

end AvroCodec
