import AvroCodec.Proofs.LackingStore
import AvroCodec.Proofs.Twice

/-!
# Code that writes without a default

Two generators work for stores of which the first lacks defaults. They draw the same variables, and where
the first succeeds so does the second. The code differs in statements that put defaults in, and it can be
compiled if the code without them can: `Encoder.Lacks`.

A default is put in at a place that is named in the code once more. The names on the way to it have to be
such that they can stand between quotes, which is what `Json.isQuotable` tells of a definition.
-/

namespace AvroCodec

open Code

namespace Json

variable {x d : Json}

mutual

/-- Whether the names in a document can be pasted between quotes. -/
def isQuotable : Json → Bool
  | .arr items => itemsQuotable items
  | .obj members => membersQuotable members
  | _ => true

def itemsQuotable : List Json → Bool
  | [] => true
  | x :: xs => isQuotable x && itemsQuotable xs

def membersQuotable : List (String × Json) → Bool
  | [] => true
  | (k, x) :: rest => (k != "name" || isLiteral '\'' x.pasted) && isQuotable x && membersQuotable rest

end

theorem isQuotable_of_mem_items {items : List Json} (h : itemsQuotable items = true) (hx : x ∈ items) :
    x.isQuotable = true := by
  induction items with
  | nil => cases hx
  | cons y ys ih =>
    rw [itemsQuotable, Bool.and_eq_true] at h
    rcases List.mem_cons.1 hx with rfl | hx
    · exact h.1
    · exact ih h.2 hx

theorem isQuotable_of_lookup {key : String} {members : Members}
    (h : membersQuotable members = true) (hx : lookup key members = some x) :
    (key = "name" → isLiteral '\'' x.pasted = true) ∧ x.isQuotable = true := by
  induction members with
  | nil => cases hx
  | cons m rest ih =>
    obtain ⟨k, y⟩ := m
    simp only [membersQuotable, Bool.and_eq_true, Bool.or_eq_true, bne_iff_ne] at h
    by_cases hk : k = key
    · simp only [lookup, hk, if_true, Option.some.injEq] at hx
      subst hk hx
      exact ⟨fun hname => h.1.1.resolve_left fun hne => hne hname, h.1.2⟩
    · simp only [lookup, hk, if_false] at hx
      exact ih h.2 hx

theorem isLiteral_of_isQuotable (h : d.isQuotable = true) (hx : d.get? "name" = some x) :
    isLiteral '\'' x.pasted = true := by
  cases d with
  | obj members => exact (isQuotable_of_lookup h hx).1 rfl
  | _ => cases hx

theorem isQuotable_of_mem_elements {elements : List Json} (h : d.isQuotable = true)
    (helements : d.elements? = some elements) (hx : x ∈ elements) : x.isQuotable = true := by
  cases d with
  | arr items =>
    cases helements
    exact isQuotable_of_mem_items h hx
  | str s =>
    cases helements
    obtain ⟨c, -, rfl⟩ := List.mem_map.1 hx
    rfl
  | obj members =>
    cases helements
    obtain ⟨m, -, rfl⟩ := List.mem_map.1 hx
    rfl
  | _ => cases helements

theorem isQuotable_of_mem_parts (h : d.isQuotable = true) (hx : x ∈ d.parts) : x.isQuotable = true := by
  cases d with
  | arr branches => exact isQuotable_of_mem_items h hx
  | obj members =>
    have hlookup : ∀ {key y}, lookup key members = some y → y.isQuotable = true :=
      fun hy => (isQuotable_of_lookup h hy).2
    simp only [parts, List.mem_append, Option.mem_toList] at hx
    rcases hx with ((hx | hx) | hx) | hx
    · exact hlookup hx
    · exact hlookup hx
    · have hfields : ((lookup "fields" members).getD (.arr [])).isQuotable = true := by
        cases hfields : lookup "fields" members with
        | none => rfl
        | some y => exact hlookup hfields
      unfold Schema.fieldList at hx
      cases helements : ((lookup "fields" members).getD (.arr [])).elements? with
      | none =>
        rw [helements] at hx
        cases hx
      | some elements =>
        rw [helements] at hx
        exact isQuotable_of_mem_elements hfields helements hx
    · split at hx
      next inner htype => exact List.mem_singleton.1 hx ▸ hlookup htype
      next branches htype => exact isQuotable_of_mem_items (hlookup htype) hx
      next => cases hx
  | _ => cases hx

end Json

namespace Json.Lacks

variable {x y : Json} (h : x.Lacks y)
include h

theorem get? {key : String} (hfields : key ≠ "fields") (hdefault : key ≠ "default") : y.get? key = x.get? key := by
  rcases h.cases with rfl | ⟨ms, ms', rfl, rfl, hlookup, -⟩
  · rfl
  · exact hlookup key hfields hdefault

theorem stable : Parallel.Stable x y where
  shape := by
    rcases h.cases with rfl | ⟨ms, ms', rfl, rfl, -⟩
    · exact .inl rfl
    · exact .inr ⟨ms, ms', rfl, rfl⟩
  get? {key} hkey := by
    have hne : ∀ {other}, other ∉ Parallel.stableKeys → key ≠ other := fun hother heq => hother (heq ▸ hkey)
    exact h.get? (hne (by decide)) (hne (by decide))

theorem fields {xs : List Json} (hxs : x.need "fields" >>= Json.needElements = .ok xs) :
    ∃ ys, y.need "fields" >>= Json.needElements = .ok ys ∧ List.Forall₂ FieldLacks xs ys := by
  rcases h.cases with rfl | ⟨ms, ms', rfl, rfl, -, heq | ⟨fs, fs', hfs, hfs', hall⟩⟩
  · exact ⟨xs, hxs, forall₂_refl .refl xs⟩
  · rw [Json.need] at hxs ⊢
    exact ⟨xs, heq ▸ hxs, forall₂_refl .refl xs⟩
  · rw [Schema.need_eq_ok.2 hfs] at hxs
    cases hxs
    exact ⟨fs', by rw [Schema.need_eq_ok.2 hfs']; rfl, hall⟩

end Json.Lacks

/-! ### Code -/

namespace Code

theorem Place.isSound_member {p : Place} {name : Json} (hp : p.isSound = true)
    (hname : isLiteral '\'' name.pasted = true) : (p.member name).isSound = true := by
  simp only [Place.isSound, Place.member, List.all_append, List.all_cons, List.all_nil, Bool.and_true,
    Bool.and_eq_true]
  exact ⟨hp, hname⟩

theorem Place.isSplit_member {p : Place} {key : String} (h : isIdentifier key = true) :
    (p.member (.str key)).isSplit = true := by
  have hchar := hasChar_of_isIdentifier (c := '[') h (by decide)
  simp only [Place.isSplit, Place.member, List.getLast?_append, List.getLast?_singleton, Option.some_or]
  rw [Json.pasted, hchar]
  rfl

namespace Encoder

/-- The second code has statements that put defaults in, which the first may lack. -/
structure Lacks (a b : Encoder) : Prop where
  blank : b.isBlank = true → a.isBlank = true
  sound : ∀ functions, a.isSound functions = true → b.isSound functions = true

namespace Lacks

variable {a b : Encoder} {p : Place}

theorem refl (a : Encoder) : Lacks a a := ⟨id, fun _ => id⟩

theorem fields {as bs : List Encoder} (h : List.Forall₂ Lacks as bs) : Lacks (.fields as) (.fields bs) := by
  induction h with
  | nil => exact .refl _
  | cons hab _ ih =>
    refine ⟨fun hblank => ?_, fun functions hsound => ?_⟩
    · simp only [isBlank, areBlank, Bool.and_eq_true] at hblank ih ⊢
      exact ⟨hab.blank hblank.1, ih.blank hblank.2⟩
    · simp only [isSound, areSound, Bool.and_eq_true] at hsound ⊢
      exact ⟨hab.sound functions hsound.1, ih.sound functions hsound.2⟩

theorem array (h : Lacks a b) (item : String) : Lacks (.array p item a) (.array p item b) := by
  refine ⟨id, fun functions hsound => ?_⟩
  simp only [isSound, Bool.and_eq_true, Bool.not_eq_true'] at hsound ⊢
  refine ⟨⟨hsound.1.1, ?_⟩, h.sound functions hsound.2⟩
  rw [← Bool.not_eq_true]
  exact fun hblank => absurd (h.blank hblank) (by rw [hsound.1.2]; exact Bool.false_ne_true)

theorem map (h : Lacks a b) (key value : String) : Lacks (.map p key value a) (.map p key value b) := by
  refine ⟨id, fun functions hsound => ?_⟩
  simp only [isSound, Bool.and_eq_true] at hsound ⊢
  exact ⟨hsound.1, h.sound functions hsound.2⟩

theorem fill (h : Lacks a b) {d : Json} (hp : p.isSound = true) (hsplit : p.isSplit = true)
    (hd : (Default.value? d).isSome = true) : Lacks a (.filled p d b) := by
  refine ⟨nofun, fun functions hsound => ?_⟩
  rw [isSound, hp, hsplit, hd]
  exact h.sound functions hsound

theorem filled (h : Lacks a b) (d : Json) : Lacks (.filled p d a) (.filled p d b) := by
  refine ⟨id, fun functions hsound => ?_⟩
  simp only [isSound, Bool.and_eq_true] at hsound ⊢
  exact ⟨hsound.1, h.sound functions hsound.2⟩

structure Branch (a b : Code.Branch Encoder) : Prop where
  tag : a.tag = b.tag
  guard : a.guard = b.guard
  tagged : Lacks a.tagged b.tagged
  plain : Lacks a.plain b.plain

theorem union {as bs : List (Code.Branch Encoder)} (h : List.Forall₂ Branch as bs) (subject : Subject)
    (tag data : String) : Lacks (.union subject tag data as) (.union subject tag data bs) := by
  have hbranches : ∀ functions, branchesSound functions as = true → branchesSound functions bs = true := by
    intro functions
    induction h with
    | nil => exact id
    | @cons a b _ _ hab _ ih =>
      obtain ⟨t, _, g, tagged, plain⟩ := a
      obtain ⟨_, _, _, tagged', plain'⟩ := b
      obtain ⟨rfl, rfl, htagged, hplain⟩ := hab
      simp only [branchesSound, Bool.and_eq_true]
      rintro ⟨⟨⟨⟨ht, hg⟩, hsound⟩, hsound'⟩, hrest⟩
      exact ⟨⟨⟨⟨ht, hg⟩, htagged.sound functions hsound⟩, hplain.sound functions hsound'⟩, ih hrest⟩
  have hempty : bs.isEmpty = as.isEmpty := by
    cases h <;> rfl
  refine ⟨id, fun functions hsound => ?_⟩
  simp only [isSound, Bool.and_eq_true, hempty] at hsound ⊢
  exact ⟨hsound.1, hbranches functions hsound.2⟩

end Lacks

end Encoder

namespace Decoder

structure Lacks (a b : Decoder) : Prop where
  sound : ∀ functions, a.isSound functions = true → b.isSound functions = true
  assigned : b.assigned = a.assigned
  used : b.used = a.used

namespace Lacks

variable {a b : Decoder} {p : Place}

theorem refl (a : Decoder) : Lacks a a := ⟨fun _ => id, rfl, rfl⟩

theorem isComplete (h : Lacks a b) {functions : List String} (ha : a.isComplete functions = true) :
    b.isComplete functions = true := by
  simp only [Decoder.isComplete, Bool.and_eq_true, h.assigned, h.used] at ha ⊢
  exact ⟨h.sound functions ha.1, ha.2⟩

theorem primitive (type : String) (d d' : Json) : Lacks (.primitive type d p) (.primitive type d' p) :=
  ⟨fun _ => id, rfl, rfl⟩

theorem record {as bs : List Decoder} (h : List.Forall₂ Lacks as bs) : Lacks (.record p as) (.record p bs) := by
  induction h with
  | nil => exact .refl _
  | cons hab _ ih =>
    obtain ⟨hsound, hassigned, hused⟩ := ih
    simp only [Decoder.isSound, Decoder.assigned, Decoder.used, Bool.and_eq_true, List.append_cancel_left_eq,
      List.cons.injEq, true_and] at hsound hassigned hused
    refine ⟨fun functions hall => ?_, ?_, ?_⟩
    · simp only [Decoder.isSound, areSound, Bool.and_eq_true] at hall ⊢
      exact ⟨hall.1, hab.sound functions hall.2.1, (hsound functions ⟨hall.1, hall.2.2⟩).2⟩
    · rw [Decoder.assigned, Decoder.assigned, assignedParts, assignedParts, hab.assigned, hassigned]
    · rw [Decoder.used, Decoder.used, usedParts, usedParts, hab.used, hused]

theorem array (h : Lacks a b) (index count item : String) :
    Lacks (.array p index count item a) (.array p index count item b) := by
  refine ⟨fun functions hall => ?_, ?_, ?_⟩
  · simp only [Decoder.isSound, Bool.and_eq_true] at hall ⊢
    exact ⟨hall.1, h.sound functions hall.2⟩
  · rw [Decoder.assigned, Decoder.assigned, h.assigned]
  · rw [Decoder.used, Decoder.used, h.used]

theorem map (h : Lacks a b) (key count index : String) :
    Lacks (.map p key count index a) (.map p key count index b) := by
  refine ⟨fun functions hall => ?_, ?_, ?_⟩
  · simp only [Decoder.isSound, Bool.and_eq_true] at hall ⊢
    exact ⟨hall.1, h.sound functions hall.2⟩
  · rw [Decoder.assigned, Decoder.assigned, h.assigned]
  · rw [Decoder.used, Decoder.used, h.used]

theorem union {cs cs' : List (Json × Decoder)} (h : List.Forall₂ (fun c c' => Lacks c.2 c'.2) cs cs')
    (index : String) (wrapped : Bool) : Lacks (.union p index wrapped cs) (.union p index wrapped cs') := by
  induction h with
  | nil => exact .refl _
  | @cons c c' _ _ hab _ ih =>
    obtain ⟨hsound, hassigned, hused⟩ := ih
    obtain ⟨_, a⟩ := c
    obtain ⟨_, b⟩ := c'
    simp only [Decoder.isSound, Decoder.assigned, Decoder.used, Bool.and_eq_true] at hsound hassigned hused
    refine ⟨fun functions hall => ?_, ?_, ?_⟩
    · simp only [Decoder.isSound, casesSound, Bool.and_eq_true] at hall ⊢
      exact ⟨hall.1, hab.sound functions hall.2.1, (hsound functions ⟨hall.1, hall.2.2⟩).2⟩
    · rw [Decoder.assigned, Decoder.assigned, assignedCases, assignedCases, hab.assigned, hassigned]
    · rw [Decoder.used, Decoder.used, usedCases, usedCases, hab.used, hused]

end Lacks

end Decoder

structure FunctionLacks (f g : String × Routine) : Prop where
  name : f.1 = g.1
  writer : f.2.writer.Lacks g.2.writer
  reader : f.2.reader.Lacks g.2.reader

end Code

/-! ### Two generators -/

def Generator.trim (s : Generator) : Generator := { s with registry := [], helpers := [] }

structure Generator.Level (s s' : Generator) : Prop where
  trim : s.trim = s'.trim
  functions : List.Forall₂ FunctionLacks (Routine.helperFunctions s.helpers) (Routine.helperFunctions s'.helpers)

theorem Generator.Level.congr {β : Type} {s s' : Generator} (h : s.Level s') (f : Generator → β)
    (hf : ∀ u : Generator, f u.trim = f u) : f s = f s' := by
  rw [← hf s, h.trim, hf]

/-- What two generators work with, of which the first lacks defaults. -/
structure Setting.Lacks (σ σ' : Setting) : Prop where
  store : σ.store.Lacks σ'.store
  fixed : σ.store.contains "fixed" = false
  extended : σ'.extended = σ.extended
  quotable : ∀ {name x}, σ'.store.Loads name x → x.isQuotable = true ∧ (Schema.normal x).isQuotable = true

theorem Setting.Lacks.resembles {σ σ' : Setting} (h : σ.Lacks σ') : σ.Resembles σ' where
  contains := h.store.contains
  cycles name := by rw [Store.isCycleStarting, Store.isCycleStarting, h.store.cycles]
  extended := h.extended

namespace Gen

variable {α β γ δ : Type} {σ σ' : Setting} {x : Gen α} {y : Gen β} {Q : α → β → Prop} {S : γ → δ → Prop}

/-- Where the first generator succeeds, so does the second. -/
def Carried (σ σ' : Setting) (x : Gen α) (y : Gen β) (Q : α → β → Prop) : Prop :=
  Carries Generator.Level (x σ) (y σ') Q

namespace Carried

theorem pure {a : α} {b : β} (h : Q a b) : Carried σ σ' (Pure.pure a) (Pure.pure b) Q :=
  Carries.pure h

theorem throw {e : SchemaError} : Carried σ σ' (MonadExcept.throw e : Gen α) y Q :=
  Carries.throw

theorem bind {f : α → Gen γ} {g : β → Gen δ} (h : Carried σ σ' x y Q)
    (hf : ∀ a b, Q a b → Carried σ σ' (f a) (g b) S) : Carried σ σ' (x >>= f) (y >>= g) S :=
  Carries.bind h hf

theorem lift {o : Except SchemaError α} {o' : Except SchemaError β} (h : Succeeds o o' Q) :
    Carried σ σ' (liftM o) (liftM o') Q :=
  Carries.lift h

theorem of_run {v : Generator → α} {u : Generator → Generator} (hx : ∀ σ s, x σ s = (.ok (v s), u s))
    (hv : ∀ s : Generator, v s.trim = v s) (hu : ∀ s, (u s).trim = (u s.trim).trim)
    (hhelpers : ∀ s, (u s).helpers = s.helpers) {Q : α → α → Prop} (hQ : ∀ s, Q (v s) (v s)) : Carried σ σ' x x Q := by
  intro s s' a t hs hrun
  rw [hx] at hrun
  cases hrun
  refine ⟨v s', u s', hx σ' s', ⟨?_, ?_⟩, ?_⟩
  · rw [hu s, hs.trim, ← hu]
  · rw [hhelpers, hhelpers]
    exact hs.functions
  · rw [← hv s', ← hs.trim, hv]
    exact hQ s

theorem update (u : Generator → Generator) (hu : ∀ s, (u s).trim = (u s.trim).trim)
    (hhelpers : ∀ s, (u s).helpers = s.helpers) {Q : Unit → Unit → Prop} (hQ : Q () ()) :
    Carried σ σ' (modify u) (modify u) Q :=
  of_run (fun _ _ => rfl) (fun _ => rfl) hu hhelpers fun _ => hQ

theorem takeDeclarations : Carried σ σ' Gen.takeDeclarations Gen.takeDeclarations fun _ _ => True :=
  of_run (u := fun s => { s with declarations := [] }) (fun _ _ => rfl) (fun _ => rfl) (fun _ => rfl) (fun _ => rfl)
    fun _ => trivial

theorem get : Carried σ σ' MonadState.get MonadState.get Generator.Level := by
  intro s s' a t hs hrun
  cases hrun
  exact ⟨s', s', rfl, hs, hs⟩

theorem withRegistry {x : Schema.WithRegistry α} {y : Schema.WithRegistry β}
    (h : Carries (fun _ _ => True) x y Q) : Carried σ σ' (Gen.withRegistry x) (Gen.withRegistry y) Q := by
  intro s s' a t hs hrun
  rw [Parallel.withRegistry_run] at hrun
  rcases hx : x s.registry with ⟨o, q⟩
  rw [hx] at hrun
  cases hrun
  obtain ⟨b, q', hy, -, hab⟩ := h s.registry s'.registry a q trivial hx
  refine ⟨b, { s' with registry := q' }, ?_, ⟨?_, hs.functions⟩, hab⟩
  · rw [Parallel.withRegistry_run, hy]
  · exact hs.trim

end Carried

section Lacks

variable (h : σ.Lacks σ')
include h

theorem Carried.load (name : String) : Carried σ σ' (Gen.load name) (Gen.load name) fun x y =>
    σ.store.Loads name x ∧ σ'.store.Loads name y ∧ x.RecordLacks y := by
  intro s s' a t hs hrun
  have hcontext : s.context = s'.context := hs.congr Generator.context fun _ => rfl
  have hload : Carried σ σ' (Gen.withRegistry (σ.store.load name s.context))
      (Gen.withRegistry (σ'.store.load name s'.context)) Json.RecordLacks :=
    Carried.withRegistry (hcontext ▸ Store.lacks_load h.store name s.context)
  obtain ⟨b, t', hb, ht, hab⟩ := hload s s' a t hs hrun
  exact ⟨b, t', hb, ht, loads_of_load hrun, loads_of_load hb, hab⟩

omit h in
/-- Two generators at the same point, of which the second may go on further. -/
def lacking (h : σ.Lacks σ') : Lockstep Unit σ σ' where
  holds _ x y Q := Carried σ σ' x y (Q ())
  resembles := h.resembles
  of_eq hxy hx hy := by
    unfold Carried
    rw [hx, hy]
    exact hxy
  pure := Carried.pure
  throw _ _ := Carried.throw
  bind hxy hf := Carried.bind hxy fun a b hab => hf () a b le_rfl hab
  contexts := Eq
  drawn _ _ _ := Eq
  stored _ := rfl
  draw {_ _ _ kind z _ _ _} hz hf := by
    obtain ⟨n, u, -, hrun⟩ := hz.exists_count
    have hdraw : Carried σ σ' z z fun a b => ∃ m, a = variableName kind m ∧ b = variableName kind m :=
      Carried.of_run hrun (fun _ => rfl) (fun _ => rfl) (fun _ => rfl) fun s => ⟨n s.counters, rfl, rfl⟩
    refine hdraw.bind ?_
    rintro _ _ ⟨m, rfl, rfl⟩
    exact hf () m m le_rfl rfl
  declare {_ _ _ type kind m _} _ hmn := hmn ▸ Carried.update
    (fun s => { s with declarations := s.declarations ++ [declarationText type (variableName kind m)] })
    (fun _ => rfl) (fun _ => rfl) trivial
  requireReady := by
    refine Carried.get.bind fun s s' hs => ?_
    rw [hs.congr Generator.ready fun _ => rfl]
    split_ifs
    · exact Carried.throw
    · exact Carried.pure trivial
  get := Carries.imp Carried.get fun _ _ hs => hs.congr Generator.context fun _ => rfl
  setContext {_ c _} hc := hc ▸ Carried.update (fun s => { s with context := c }) (fun _ => rfl) (fun _ => rfl) trivial

theorem Carried.guardOf (d : Json) : Carried σ σ' (Gen.guardOf d) (Gen.guardOf d) (· = ·) := by
  have hrules : (lacking h).GuardRules (fun _ x y => x.RecordLacks y) (· = ·) :=
    { stable := fun hxy => Json.Lacks.stable (.inr hxy)
      null := rfl
      value := fun _ => rfl
      object := fun _ _ => rfl
      load := fun _ _ => Carries.imp (Carried.load h _) fun _ _ hxy => hxy.2.2
      exhausted := fun _ => Carries.throw }
  change Carried σ σ' (Gen.guardIn _ d) (Gen.guardIn _ d) (· = ·)
  rw [h.store.database.sizes_le.1]
  exact (lacking h).guardIn (w := ()) hrules (.refl d)

end Lacks

end Gen

end AvroCodec
