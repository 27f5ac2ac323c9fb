import AvroCodec.Proofs.LockstepWrite
import AvroCodec.Proofs.Parallel

/-!
# Two runs of code generation for writing

Whatever a `Parallel` says of code that writes is carried from the types inside a schema to the schema, if
it keeps the rules below.
-/

namespace AvroCodec

open Code Gen

namespace Parallel

variable {W : Type} [Preorder W]

/-- What is said of a branch of a union of the given types, where a value without a tag is at a place. -/
structure BranchHolds (R : Parallel W) (w : W) (types : List Json) (place : Place) (data : String)
    (b : Branch Encoder) : Prop where
  exists_type : ∃ type ∈ types, ∃ tag, tagOf type = .ok tag ∧ b.tag = tag.pasted ∧
    R.encoder w type (.of data) b.tagged ∧ R.encoder w type place b.plain
  guard : R.guard b.guard

/-- What has to hold of code for a type, given what holds of the code for the types inside it. -/
structure EncoderRules (R : Parallel W) (σ : Setting) (D : Json → Prop) : Prop where
  mono : ∀ {w w' d p a}, w ≤ w' → R.encoder w d p a → R.encoder w' d p a
  null : ∀ {w d p}, d.Refers "null" → R.encoder w d p .null
  primitive : ∀ {w d p name}, D d → d.Refers name → R.encoder w d p (.primitive name p)
  recur : ∀ {w d p name}, D d → d.Refers name → R.met w name → R.encoder w d p (.recur name p)
  loaded : ∀ {w d p name x a}, D d → d.Refers name → σ.store.Loads name x → R.encoder w x p a →
    R.encoder w d p a
  reference : ∀ {w d p name x f a}, D d → d.get? "type" = some (.str name) → d.get? "name" = some f →
    σ.store.Loads name x → R.encoder w x (p.member f) a → R.encoder w d p a
  logical : ∀ {w d p kind base}, D d → d.get? "logicalType" = some (.str kind) →
    d.get? "type" = some base → R.encoder w d p (.logical (logicalOf kind base d) p)
  fields : ∀ {w members p as}, D (.obj members) →
    List.Forall₂ (fun x a => R.encoder w x p a) (Schema.fieldList members) as →
    R.encoder w (.obj members) p (.fields as)
  array : ∀ {w d p n x a}, D d → d.get? "items" = some x →
    R.encoder w x (.of (variableName "val" n)) a →
    R.encoder w d p (.array p (variableName "val" n) a)
  enum : ∀ {w d p symbols}, D d → d.get? "symbols" = some symbols → R.encoder w d p (.enum p symbols)
  map : ∀ {w d p m n x a}, D d → d.get? "values" = some x →
    R.encoder w x (.of (variableName "val" n)) a →
    R.encoder w d p (.map p (variableName "key" m) (variableName "val" n) a)
  union : ∀ {w types p m n bs}, D (.arr types) →
    (∀ b ∈ bs, R.BranchHolds w types p (variableName "val" n) b) →
    R.encoder w (.arr types) p
      (.union (.value p) (variableName "type" m) (variableName "val" n) bs)
  unionField : ∀ {w d types key p m n bs}, D d → d.get? "type" = some (.arr types) →
    d.get? "name" = some (.str key) →
    (∀ b ∈ bs, R.BranchHolds w types (p.member (.str key)) (variableName "val" n) b) →
    R.encoder w d p (.union (.member p key) (variableName "type" m) (variableName "val" n) bs)
  nested : ∀ {w d p inner f a}, D d → d.get? "type" = some (.obj inner) → d.get? "name" = some f →
    R.encoder w (.obj inner) (p.member f) a → R.encoder w d p (filledFrom d (p.member f) a)
  basic : ∀ {w d p name}, D d → d.get? "type" = some (.str name) → isBasic name = true →
    R.encoder w d p (filledFrom d (ownPlace d p) (.primitive name (ownPlace d p)))

/-- Generating code for schemas of which `D` holds follows. -/
structure Matches (R : Parallel W) (σ : Setting) (D : Json → Prop) (r r' : Recursion) : Prop where
  encode : ∀ {w d d' p}, D d → d.Alike d' →
    R.Follows σ w (r.encode d p) (r'.encode d' p) fun w a b => a = b ∧ R.encoder w d p a
  decode : ∀ {w d d' p}, D d → d.Alike d' →
    R.Follows σ w (r.decode d p) (r'.decode d' p) fun w a b => a = b ∧ R.decoder w d p a

/-- What two runs can rely on when they generate code for a schema of which `D` holds: they follow one
another for the types inside it, for which `D'` holds, and for the definitions it refers to. -/
structure Premises (R : Parallel W) (σ : Setting) (D D' : Json → Prop) (r r' : Recursion) : Prop where
  lenient : R.Lenient
  contexts : ∀ {name}, σ.store.contains name = true → R.contexts name name
  dotted : ∀ {name}, σ.store.contains name = true → Schema.hasDot name = true
  parts : ∀ {d x}, D d → x ∈ d.parts → D' x
  load : ∀ {w d name}, D d → d.Refers name → σ.store.contains name = true →
    R.Follows σ w (load name) (load name) fun _ x y =>
      x.Alike y ∧ σ.store.Loads name x ∧ (σ.store.isCycleStarting name = false → D' x)
  meet : ∀ {w d name}, D d → d.Refers name → σ.store.isCycleStarting name = true →
    R.Follows σ w (meet r name) (meet r' name) fun w _ _ => R.met w name
  guard : ∀ {w x}, D' x → R.Follows σ w (guardOf x) (guardOf x) fun _ g g' =>
    g = g' ∧ R.guard g
  line : ∀ {type kind n}, (type, kind) ∈ declared →
    R.line (declarationText type (variableName kind n))
  inner : R.Matches σ D' r r'

variable {R : Parallel W} {σ : Setting} {w : W} {D D' : Json → Prop} {r r' : Recursion}

open Gen

def writers (R : Parallel W) : Lockstep.Writers W := fun _ w d _ p _ a b => a = b ∧ R.encoder w d p a

theorem filledFrom_alike {d d' : Json} (h : d.Alike d') (p : Place) (a : Encoder) :
    filledFrom d p a = filledFrom d' p a := by
  rw [filledFrom, filledFrom, h.get? (by decide)]

namespace Premises

variable (hp : R.Premises σ D D' r r')
include hp

def lockstep : Lockstep W σ σ := R.lockstep σ hp.lenient hp.contexts hp.line

theorem premises : hp.lockstep.Premises (fun d d' => D d ∧ d.Alike d') (fun d d' => D' d ∧ d.Alike d') R.met r r' :=
  .of_alike (fun hd => hd.2) (fun hd hx => ⟨hp.parts hd.1 hx, .refl _⟩)
    (by rw [← Bool.not_eq_true]; exact fun h => absurd (hp.dotted h) (by decide))
    (fun hd hname hstored => (hp.load hd.1 hname hstored).imp fun _ _ _ _ h => ⟨h.2.1, fun hflag => ⟨h.2.2 hflag, h.1⟩⟩)
    fun hd hname _ => hp.meet hd.1 hname

omit [Preorder W] hp in
theorem branches_same {w₀ w₁ w : W} {types : List Json} {p : Place} {data : String} {bs bs' : List (Branch Encoder)}
    (hnull : ∀ {w d p}, d.Refers "null" → R.encoder w d p .null)
    (h : Lockstep.AllBranches (fun _ g g' => g = g' ∧ R.guard g) R.writers w₀ w₁ w types p p data data bs bs') :
    bs = bs' ∧ ∀ b ∈ bs, R.BranchHolds w types p data b := by
  have hbranch : ∀ {t u b b'}, Lockstep.Branches
    (fun _ g g' => g = g' ∧ R.guard g) R.writers w₀ w₁ w types p p data data t u b b' →
      b = b' ∧ R.BranchHolds w types p data b := by
    rintro ⟨type, position⟩ _ ⟨tag, index, guard, tagged, plain⟩ ⟨tag', index', guard', tagged', plain'⟩ h
    obtain ⟨-, hmem, ⟨hindex, hindex'⟩, ⟨hguard, hg⟩, ⟨name, hname, htag, htag'⟩, ⟨hcode, htagged⟩, hboth⟩ := h
    cases hindex.trans hindex'.symm
    cases hguard
    cases htag.trans htag'.symm
    cases hcode
    obtain ⟨rfl, hplain⟩ : plain = plain' ∧ R.encoder w type p plain := by
      rcases hboth with hplain | ⟨rfl, rfl, rfl⟩
      · exact hplain
      · exact ⟨rfl, hnull (.inl rfl)⟩
    exact ⟨rfl, ⟨type, mem_of_inTrialOrder hmem, name, hname, htag, htagged, hplain⟩, hg⟩
  obtain ⟨rfl, hbs⟩ := h.same hbranch
  refine ⟨rfl, fun b hb => ?_⟩
  obtain ⟨_, -, hholds⟩ := exists_mem_of_forall₂ hbs hb
  exact hholds

variable (hrules : R.EncoderRules σ D)
include hrules

theorem writing : hp.lockstep.Writing (fun d d' => D d ∧ d.Alike d') (fun d d' => D' d ∧ d.Alike d') R.met r r' Eq
    (fun _ g g' => g = g' ∧ R.guard g) R.writers R.writers where
  toPremises := hp.premises
  encode hd hpq := hpq ▸ hp.inner.encode hd.1 hd.2
  guards hx := hp.guard hx.1
  value hmn := hmn ▸ rfl
  member _ _ _ hpq := hpq ▸ rfl
  text hpq := ⟨fun hp => .inl (hpq ▸ hp), fun hq => .inl (hpq ▸ hq)⟩
  rules :=
    { mono := fun _ hw h => ⟨h.1, hrules.mono hw h.2⟩
      null := ⟨rfl, hrules.null (.inl rfl)⟩
      primitive := fun hd hpq _ _ => hpq ▸ ⟨rfl, hrules.primitive hd.1 (.inl rfl)⟩
      fixed := fun hd hpq htype => hpq ▸ ⟨rfl, hrules.primitive hd.1 (.inr htype)⟩
      recur := fun hd hpq hname hmet => hpq ▸ ⟨rfl, hrules.recur hd.1 hname hmet⟩
      loaded := fun hd _ hx h => ⟨h.1, hrules.loaded hd.1 (.inl rfl) hx h.2⟩
      reference := fun hd htype _ hname hx h => ⟨h.1, hrules.reference hd.1 htype hname hx h.2⟩
      logical := fun hd hpq hkind htype => hpq ▸ ⟨rfl, hrules.logical hd.1 hkind htype⟩
      fields := by
        intro w w' d d' p q xs ys as bs hd _ hxs h
        obtain ⟨rfl, has⟩ := h.same fun h => h
        obtain ⟨ms, rfl, rfl⟩ := exists_members_of_need hxs
        exact ⟨rfl, hrules.fields hd.1 has⟩
      array := by
        rintro w _ w' d d' p _ m _ x a _ hd rfl ⟨_, _, -, rfl, -⟩ - hitems ⟨rfl, h⟩
        exact ⟨rfl, hrules.array hd.1 hitems h⟩
      enum := fun hd hpq _ hsymbols => hpq ▸ ⟨rfl, hrules.enum hd.1 hsymbols⟩
      map := by
        rintro w _ _ w' d d' p _ k _ m _ x a _ hd rfl ⟨_, _, -, rfl, -⟩ ⟨_, _, -, rfl, -⟩ - hvalues ⟨rfl, h⟩
        exact ⟨rfl, hrules.map hd.1 hvalues h⟩
      union := by
        rintro w _ _ w' types p _ k _ m _ bs bs' hd rfl ⟨_, _, -, rfl, -⟩ ⟨_, _, -, rfl, -⟩ h
        obtain ⟨rfl, hbs⟩ := branches_same hrules.null h
        exact ⟨rfl, hrules.union hd.1 hbs⟩
      unionField := by
        rintro w _ _ w' d d' p _ types key k _ m _ bs bs' hd rfl htype hname ⟨_, _, -, rfl, -⟩ ⟨_, _, -, rfl, -⟩ h
        obtain ⟨rfl, hbs⟩ := branches_same hrules.null h
        exact ⟨rfl, hrules.unionField hd.1 htype hname hbs⟩
      nested := by
        rintro w w' d d' p _ inner f a _ hd rfl htype hname ⟨rfl, h⟩
        exact ⟨filledFrom_alike hd.2 .., hrules.nested hd.1 htype hname h⟩
      basic := by
        rintro w d d' p _ name hd rfl htype hbasic
        exact ⟨filledFrom_alike hd.2 .., hrules.basic hd.1 htype hbasic⟩ }

end Premises

end Parallel

end AvroCodec
