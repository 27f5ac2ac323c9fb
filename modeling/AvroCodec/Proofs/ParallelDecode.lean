import AvroCodec.Proofs.LockstepRead
import AvroCodec.Proofs.ParallelEncode

/-!
# Two runs of code generation for reading

The counterpart for code that reads. Both together give one step of generating code, which follows if
generating code for the types inside a schema does.
-/

namespace AvroCodec

open Code

def Recursion.next (r : Recursion) : Recursion := ⟨Gen.encodeStep r, Gen.decodeStep r⟩

namespace Parallel

variable {W : Type} [Preorder W]

/-- What has to hold of code for a type, given what holds of the code for the types inside it. -/
structure DecoderRules (R : Parallel W) (σ : Setting) (D : Json → Prop) : Prop where
  mono : ∀ {w w' d p a}, w ≤ w' → R.decoder w d p a → R.decoder w' d p a
  null : ∀ {w d p}, d.Refers "null" → R.decoder w d p (.null p)
  primitive : ∀ {w p name}, D (.str name) → R.decoder w (.str name) p (.primitive name .null p)
  fixed : ∀ {w d p}, D d → d.get? "logicalType" = none → d.get? "type" = some (.str "fixed") →
    R.decoder w d p (.primitive "fixed" d p)
  basic : ∀ {w d p name}, D d → d.get? "type" = some (.str name) → Gen.isBasic name = true →
    R.decoder w d p (.primitive name d (ownPlace d p))
  recur : ∀ {w d p name}, D d → d.Refers name → R.met w name → R.decoder w d p (.recur name p)
  loaded : ∀ {w p name x a}, D (.str name) → σ.store.Loads name x → R.decoder w x p a →
    R.decoder w (.str name) p a
  reference : ∀ {w d p name x f a}, D d → d.get? "type" = some (.str name) → d.get? "name" = some f →
    σ.store.Loads name x → R.decoder w x (p.member f) a → R.decoder w d p a
  logical : ∀ {w d p kind base}, D d → d.get? "logicalType" = some (.str kind) →
    d.get? "type" = some base → R.decoder w d p (.logical (logicalOf kind base d) p)
  record : ∀ {w members p as}, D (.obj members) → Json.lookup "logicalType" members = none →
    Json.lookup "type" members = some (.str "record") →
    List.Forall₂ (fun x a => R.decoder w x p a) (Schema.fieldList members) as →
    R.decoder w (.obj members) p (.record p as)
  array : ∀ {w d p k m n x a}, D d → d.get? "items" = some x →
    R.decoder w x (.of (Gen.variableName "val" n)) a →
    R.decoder w d p (.array p (Gen.variableName "i" k) (Gen.variableName "i" m)
      (Gen.variableName "val" n) a)
  enum : ∀ {w d p symbols}, D d → d.get? "symbols" = some symbols → R.decoder w d p (.enum p symbols)
  map : ∀ {w d p k m n x a}, D d → d.get? "values" = some x →
    R.decoder w x (p.entry (Gen.variableName "key" n)) a →
    R.decoder w d p (.map p (Gen.variableName "key" n) (Gen.variableName "i" k)
      (Gen.variableName "i" m) a)
  union : ∀ {w types p n cs}, D (.arr types) →
    List.Forall₂ (fun t c => c.1 = t ∧ R.decoder w t p c.2) types cs →
    R.decoder w (.arr types) p (.union p (Gen.variableName "i" n) σ.extended cs)
  unionField : ∀ {w d types f p n cs}, D d → d.get? "type" = some (.arr types) →
    d.get? "name" = some f →
    List.Forall₂ (fun t c => c.1 = t ∧ R.decoder w t (p.member f) c.2) types cs →
    R.decoder w d p (.union (p.member f) (Gen.variableName "i" n) σ.extended cs)
  nested : ∀ {w d p inner f a}, D d → d.get? "logicalType" = none →
    d.get? "type" = some (.obj inner) → d.get? "name" = some f →
    R.decoder w (.obj inner) (p.member f) a → R.decoder w d p a

variable {R : Parallel W} {σ : Setting} {w : W} {D D' : Json → Prop} {r r' : Recursion}

open Gen

def readers (R : Parallel W) : Lockstep.Readers W := fun _ w d _ p _ a b => a = b ∧ R.decoder w d p a

theorem cases_same {w w' : W} {types types' : List Json} {p : Place} {cs cs' : List (Json × Decoder)}
    (hmono : ∀ {w w' d p a}, w ≤ w' → R.decoder w d p a → R.decoder w' d p a)
    (h : Chain (Lockstep.Cases R.readers p p) w w' types types' cs cs') :
    cs = cs' ∧ List.Forall₂ (fun t c => c.1 = t ∧ R.decoder w' t p c.2) types cs := by
  refine (h.rows (S := fun x _ c c' => c = c' ∧ c.1 = x ∧ R.decoder w' x p c.2) ?_).same id
  rintro w₁ w₂ x _ c c' - hw ⟨-, hc, hc', heq, ha⟩
  exact ⟨Prod.ext (hc.trans hc'.symm) heq, hc, hmono hw ha⟩

namespace Premises

variable (hp : R.Premises σ D D' r r') (hrules : R.DecoderRules σ D)
include hp hrules

theorem reading : hp.lockstep.Reading (fun d d' => D d ∧ d.Alike d') (fun d d' => D' d ∧ d.Alike d') R.met r r' Eq
    R.readers R.readers where
  toPremises := hp.premises
  decode hd hpq := hpq ▸ hp.inner.decode hd.1 hd.2
  value hmn := hmn ▸ rfl
  entry hpq hmn := hpq ▸ hmn ▸ rfl
  member hpq := hpq ▸ rfl
  rules :=
    { mono := fun _ hw h => ⟨h.1, hrules.mono hw h.2⟩
      null := fun hpq => hpq ▸ ⟨rfl, hrules.null (.inl rfl)⟩
      primitive := fun hd hpq _ _ => hpq ▸ ⟨rfl, hrules.primitive hd.1⟩
      fixed := by
        rintro w d d' p _ hd rfl hlogical htype
        obtain rfl := hd.2.eq_of_type htype (by decide) (by decide)
        exact ⟨rfl, hrules.fixed hd.1 hlogical htype⟩
      basic := by
        rintro w d d' p _ name hd rfl htype hbasic
        obtain rfl := hd.2.eq_of_type htype (by rintro rfl; cases hbasic) (by rintro rfl; cases hbasic)
        exact ⟨rfl, hrules.basic hd.1 htype hbasic⟩
      recur := fun hd hpq hname _ hmet => hpq ▸ ⟨rfl, hrules.recur hd.1 hname hmet⟩
      loaded := fun hd _ hx h => ⟨h.1, hrules.loaded hd.1 hx h.2⟩
      reference := fun hd htype _ hname hx h => ⟨h.1, hrules.reference hd.1 htype hname hx h.2⟩
      logical := fun hd hpq hkind htype => hpq ▸ ⟨rfl, hrules.logical hd.1 hkind htype⟩
      record := by
        rintro w w' d d' p _ xs ys as bs hd rfl hlogical htype hxs h
        have hrows := h.rows (S := fun x _ a b => a = b ∧ R.decoder w' x p a) fun _ hw h => ⟨h.1, hrules.mono hw h.2⟩
        obtain ⟨rfl, has⟩ := hrows.same id
        obtain ⟨ms, rfl, rfl⟩ := exists_members_of_need hxs
        exact ⟨rfl, hrules.record hd.1 hlogical htype has⟩
      array := by
        rintro w _ _ _ w' d d' p _ i _ k _ m _ x a _ hd rfl ⟨_, _, -, rfl, -⟩ ⟨_, _, -, rfl, -⟩ ⟨_, _, -, rfl, -⟩ -
          hitems
          ⟨rfl, h⟩
        exact ⟨rfl, hrules.array hd.1 hitems h⟩
      enum := fun hd hpq _ hsymbols => hpq ▸ ⟨rfl, hrules.enum hd.1 hsymbols⟩
      map := by
        rintro w _ _ _ w' d d' p _ i _ k _ m _ x a _ hd rfl ⟨_, _, -, rfl, -⟩ ⟨_, _, -, rfl, -⟩ ⟨_, _, -, rfl, -⟩ -
          hvalues
          ⟨rfl, h⟩
        exact ⟨rfl, hrules.map hd.1 hvalues h⟩
      union := by
        rintro w _ w' types p _ m _ cs cs' hd rfl ⟨_, _, -, rfl, -⟩ h
        obtain ⟨rfl, hcs⟩ := cases_same hrules.mono h
        exact ⟨rfl, hrules.union hd.1 hcs⟩
      unionField := by
        rintro w _ w' d d' p _ types f m _ cs cs' hd rfl htype hname ⟨_, _, -, rfl, -⟩ h
        obtain ⟨rfl, hcs⟩ := cases_same hrules.mono h
        exact ⟨rfl, hrules.unionField hd.1 htype hname hcs⟩
      nested := fun hd hlogical htype hname h => ⟨h.1, hrules.nested hd.1 hlogical htype hname h.2⟩ }

end Premises

theorem Matches.next (D' : Json → Prop) (hp : R.Premises σ D D' r r') (hencoder : R.EncoderRules σ D)
    (hdecoder : R.DecoderRules σ D) : R.Matches σ D r.next r'.next where
  encode hd halike := (hp.writing hencoder).encodeStep ⟨hd, halike⟩ rfl
  decode hd halike := (hp.reading hdecoder).decodeStep (And.intro hd halike) rfl

end Parallel

end AvroCodec
