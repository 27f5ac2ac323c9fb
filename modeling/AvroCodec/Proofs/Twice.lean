import AvroCodec.Proofs.Context
import AvroCodec.Proofs.Copying
import AvroCodec.Proofs.Visited

/-!
# Code that is generated twice

A generator that makes code for a schema twice, at different places and in different states, makes copies:
in a consistent store both runs load the same definitions.
-/

namespace AvroCodec

open Code Place

namespace Code

theorem Subject.Copies.of_reach {p q : Place} {path path' : List Subscript} {s s' : Subject}
    (h : Subject.Copies (p.reach path) (q.reach path) path' s s') : Subject.Copies p q (path ++ path') s s' := by
  cases h with
  | value => simpa only [reach_reach] using Subject.Copies.value (p := p) (q := q) (path ++ path')
  | member path' key =>
    simpa only [reach_reach, List.append_assoc] using
      Subject.Copies.member (p := p) (q := q) (path ++ path') key

namespace Encoder

variable {T : String → String → Prop} {p q : Place} {a b : Encoder}

/-- Copies at places that are reached in the same way are copies at the places these are reached from. -/
theorem Copies.of_reach {P Q : Place} (h : Copies T P Q a b) (path : List Subscript) (hP : P = p.reach path)
    (hQ : Q = q.reach path) : Copies T p q a b := by
  induction h generalizing p q path with
  | null => exact .null
  | primitive type path' =>
    subst hP hQ
    simpa only [reach_reach] using Copies.primitive type (path ++ path')
  | logical type path' =>
    subst hP hQ
    simpa only [reach_reach] using Copies.logical type (path ++ path')
  | fields parts _ ih => exact .fields parts fun e he => ih e he path hP hQ
  | filled path' default _ ih =>
    subst hP hQ
    simpa only [reach_reach] using Copies.filled (path ++ path') default (ih path rfl rfl)
  | array path' h _ =>
    subst hP hQ
    simpa only [reach_reach] using Copies.array (path ++ path') h
  | enum path' symbols =>
    subst hP hQ
    simpa only [reach_reach] using Copies.enum (path ++ path') symbols
  | map path' h _ =>
    subst hP hQ
    simpa only [reach_reach] using Copies.map (path ++ path') h
  | @union P Q path' s s' t t' x y branches hsubject htag hbranch _ htagged hown ihplain _ _ =>
    subst hP hQ
    refine .union branches hsubject.of_reach htag hbranch (fun b hb => ihplain b hb path rfl rfl) htagged ?_
    simpa only [reach_reach] using hown
  | recur name path' =>
    subst hP hQ
    simpa only [reach_reach] using Copies.recur name (path ++ path')

theorem exists_pairs_of_forall₂ {α β : Type} {R : α → β → Prop} {as : List α} {bs : List β} (h : List.Forall₂ R as bs) :
    ∃ zs : List (α × β), zs.map (·.1) = as ∧ zs.map (·.2) = bs ∧ ∀ z ∈ zs, R z.1 z.2 := by
  induction h with
  | nil => exact ⟨[], rfl, rfl, by simp⟩
  | @cons a b _ _ hab _ ih =>
    obtain ⟨zs, rfl, rfl, hzs⟩ := ih
    exact ⟨(a, b) :: zs, rfl, rfl, List.forall_mem_cons.2 ⟨hab, hzs⟩⟩

/-- Code and a copy of it, whatever the variables for tags are. -/
abbrev Copied : Place → Place → Encoder → Encoder → Prop := Copies fun _ _ => True

theorem copied_filledFrom {d : Json} (path : List Subscript) (h : Copied (p.reach path) (q.reach path) a b) :
    Copied p q (Gen.filledFrom d (p.reach path) a) (Gen.filledFrom d (q.reach path) b) := by
  unfold Gen.filledFrom
  split
  · exact h.of_reach path rfl rfl
  · exact h.of_reach path rfl rfl
  · exact .filled path _ (h.of_reach path rfl rfl)

theorem copied_fields {as bs : List Encoder} (h : List.Forall₂ (Copied p q) as bs) :
    Copied p q (.fields as) (.fields bs) := by
  obtain ⟨parts, rfl, rfl, hparts⟩ := exists_pairs_of_forall₂ h
  exact .fields parts hparts

end Encoder

end Code

namespace Gen

open Encoder

variable {α β γ δ ι : Type} {σ : Setting}

/-- Whatever two actions come to, each from a state of its own, is related. -/
def Pairs (σ : Setting) (x : Gen α) (y : Gen β) (Q : α → β → Prop) : Prop :=
  ∀ ⦃s t s' t' a b⦄, x σ s = (.ok a, t) → y σ s' = (.ok b, t') → Q a b

namespace Pairs

variable {x : Gen α} {y : Gen β} {Q : α → β → Prop} {S : γ → δ → Prop}

theorem pure {a : α} {b : β} (h : Q a b) : Pairs σ (Pure.pure a) (Pure.pure b) Q := by
  intro _ _ _ _ _ _ hx hy
  cases hx
  cases hy
  exact h

theorem throw (e : SchemaError) : Pairs σ (MonadExcept.throw e : Gen α) y Q :=
  fun _ _ _ _ _ _ hx _ => (throw_eq_ok.1 hx).elim

theorem throw_right (e : SchemaError) : Pairs σ x (MonadExcept.throw e : Gen β) Q :=
  fun _ _ _ _ _ _ _ hy => (throw_eq_ok.1 hy).elim

theorem bind {f : α → Gen γ} {g : β → Gen δ} (h : Pairs σ x y Q)
    (hf : ∀ a b, Q a b → Pairs σ (f a) (g b) S) : Pairs σ (x >>= f) (y >>= g) S := by
  intro _ _ _ _ _ _ hx hy
  obtain ⟨a, _, ha, hx⟩ := bind_eq_ok.1 hx
  obtain ⟨b, _, hb, hy⟩ := bind_eq_ok.1 hy
  exact hf a b (h ha hb) hx hy

theorem visiting {visit : Gen Unit} (h : Pairs σ x y Q) :
    Pairs σ (Gen.visiting visit x) (Gen.visiting visit y) Q := by
  have hany : Pairs σ visit visit fun _ _ => True := fun _ _ _ _ _ _ _ _ => trivial
  exact hany.bind fun _ _ _ => h.bind fun _ _ hab => hany.bind fun _ _ _ => pure hab

end Pairs

/-- Whatever the two come to is related, from all states. -/
def pairing (σ : Setting) : Lockstep Unit σ σ where
  holds _ x y Q := Pairs σ x y (Q ())
  resembles := .refl σ
  of_eq h hx hy _ _ _ _ _ _ ha hb := h (hx ▸ ha) (hy ▸ hb)
  pure := Pairs.pure
  throw _ _ := Pairs.throw _
  bind h hf := Pairs.bind h fun a b hab => hf () a b le_rfl hab
  contexts _ _ := True
  drawn _ _ _ _ _ := True
  stored _ := trivial
  draw {_ _ _ kind z _ _ _} hz hf := by
    obtain ⟨n, u, -, hrun⟩ := hz.exists_count
    refine Pairs.bind (Q := fun a b => ∃ m n, a = variableName kind m ∧ b = variableName kind n) ?_ ?_
    · intro s _ s' _ a b ha hb
      cases (hrun σ s).symm.trans ha
      cases (hrun σ s').symm.trans hb
      exact ⟨_, _, rfl, rfl⟩
    · rintro _ _ ⟨m, n, rfl, rfl⟩
      exact hf () m n le_rfl trivial
  declare _ _ _ _ _ _ _ _ _ _ := trivial
  requireReady _ _ := trivial
  get _ _ := trivial
  setContext _ _ _ _ _ _ _ _ _ := trivial

theorem exists_ownPlace (d : Json) : ∃ path, ∀ p : Place, Parallel.ownPlace d p = p.reach path := by
  unfold Parallel.ownPlace
  split_ifs
  · exact ⟨[.member ((d.get? "name").getD .null).pasted], fun _ => rfl⟩
  · exact ⟨[], fun p => p.reach_nil.symm⟩

section Store

variable {schemata : Schemata} {store : Store} {g g' : Schema.Registry} {extended : Bool}
  (h : Store.build schemata g = (.ok store, g')) (hc : store.Consistent)
include h hc

theorem pairs_load (name : String) : Pairs ⟨store, extended⟩ (load name) (load name) Json.Alike := by
  intro _ _ _ _ a b ha hb
  obtain ⟨d, hd, hda⟩ := (loads_of_load ha).exists_lookup h hc
  obtain ⟨d', hd', hdb⟩ := (loads_of_load hb).exists_lookup h hc
  cases hd.symm.trans hd'
  exact hda.symm.trans hdb

theorem pairs_guardIn (bound : Nat) {x y : Json} (halike : x.Alike y) :
    Pairs ⟨store, extended⟩ (guardIn bound x) (guardIn bound y) (· = ·) :=
  (pairing ⟨store, extended⟩).guardIn (w := ())
    (G := fun _ => Json.Alike) ⟨Parallel.stable_of_alike, rfl, fun _ => rfl, fun _ _ => rfl,
      fun _ _ => pairs_load h hc _, fun _ => Pairs.throw _⟩ halike

theorem pairs_premises (rec rec' : Recursion) : (pairing ⟨store, extended⟩).Premises Json.Alike Json.Alike
    (fun _ _ => True) rec rec' :=
  .of_alike id (fun _ _ => .refl _)
    (by rw [← Bool.not_eq_true]; exact fun hfixed => absurd (Store.hasDot_of_contains h hfixed) (by decide))
    (fun _ _ _ _ _ _ _ _ _ ha hb => ⟨loads_of_load ha, fun _ => pairs_load h hc _ ha hb⟩)
    fun _ _ _ _ _ _ _ _ _ _ _ _ => trivial

section Step

variable {rec rec' : Recursion}
  (hin : ∀ {d d' : Json} (p q : Place), d.Alike d' →
    Pairs ⟨store, extended⟩ (rec.encode d p) (rec'.encode d' q) (Copied p q))
  (hself : ∀ {d d' : Json} (p q : Place), d.Alike d' →
    Pairs ⟨store, extended⟩ (rec.encode d p) (rec.encode d' q) (Copied p q))
  (hnull : ∀ {p s t a}, rec.encode (.str "null") p ⟨store, extended⟩ s = (.ok a, t) → a = .null)

/-- Copies of which the first was made for a type. -/
def CopiedFrom (σ : Setting) (rec : Recursion) : Lockstep.Writers Unit := fun _ _ d _ p q a b =>
  Copied p q a b ∧ ∃ s t, rec.encode d p σ s = (.ok a, t)

omit h hc in
include hself hnull in
theorem copied_union {types : List Json} {p q : Place} {path : List Subscript} {s s' : Subject} {t t' x y : String}
    {bs bs' : List (Branch Encoder)} (hsubject : Subject.Copies p q path s s')
    (h : Lockstep.AllBranches (fun _ => (· = ·)) (CopiedFrom ⟨store, extended⟩ rec) () () () types (p.reach path)
      (q.reach path) x y bs bs') : Copied p q (.union s t x bs) (.union s' t' y bs') := by
  obtain ⟨zs, rfl, rfl, hzs⟩ := exists_pairs_of_forall₂
    (h.results (S := fun b b' => ∃ t u, Lockstep.Branches _ _ _ _ _ _ _ _ _ _ t u b b')
    fun hb => ⟨_, _, hb⟩)
  refine .union zs hsubject trivial (fun b hb => ?_) (fun b hb => ?_) (fun b hb => ?_) fun b hb => ?_ <;>
    obtain ⟨⟨type, _⟩, _, -, -, ⟨hindex, hindex'⟩, hguard, ⟨tag, -, htag, htag'⟩, ⟨htagged, s, t, hmade⟩, hplain⟩ :=
      hzs b hb
  · exact ⟨htag.trans htag'.symm, hindex.trans hindex'.symm, hguard⟩
  · rcases hplain with hplain | ⟨-, ha, hb⟩
    · exact hplain.1.of_reach path rfl rfl
    · rw [ha, hb]
      exact .null
  · exact htagged
  · rcases hplain with ⟨-, _, _, hplain⟩ | ⟨rfl, ha, -⟩
    · exact hself _ _ (.refl type) hplain hmade
    · rw [ha, hnull hmade]
      exact .null

include hin hself hnull in
/-- One step of generating code that writes. -/
theorem pairs_encodeStep {d d' : Json} (halike : d.Alike d') (p q : Place) :
    Pairs ⟨store, extended⟩ (encodeStep rec d p) (encodeStep rec' d' q) (Copied p q) := by
  have hwriting : (pairing ⟨store, extended⟩).Writing Json.Alike Json.Alike (fun _ _ => True) rec rec'
      (fun _ _ => True) (fun _ => (· = ·)) (CopiedFrom ⟨store, extended⟩ rec) fun _ _ _ _ p q => Copied p q :=
    { toPremises := pairs_premises h hc rec rec'
      encode := fun hd _ _ _ _ _ _ _ ha hb => ⟨hin _ _ hd ha hb, _, _, ha⟩
      guards := fun _ => (pairing _).bind_read (pairs_guardIn h hc _ (.refl _))
      value := fun _ => trivial
      member := fun _ _ _ _ => trivial
      text := fun _ => ⟨fun _ => .inr fun ha _ => (throw_eq_ok.1 ha).elim,
        fun _ => .inr fun _ hb => (throw_eq_ok.1 hb).elim⟩
      rules :=
        { mono := fun _ _ h => h
          null := .null
          primitive := fun {_ p q name} _ _ _ _ => by
            simpa only [reach_nil] using Copies.primitive (p := p) (q := q) name []
          fixed := fun {_ _ _ p q} _ _ _ => by
            simpa only [reach_nil] using Copies.primitive (p := p) (q := q) "fixed" []
          recur := fun {_ _ _ _ p q name} _ _ _ _ => by
            simpa only [reach_nil] using Copies.recur (p := p) (q := q) name []
          loaded := fun _ _ _ hab => hab.1
          reference := fun {_ _ _ _ _ _ _ _ _ f _ _} _ _ _ _ _ hab => hab.1.of_reach [.member f.pasted] rfl rfl
          logical := fun {_ d _ p q kind base} _ _ _ _ => by
            simpa only [reach_nil] using
              Copies.logical (p := p) (q := q) (Parallel.logicalOf kind base d) []
          fields := fun _ _ _ hab => copied_fields (hab.results fun hab => hab.1)
          array := fun {_ _ _ _ _ p q _ _ _ _ _} _ _ _ _ _ hab => by
            simpa only [reach_nil] using Copies.array (p := p) (q := q) [] hab.1
          enum := fun {_ _ _ p q symbols} _ _ _ _ => by
            simpa only [reach_nil] using Copies.enum (p := p) (q := q) [] symbols
          map := fun {_ _ _ _ _ _ p q _ _ _ _ _ _ _} _ _ _ _ _ _ hab => by
            simpa only [reach_nil] using Copies.map (p := p) (q := q) [] hab.1
          union := fun {_ _ _ _ _ p q _ _ _ _ _ _} _ _ _ _ hbs => by
            have hsubject := Subject.Copies.value (p := p) (q := q) []
            rw [reach_nil, reach_nil] at hsubject
            exact copied_union hself hnull hsubject (by simpa only [reach_nil] using hbs)
          unionField := fun {_ _ _ _ _ _ p q _ key _ _ _ _ _ _} _ _ _ _ _ _ hbs => by
            have hsubject := Subject.Copies.member (p := p) (q := q) [] key
            rw [reach_nil, reach_nil] at hsubject
            exact copied_union hself hnull hsubject hbs
          nested := fun {_ _ _ _ _ _ _ f _ _} hd _ _ _ hab => by
            rw [Parallel.filledFrom_alike hd]
            exact copied_filledFrom [.member f.pasted] hab.1
          basic := fun {_ d _ p q name} hd _ _ _ => by
            obtain ⟨path, hpath⟩ := exists_ownPlace d
            rw [Parallel.filledFrom_alike hd, hpath, hpath]
            exact copied_filledFrom path (by
              simpa only [reach_nil] using Copies.primitive (p := p.reach path) (q := q.reach path) name []) } }
  exact hwriting.encodeStep (w := ()) halike trivial

end Step

end Store

end Gen

end AvroCodec
