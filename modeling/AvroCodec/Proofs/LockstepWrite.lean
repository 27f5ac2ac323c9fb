import AvroCodec.Proofs.Lockstep

/-!
# Code that writes, made by two generators in step

What is told of the code for the types inside two schemas is carried to the code for the schemas, if the rules
below are kept.
-/

namespace AvroCodec

open Code

namespace Lockstep

variable {W : Type} [Preorder W] {σ σ' : Setting}

open Gen Parallel

abbrev Writers (W : Type) := W → W → Json → Json → Place → Place → Encoder → Encoder → Prop

/-- What is told of two branches of a union of the given types, each for a type with its position. A value without a tag
is at one of the places, a value with a tag in one of the variables, which are
drawn before the second of what is known. -/
structure Branches (guard : Json → Guard → Guard → Prop) (E : Writers W) (w w₁ w' : W) (types : List Json) (p q : Place)
    (x y : String) (t u : Json × Nat) (b b' : Branch Encoder) : Prop where
  same : t = u
  mem : t ∈ inTrialOrder types
  index : b.index = t.2 ∧ b'.index = t.2
  guard : guard t.1 b.guard b'.guard
  tag : ∃ tag, tagOf t.1 = .ok tag ∧ b.tag = tag.pasted ∧ b'.tag = tag.pasted
  tagged : E w₁ w' t.1 t.1 (.of x) (.of y) b.tagged b'.tagged
  plain : E w w' t.1 t.1 p q b.plain b'.plain ∨ t.1 = .str "null" ∧ b.plain = .null ∧ b'.plain = .null

def AllBranches (guard : Json → Guard → Guard → Prop) (E : Writers W) (w w₁ w' : W) (types : List Json) (p q : Place)
    (x y : String) : List (Branch Encoder) → List (Branch Encoder) → Prop :=
  Rows (Branches guard E w w₁ w' types p q x y) (inTrialOrder types) (inTrialOrder types)

/-- What has to be told of code for schemas of which `X` holds, at places of which `L` holds, by what is told of the
code inside it. -/
structure WriterRules (J : Lockstep W σ σ') (X : Json → Json → Prop) (L : Place → Place → Prop)
    (met : W → String → Prop)
    (guard : Json → Guard → Guard → Prop) (E' E : Writers W) : Prop where
  mono : ∀ {w w₁ w₂ w' d d' p q a b}, w ≤ w₁ → w₂ ≤ w' → E' w₁ w₂ d d' p q a b → E' w w' d d' p q a b
  null : ∀ {w p q}, E w w (.str "null") (.str "null") p q .null .null
  primitive : ∀ {w p q name}, X (.str name) (.str name) → L p q → name ≠ "null" →
    (σ.store.contains name && !isBasic name) = false →
    E w w (.str name) (.str name) p q (.primitive name p) (.primitive name q)
  fixed : ∀ {w d d' p q}, X d d' → L p q → d.get? "type" = some (.str "fixed") →
    E w w d d' p q (.primitive "fixed" p) (.primitive "fixed" q)
  recur : ∀ {w w' d d' p q name}, X d d' → L p q → d.Refers name → met w' name →
    E w w' d d' p q (.recur name p) (.recur name q)
  loaded : ∀ {w w' p q name x y a b}, X (.str name) (.str name) → σ.store.contains name = true → σ.store.Loads name x →
    E' w w' x y p q a b → E w w' (.str name) (.str name) p q a b
  reference : ∀ {w w' d d' p q name x y f a b}, X d d' → d.get? "type" = some (.str name) →
    σ.store.contains name = true → d.get? "name" = some f → σ.store.Loads name x →
    E' w w' x y (p.member f) (q.member f) a b → E w w' d d' p q a b
  logical : ∀ {w d d' p q kind base}, X d d' → L p q → d.get? "logicalType" = some (.str kind) →
    d.get? "type" = some base →
    E w w d d' p q (.logical (logicalOf kind base d) p) (.logical (logicalOf kind base d) q)
  fields : ∀ {w w' d d' p q xs ys as bs}, X d d' → d.get? "type" = some (.str "record") →
    d.need "fields" >>= Json.needElements = .ok xs → Rows (fun x y => E' w w' x y p q) xs ys as bs →
    E w w' d d' p q (.fields as) (.fields bs)
  array : ∀ {w w₁ w' d d' p q m n x a b}, X d d' → L p q → J.Draws w w₁ "val" m n →
    d.get? "type" = some (.str "array") → d.get? "items" = some x →
    E' w₁ w' x x (.of (variableName "val" m)) (.of (variableName "val" n)) a b →
    E w w' d d' p q (.array p (variableName "val" m) a) (.array q (variableName "val" n) b)
  enum : ∀ {w d d' p q symbols}, X d d' → L p q → d.get? "type" = some (.str "enum") →
    d.get? "symbols" = some symbols → E w w d d' p q (.enum p symbols) (.enum q symbols)
  map : ∀ {w w₁ w₂ w' d d' p q k l m n x a b}, X d d' → L p q → J.Draws w w₁ "key" k l →
    J.Draws w₁ w₂ "val" m n → d.get? "type" = some (.str "map") → d.get? "values" = some x →
    E' w₂ w' x x (.of (variableName "val" m)) (.of (variableName "val" n)) a b →
    E w w' d d' p q (.map p (variableName "key" k) (variableName "val" m) a)
      (.map q (variableName "key" l) (variableName "val" n) b)
  union : ∀ {w w₁ w₂ w' types p q k l m n bs bs'}, X (.arr types) (.arr types) → L p q →
    J.Draws w w₁ "type" k l → J.Draws w₁ w₂ "val" m n →
    AllBranches guard E' w w₂ w' types p q (variableName "val" m) (variableName "val" n) bs bs' →
    E w w' (.arr types) (.arr types) p q (.union (.value p) (variableName "type" k) (variableName "val" m) bs)
      (.union (.value q) (variableName "type" l) (variableName "val" n) bs')
  unionField : ∀ {w w₁ w₂ w' d d' p q types key k l m n bs bs'}, X d d' → L p q →
    d.get? "type" = some (.arr types) → d.get? "name" = some (.str key) → J.Draws w w₁ "type" k l →
    J.Draws w₁ w₂ "val" m n →
    AllBranches guard E' w w₂ w' types (p.member (.str key)) (q.member (.str key)) (variableName "val" m)
      (variableName "val" n) bs bs' →
    E w w' d d' p q (.union (.member p key) (variableName "type" k) (variableName "val" m) bs)
      (.union (.member q key) (variableName "type" l) (variableName "val" n) bs')
  nested : ∀ {w w' d d' p q inner f a b}, X d d' → L p q → d.get? "type" = some (.obj inner) →
    d.get? "name" = some f → E' w w' (.obj inner) (.obj inner) (p.member f) (q.member f) a b →
    E w w' d d' p q (filledFrom d (p.member f) a) (filledFrom d' (q.member f) b)
  basic : ∀ {w d d' p q name}, X d d' → L p q → d.get? "type" = some (.str name) → isBasic name = true →
    E w w d d' p q (filledFrom d (ownPlace d p) (.primitive name (ownPlace d p)))
      (filledFrom d' (ownPlace d q) (.primitive name (ownPlace d q)))

/-- What two generators can rely on when they make code that writes. -/
structure Writing (J : Lockstep W σ σ') (X X' : Json → Json → Prop) (met : W → String → Prop) (r r' : Recursion)
    (L : Place → Place → Prop) (guard : Json → Guard → Guard → Prop) (E' E : Writers W) : Prop
    extends J.Premises X X' met r r' where
  rules : J.WriterRules X L met guard E' E
  encode : ∀ {w d d' p q}, X' d d' → L p q → J.holds w (r.encode d p) (r'.encode d' q) fun w' => E' w w' d d' p q
  guards : ∀ {w x}, X' x x → J.holds w (guardOf x) (guardOf x) fun _ => guard x
  value : ∀ {w w' m n}, J.drawn w w' "val" m n → L (.of (variableName "val" m)) (.of (variableName "val" n))
  member : ∀ {d d' p q f}, X d d' → d.get? "name" = some f → d'.get? "name" = some f → L p q →
    L (p.member f) (q.member f)
  text : ∀ {p q}, L p q → (p.text = "" → q.text = "" ∨ J.FirstMayFail) ∧ (q.text = "" → p.text = "" ∨ J.SecondMayFail)

namespace Writing

variable {J : Lockstep W σ σ'} {X X' : Json → Json → Prop} {met : W → String → Prop} {r r' : Recursion}
  {L : Place → Place → Prop} {guard : Json → Guard → Guard → Prop} {E' E : Writers W} {w : W} {d d' : Json}
  {p q : Place} (h : J.Writing X X' met r r' L guard E' E) {types : List Json} {name : String}
include h

theorem encodeName (hd : X (.str name) (.str name)) (hpq : L p q)
    (hflag : isBasic name = false → σ.store.isCycleStarting name = false) :
    J.holds w (Gen.encodeType r name p) (Gen.encodeType r' name q)
      fun w' => E w w' (.str name) (.str name) p q := by
  unfold Gen.encodeType
  split_ifs with hnull
  · subst hnull
    exact J.pure h.rules.null
  · refine J.bind_isStored fun b hb => ?_
    split_ifs with hstored
    · rw [hstored, Bool.and_eq_true, Bool.not_eq_true'] at hb
      refine J.bind (h.load hd (.inl rfl) hb.1) fun w₁ x y hw₁ hxy => ?_
      refine J.imp (J.within (Q := fun w' => E' w w' x y p q) hb.1 (fun w₂ hw₂ => ?_) (h.rules.mono le_rfl)) ?_
      · exact J.imp (h.encode (hxy.2 (hflag hb.2)) hpq) fun _ _ _ _ => h.rules.mono (hw₁.trans hw₂) le_rfl
      · exact fun _ a b _ hab => h.rules.loaded hd hb.1 hxy.1 hab
    · exact J.pure (h.rules.primitive hd hpq hnull (hb.trans (by simpa using hstored)))

omit h in
theorem encodeUnstored (hstored : (σ.store.contains name && !isBasic name) = false) (hnull : name ≠ "null") :
    J.holds w (Gen.encodeType r name p) (Gen.encodeType r' name q) fun w' a b =>
      w' = w ∧ a = .primitive name p ∧ b = .primitive name q := by
  unfold Gen.encodeType
  rw [if_neg hnull, if_neg hnull]
  refine J.bind_isStored fun b hb => ?_
  obtain rfl := hstored.symm.trans hb
  exact J.pure ⟨rfl, rfl, rfl⟩

theorem encodeArray (hd : X d d') (hpq : L p q) (hlogical : d.get? "logicalType" = none)
    (htype : d.get? "type" = some (.str "array")) :
    J.holds w (Gen.encodeArray r d p) (Gen.encodeArray r' d' q) fun w' => E w w' d d' p q := by
  refine J.draw .value fun w₁ m n _ hmn => h.bind_need hd (by decide) fun items hitems _ => ?_
  refine J.bind (h.encode (h.part hd (.items hlogical htype hitems)) (h.value hmn)) fun w₂ a b _ hab => ?_
  exact J.pure (h.rules.array hd hpq ⟨_, _, le_rfl, hmn, le_rfl⟩ htype hitems hab)

theorem encodeMap (hd : X d d') (hpq : L p q) (hlogical : d.get? "logicalType" = none)
    (htype : d.get? "type" = some (.str "map")) :
    J.holds w (Gen.encodeMap r d p) (Gen.encodeMap r' d' q) fun w' => E w w' d d' p q := by
  refine J.draw .map fun w₁ _ _ hw₁ hname => J.bind_unit (J.declare (by decide) hname) fun w₂ hw₂ => ?_
  refine h.bind_need hd (by decide) fun values hvalues _ => ?_
  refine J.draw .key fun w₃ k l _ hkl => J.draw .value fun w₄ m n _ hmn => ?_
  refine J.bind_unit (J.declare (by decide) hkl) fun w₅ hw₅ => J.bind_unit J.requireReady fun w₆ hw₆ => ?_
  refine J.bind (h.encode (h.part hd (.values hlogical htype hvalues)) (h.value hmn)) fun w₇ a b _ hab => ?_
  exact J.pure (h.rules.map hd hpq ⟨_, _, hw₁.trans hw₂, hkl, le_rfl⟩ ⟨_, _, le_rfl, hmn, le_rfl⟩ htype hvalues
    (h.rules.mono (hw₅.trans hw₆) le_rfl hab))

omit [Preorder W] h in
theorem rows_branches {w₁ w' : W} {x y : String} {ts us : List (Json × Nat)} {plain plain' : List Encoder}
    {tagged tagged' : List (String × Encoder)} {guards guards' : List Guard}
    (hplain : Rows (fun t u a b => (t = u ∧ t ∈ inTrialOrder types) ∧
      (E' w w' t.1 t.1 p q a b ∨ t.1 = .str "null" ∧ a = .null ∧ b = .null)) ts us plain plain')
    (htagged : Rows (fun t u a b => (t = u ∧ t ∈ inTrialOrder types) ∧
      (∃ tag, tagOf t.1 = .ok tag ∧ a.1 = tag.pasted ∧ b.1 = tag.pasted) ∧
        E' w₁ w' t.1 t.1 (.of x) (.of y) a.2 b.2) ts us tagged tagged')
    (hguards : Rows (fun t u a b => (t = u ∧ t ∈ inTrialOrder types) ∧ guard t.1 a b) ts us guards guards') :
    Rows (Branches guard E' w w₁ w' types p q x y) ts us (branches ts plain tagged guards)
      (branches us plain' tagged' guards') := by
  induction hplain generalizing tagged tagged' guards guards' with
  | nil => exact .nil
  | cons hp _ ih =>
    cases htagged with
    | cons ht htagged =>
      cases hguards with
      | cons hg hguards =>
        obtain ⟨⟨rfl, hmem⟩, hp⟩ := hp
        exact .cons ⟨rfl, hmem, ⟨rfl, rfl⟩, hg.2, ht.2.1, ht.2.2, hp⟩ (ih htagged hguards)

/-- A union, told of by its branches. -/
theorem encodeBranches {subject subject' : Option Subject} {Q : W → Encoder → Encoder → Prop}
    (htypes : ∀ x ∈ types, X' x x) (hpq : L p q)
    (hsubject : (subject = none → subject' = none ∨ J.FirstMayFail) ∧
      (subject' = none → subject = none ∨ J.SecondMayFail))
    (hQ : ∀ {w₁ w₂ w' s s' k l m n bs bs'}, subject = some s → subject' = some s' → J.Draws w w₁ "type" k l →
      J.Draws w₁ w₂ "val" m n →
      AllBranches guard E' w w₂ w' types p q (variableName "val" m) (variableName "val" n) bs bs' →
      Q w' (.union s (variableName "type" k) (variableName "val" m) bs)
        (.union s' (variableName "type" l) (variableName "val" n) bs')) :
    J.holds w (Gen.encodeBranches r types p subject) (Gen.encodeBranches r' types q subject') Q := by
  have hX : ∀ t ∈ inTrialOrder types, X' t.1 t.1 := fun t ht => htypes _ (mem_of_inTrialOrder ht)
  unfold Gen.encodeBranches
  split_ifs
  · exact J.bind (Q := fun _ _ _ => False) (J.throw rfl (by simp)) fun _ _ _ _ => False.elim
  · refine J.bind (J.mapM_same (R := fun w w' t a b => E' w w' t.1 t.1 p q a b ∨ t.1 = .str "null" ∧ a = .null ∧
      b = .null)
      fun w' t _ ht => ?_) fun w₁ plain plain' hw₁ hplain => ?_
    · split_ifs with hnull
      · exact J.pure (.inr ⟨Json.eq_str_of_isStr hnull, rfl, rfl⟩)
      · exact J.imp (h.encode (hX t ht) hpq) fun _ _ _ _ => .inl
    · refine J.draw .tag fun w₂ k l hw₂ hkl => J.bind_unit (J.declare (by decide) hkl) fun w₃ hw₃ => ?_
      refine J.draw .value fun w₄ m n hw₄ hmn => ?_
      rcases subject with - | s <;> rcases subject' with - | s'
      · exact J.throw rfl (by simp)
      · exact (hsubject.1 rfl).elim nofun fun hfirst => hfirst
      · exact (hsubject.2 rfl).elim nofun fun hsecond => hsecond
      refine J.bind (J.mapM_same (R := fun w w' (t : Json × Nat) (a b : String × Encoder) =>
        (∃ tag, tagOf t.1 = .ok tag ∧ a.1 = tag.pasted ∧ b.1 = tag.pasted) ∧
        E' w w' t.1 t.1 (.of (variableName "val" m)) (.of (variableName "val" n)) a.2 b.2)
        fun w' t _ ht => ?_) fun w₅ tagged tagged' hw₅ htagged => ?_
      · refine J.bind_unit J.requireReady fun _ hw => J.bind_lift ?_ fun tag htag => ?_
        · unfold tagOf
          split <;> simp
        · refine J.bind (h.encode (hX t ht) (h.value hmn)) fun _ _ _ _ hab => ?_
          exact J.pure ⟨⟨tag, htag, rfl, rfl⟩, h.rules.mono hw le_rfl hab⟩
      · refine J.bind (J.mapM_same (R := fun _ _ t => guard t.1) fun w' t _ ht => h.guards (hX t ht)) ?_
        intro w₆ guards guards' hw₆ hguards
        refine J.pure (hQ rfl rfl ⟨_, _, hw₁, hkl, le_rfl⟩ ⟨_, _, hw₃, hmn, le_rfl⟩
          (rows_branches ?_ ?_ (hguards.rows fun _ _ ht => ht)))
        · have hw := hw₂.trans (hw₃.trans (hw₄.trans (hw₅.trans hw₆)))
          exact hplain.rows fun hw₀ hw' ht => ⟨ht.1, ht.2.imp_left (h.rules.mono hw₀ (hw'.trans hw))⟩
        · exact htagged.rows fun hw₀ hw' ht => ⟨ht.1, ht.2.1, h.rules.mono hw₀ (hw'.trans hw₆) ht.2.2⟩

theorem encodeReferenceField {type : String} (hd : X d d') (hpq : L p q) (htype : d.get? "type" = some (.str type))
    (hbasic : isBasic type = false) (hstored : σ.store.contains type = true) :
    J.holds w (Gen.encodeReferenceField r d type p) (Gen.encodeReferenceField r' d' type q)
      fun w' => E w w' d d' p q := by
  refine J.bind (h.load hd (.inr htype) hstored) fun w₁ x y hw₁ hxy => J.bind J.get fun w₂ s s' hw₂ hs => ?_
  refine J.bind_unit (J.setContext (J.stored hstored)) fun w₃ hw₃ => J.bind_read ?_
  rw [J.resembles.cycles]
  split_ifs with hflag
  · refine J.bind (h.meet hd (.inr ⟨htype, hstored⟩) hbasic hflag) fun w₄ _ _ _ hmet => ?_
    exact J.pure (h.rules.recur hd hpq (.inr htype) hmet)
  · refine h.bind_need hd (by decide) fun name hname hname' => ?_
    refine J.bind (h.encode (hxy.2 (by simpa using hflag)) (h.member hd hname hname' hpq)) fun w₄ a b _ hab => ?_
    refine J.bind_unit (J.setContext hs) fun w₅ hw₅ => ?_
    exact J.pure (h.rules.reference hd htype hstored hname hxy.1 (h.rules.mono (hw₁.trans (hw₂.trans hw₃)) hw₅ hab))

theorem encodeObject {ms ms' : Members} {type : Json} (hd : X (.obj ms) (.obj ms')) (hpq : L p q)
    (htype : (Json.obj ms).get? "type" = some type) :
    J.holds w (Gen.encodeObject r (.obj ms) type p) (Gen.encodeObject r' (.obj ms') type q)
      fun w' => E w w' (.obj ms) (.obj ms') p q := by
  unfold Gen.encodeObject
  rw [(h.stable hd).get? (by decide)]
  split
  next kind hkind =>
    refine h.bind_logicalType hd ?_
    rintro s rfl
    exact J.pure (h.rules.logical hd hpq hkind htype)
  next hkind =>
    split
    next =>
      refine h.bind_fields hd hkind htype fun xs ys hxs hxys => ?_
      refine J.bind (J.mapM (R := fun w w' x y => E' w w' x y p q) hxys fun w' x y _ hxy => h.encode hxy hpq) ?_
      exact fun w' as bs _ hab => J.pure (h.rules.fields hd htype hxs (hab.rows h.rules.mono))
    next => exact h.encodeArray hd hpq hkind htype
    next => exact h.bind_need hd (by decide) fun symbols hsymbols _ => J.pure (h.rules.enum hd hpq htype hsymbols)
    next => exact h.encodeMap hd hpq hkind htype
    next =>
      refine J.imp (encodeUnstored (by rw [h.fixed, Bool.false_and]) (by decide)) ?_
      rintro _ _ _ - ⟨rfl, rfl, rfl⟩
      exact h.rules.fixed hd hpq htype
    next =>
      refine h.bind_need hd (by decide) fun name hname hname' => ?_
      refine J.bind (h.encode (h.part hd (.type hkind htype)) (h.member hd hname hname' hpq)) fun w' a b _ hab => ?_
      exact J.pure (h.rules.nested hd hpq htype hname hab)
    next types =>
      refine h.bind_need hd (by decide) fun name hname hname' => h.bind_need hd (by decide) fun _ htypes _ => ?_
      cases htype.symm.trans htypes
      refine J.bind_lift needElements_ne_endless fun elements helements => ?_
      cases helements
      refine h.encodeBranches (fun x hx => h.part hd (.option hkind htype hx)) (h.member hd hname hname' hpq) ?_ ?_
      · cases name <;> simp
      · intro w₁ w₂ w' s s' k l m n bs bs' hs hs' hkl hmn hbs
        cases name with
        | str key =>
          cases hs
          cases hs'
          exact h.rules.unionField hd hpq htype hname hkl hmn hbs
        | _ => cases hs
    next name _ _ _ _ _ =>
      split_ifs with hbasic
      · have hnull : name ≠ "null" := by
          rintro rfl
          cases hbasic
        rw [(h.stable hd).get? (by decide)]
        refine J.bind (encodeUnstored (by rw [hbasic, Bool.not_true, Bool.and_false]) hnull) ?_
        rintro _ _ _ - ⟨rfl, rfl, rfl⟩
        exact J.pure (h.rules.basic hd hpq htype hbasic)
      · refine J.bind_read ?_
        rw [J.resembles.contains]
        split_ifs with hstored
        · exact h.encodeReferenceField hd hpq htype (by simpa using hbasic) hstored
        · exact J.throw rfl (by simp)
    next => exact J.throw rfl (by simp)

/-- One step of generating code that writes. -/
theorem encodeStep (hd : X d d') (hpq : L p q) :
    J.holds w (Gen.encodeStep r d p) (Gen.encodeStep r' d' q) fun w' => E w w' d d' p q := by
  have hobject : J.holds w (do Gen.encodeObject r d (← d.need "type") p)
      (do Gen.encodeObject r' d' (← d'.need "type") q) fun w' => E w w' d d' p q := by
    refine h.bind_need hd (by decide) fun type htype htype' => ?_
    cases d <;> cases d' <;> first | exact h.encodeObject hd hpq htype | cases htype | cases htype'
  rcases (h.stable hd).shape with rfl | ⟨ms, ms', rfl, rfl⟩
  · unfold Gen.encodeStep
    split
    next name =>
      refine J.bind_isRecursive fun b hb => ?_
      split_ifs with hflag
      · rw [hflag, Bool.and_eq_true, Bool.not_eq_true'] at hb
        refine J.bind (h.meet hd (.inl rfl) hb.2 hb.1) fun w' _ _ _ hmet => ?_
        exact J.pure (h.rules.recur hd hpq (.inl rfl) hmet)
      · refine h.encodeName hd hpq fun hbasic => ?_
        rw [hbasic, Bool.not_false, Bool.and_true] at hb
        exact hb.trans (by simpa using hflag)
    next types =>
      refine J.bind_lift needElements_ne_endless fun elements helements => ?_
      cases helements
      refine h.encodeBranches (fun x hx => h.part hd (.branch hx)) hpq ?_ ?_
      · simpa using h.text hpq
      · intro w₁ w₂ w' s s' k l m n bs bs' hs hs' hkl hmn hbs
        split_ifs at hs hs'
        cases hs
        cases hs'
        exact h.rules.union hd hpq hkl hmn hbs
    next => exact hobject
  · exact hobject

end Writing

end Lockstep

end AvroCodec
