import AvroCodec.Proofs.Lockstep

/-!
# Code that reads, made by two generators in step

The counterpart for code that reads.
-/

namespace AvroCodec

open Code

namespace Lockstep

variable {W : Type} [Preorder W] {σ σ' : Setting}

open Gen Parallel

/-- What is told of code for two schemas, at a place each, with what is known before and after it is made. -/
abbrev Readers (W : Type) := W → W → Json → Json → Place → Place → Decoder → Decoder → Prop

def Cases (F : Readers W) (p q : Place) (w w' : W) (x y : Json) (c c' : Json × Decoder) : Prop :=
  x = y ∧ c.1 = x ∧ c'.1 = x ∧ F w w' x x p q c.2 c'.2

/-- What has to be told of code for schemas of which `X` holds, at places of which `L` holds, by what is told of the
code inside it. -/
structure ReaderRules (J : Lockstep W σ σ') (X : Json → Json → Prop) (L : Place → Place → Prop)
    (met : W → String → Prop)
    (F' F : Readers W) : Prop where
  mono : ∀ {w w₁ w₂ w' d d' p q a b}, w ≤ w₁ → w₂ ≤ w' → F' w₁ w₂ d d' p q a b → F' w w' d d' p q a b
  null : ∀ {w p q}, L p q → F w w (.str "null") (.str "null") p q (.null p) (.null q)
  primitive : ∀ {w p q name}, X (.str name) (.str name) → L p q → name ≠ "null" →
    (σ.store.contains name && !isBasic name) = false →
    F w w (.str name) (.str name) p q (.primitive name .null p) (.primitive name .null q)
  fixed : ∀ {w d d' p q}, X d d' → L p q → d.get? "logicalType" = none → d.get? "type" = some (.str "fixed") →
    F w w d d' p q (.primitive "fixed" d p) (.primitive "fixed" d' q)
  basic : ∀ {w d d' p q name}, X d d' → L p q → d.get? "type" = some (.str name) → isBasic name = true →
    F w w d d' p q (.primitive name d (ownPlace d p)) (.primitive name d' (ownPlace d q))
  recur : ∀ {w w' d d' p q name}, X d d' → L p q → d.Refers name → w ≤ w' → met w' name →
    F w w' d d' p q (.recur name p) (.recur name q)
  loaded : ∀ {w w' p q name x y a b}, X (.str name) (.str name) → σ.store.contains name = true →
    σ.store.Loads name x → F' w w' x y p q a b → F w w' (.str name) (.str name) p q a b
  reference : ∀ {w w' d d' p q name x y f a b}, X d d' → d.get? "type" = some (.str name) →
    σ.store.contains name = true → d.get? "name" = some f → σ.store.Loads name x →
    F' w w' x y (p.member f) (q.member f) a b → F w w' d d' p q a b
  logical : ∀ {w d d' p q kind base}, X d d' → L p q → d.get? "logicalType" = some (.str kind) →
    d.get? "type" = some base →
    F w w d d' p q (.logical (logicalOf kind base d) p) (.logical (logicalOf kind base d) q)
  record : ∀ {w w' d d' p q xs ys as bs}, X d d' → L p q → d.get? "logicalType" = none →
    d.get? "type" = some (.str "record") → d.need "fields" >>= Json.needElements = .ok xs →
    Chain (fun w w' x y => F' w w' x y p q) w w' xs ys as bs → F w w' d d' p q (.record p as) (.record q bs)
  array : ∀ {w w₁ w₂ w₃ w' d d' p q i j k l m n x a b}, X d d' → L p q → J.Draws w w₁ "i" i j →
    J.Draws w₁ w₂ "i" k l → J.Draws w₂ w₃ "val" m n → d.get? "type" = some (.str "array") →
    d.get? "items" = some x → F' w₃ w' x x (.of (variableName "val" m)) (.of (variableName "val" n)) a b →
    F w w' d d' p q (.array p (variableName "i" i) (variableName "i" k) (variableName "val" m) a)
      (.array q (variableName "i" j) (variableName "i" l) (variableName "val" n) b)
  enum : ∀ {w d d' p q symbols}, X d d' → L p q → d.get? "type" = some (.str "enum") →
    d.get? "symbols" = some symbols → F w w d d' p q (.enum p symbols) (.enum q symbols)
  map : ∀ {w w₁ w₂ w₃ w' d d' p q i j k l m n x a b}, X d d' → L p q → J.Draws w w₁ "key" i j →
    J.Draws w₁ w₂ "i" k l → J.Draws w₂ w₃ "i" m n → d.get? "type" = some (.str "map") → d.get? "values" = some x →
    F' w₃ w' x x (p.entry (variableName "key" i)) (q.entry (variableName "key" j)) a b →
    F w w' d d' p q (.map p (variableName "key" i) (variableName "i" k) (variableName "i" m) a)
      (.map q (variableName "key" j) (variableName "i" l) (variableName "i" n) b)
  union : ∀ {w w₁ w' types p q m n cs cs'}, X (.arr types) (.arr types) → L p q →
    J.Draws w w₁ "i" m n → Chain (Cases F' p q) w₁ w' types types cs cs' →
    F w w' (.arr types) (.arr types) p q (.union p (variableName "i" m) σ.extended cs)
      (.union q (variableName "i" n) σ.extended cs')
  unionField : ∀ {w w₁ w' d d' p q types f m n cs cs'}, X d d' → L p q → d.get? "type" = some (.arr types) →
    d.get? "name" = some f → J.Draws w w₁ "i" m n →
    Chain (Cases F' (p.member f) (q.member f)) w₁ w' types types cs cs' →
    F w w' d d' p q (.union (p.member f) (variableName "i" m) σ.extended cs)
      (.union (q.member f) (variableName "i" n) σ.extended cs')
  nested : ∀ {w w' d d' p q inner f a b}, X d d' → d.get? "logicalType" = none → d.get? "type" = some (.obj inner) →
    d.get? "name" = some f → F' w w' (.obj inner) (.obj inner) (p.member f) (q.member f) a b → F w w' d d' p q a b

/-- What two generators can rely on when they make code that reads. -/
structure Reading (J : Lockstep W σ σ') (X X' : Json → Json → Prop) (met : W → String → Prop) (r r' : Recursion)
    (L : Place → Place → Prop) (F' F : Readers W) : Prop
    extends J.Premises X X' met r r' where
  rules : J.ReaderRules X L met F' F
  decode : ∀ {w d d' p q}, X' d d' → L p q → J.holds w (r.decode d p) (r'.decode d' q) fun w' => F' w w' d d' p q
  value : ∀ {w w' m n}, J.drawn w w' "val" m n → L (.of (variableName "val" m)) (.of (variableName "val" n))
  entry : ∀ {w w' p q m n}, L p q → J.drawn w w' "key" m n →
    L (p.entry (variableName "key" m)) (q.entry (variableName "key" n))
  member : ∀ {p q f}, L p q → L (p.member f) (q.member f)

namespace Reading

variable {J : Lockstep W σ σ'} {X X' : Json → Json → Prop} {met : W → String → Prop} {r r' : Recursion}
  {L : Place → Place → Prop} {F' F : Readers W} {w : W} {d d' : Json} {p q : Place} {γ δ : Type} {S : W → γ → δ → Prop}
  (h : J.Reading X X' met r r' L F' F) {name : String}
include h

theorem decodeName (hd : X (.str name) (.str name)) (hpq : L p q)
    (hflag : isBasic name = false → σ.store.isCycleStarting name = false) :
    J.holds w (Gen.decodeType r name .null p) (Gen.decodeType r' name .null q)
      fun w' => F w w' (.str name) (.str name) p q := by
  unfold Gen.decodeType
  split_ifs with hnull
  · subst hnull
    exact J.pure (h.rules.null hpq)
  · refine J.bind_isStored fun b hb => ?_
    split_ifs with hstored
    · rw [hstored, Bool.and_eq_true, Bool.not_eq_true'] at hb
      refine J.bind (h.load hd (.inl rfl) hb.1) fun w₁ x y hw₁ hxy => ?_
      refine J.imp (J.within (Q := fun w' => F' w w' x y p q) hb.1 (fun w₂ hw₂ => ?_) (h.rules.mono le_rfl)) ?_
      · exact J.imp (h.decode (hxy.2 (hflag hb.2)) hpq) fun w₃ a b _ => h.rules.mono (hw₁.trans hw₂) le_rfl
      · exact fun w' a b _ hab => h.rules.loaded hd hb.1 hxy.1 hab
    · exact J.pure (h.rules.primitive hd hpq hnull (hb.trans (by simpa using hstored)))

omit h in
theorem decodeUnstored (hstored : (σ.store.contains name && !isBasic name) = false) (hnull : name ≠ "null") :
    J.holds w (Gen.decodeType r name d p) (Gen.decodeType r' name d' q) fun w' a b =>
      w' = w ∧ a = .primitive name d p ∧ b = .primitive name d' q := by
  unfold Gen.decodeType
  rw [if_neg hnull, if_neg hnull]
  refine J.bind_isStored fun b hb => ?_
  obtain rfl := hstored.symm.trans hb
  exact J.pure ⟨rfl, rfl, rfl⟩

theorem decodeArray (hd : X d d') (hpq : L p q) (hlogical : d.get? "logicalType" = none)
    (htype : d.get? "type" = some (.str "array")) :
    J.holds w (Gen.decodeArray r d p) (Gen.decodeArray r' d' q) fun w' => F w w' d d' p q := by
  refine J.draw .integer fun w₁ i j _ hij => J.draw .integer fun w₂ k l _ hkl => J.draw .value fun w₃ m n _ hmn => ?_
  refine J.bind_unit (J.declare (by decide) hij) fun w₄ hw₄ => J.bind_unit (J.declare (by decide) hkl) fun w₅ hw₅ => ?_
  refine h.bind_need hd (by decide) fun items hitems _ => J.bind_unit J.requireReady fun w₆ hw₆ => ?_
  refine J.bind (h.decode (h.part hd (.items hlogical htype hitems)) (h.value hmn)) fun w' a b _ hab => ?_
  have hbody := h.rules.mono (hw₄.trans (hw₅.trans hw₆)) le_rfl hab
  exact J.pure (h.rules.array hd hpq ⟨_, _, le_rfl, hij, le_rfl⟩ ⟨_, _, le_rfl, hkl, le_rfl⟩ ⟨_, _, le_rfl, hmn, le_rfl⟩
    htype hitems hbody)

theorem decodeMap (hd : X d d') (hpq : L p q) (hlogical : d.get? "logicalType" = none)
    (htype : d.get? "type" = some (.str "map")) :
    J.holds w (Gen.decodeMap r d p) (Gen.decodeMap r' d' q) fun w' => F w w' d d' p q := by
  refine J.draw .key fun w₁ i j _ hij => J.bind_unit (J.declare (by decide) hij) fun w₂ hw₂ => ?_
  refine J.draw .integer fun w₃ k l _ hkl => J.bind_unit (J.declare (by decide) hkl) fun w₄ hw₄ => ?_
  refine J.draw .integer fun w₅ m n _ hmn => J.bind_unit (J.declare (by decide) hmn) fun w₆ hw₆ => ?_
  refine h.bind_need hd (by decide) fun values hvalues _ => J.bind_unit J.requireReady fun w₇ hw₇ => ?_
  refine J.bind (h.decode (h.part hd (.values hlogical htype hvalues)) (h.entry hpq hij)) fun w' a b _ hab => ?_
  exact J.pure (h.rules.map hd hpq ⟨_, _, le_rfl, hij, le_rfl⟩ ⟨_, _, hw₂, hkl, le_rfl⟩ ⟨_, _, hw₄, hmn, le_rfl⟩ htype
    hvalues (h.rules.mono (hw₆.trans hw₇) le_rfl hab))

omit h in
theorem bind_unionIndex {f : String → Gen γ} {g : String → Gen δ}
    (hf : ∀ w' m n, J.Draws w w' "i" m n → J.holds w' (f (variableName "i" m)) (g (variableName "i" n)) S) :
    J.holds w (unionIndex >>= f) (unionIndex >>= g) S := by
  simp only [unionIndex, bind_assoc, pure_bind]
  refine J.draw .integer fun w₁ m n _ hmn => J.bind_unit (J.declare (by decide) hmn) fun w₂ hw₂ => ?_
  exact hf w₂ m n ⟨_, _, le_rfl, hmn, hw₂⟩

theorem decodeBranches {types : List Json} (htypes : ∀ x ∈ types, X' x x) (hpq : L p q) (i j : String) :
    J.holds w (Gen.decodeBranches r i (.arr types) p) (Gen.decodeBranches r' j (.arr types) q) fun w' a b =>
      ∃ cs cs', a = .union p i σ.extended cs ∧ b = .union q j σ.extended cs' ∧
        Chain (Cases F' p q) w w' types types cs cs' := by
  refine J.bind_lift needElements_ne_endless fun elements helements => ?_
  cases helements
  refine J.bind (J.mapM (P := fun x y => x = y ∧ x ∈ types) (R := Cases F' p q)
    (List.forall₂_same.2 fun x hx => ⟨rfl, hx⟩) ?_) fun w₁ cs cs' _ hcs => ?_
  · rintro w₁ x _ - ⟨rfl, hx⟩
    refine J.bind_unit J.requireReady fun w₂ hw₂ => J.bind (h.decode (htypes x hx) hpq) fun _ _ _ _ hab => ?_
    exact J.pure ⟨rfl, rfl, rfl, h.rules.mono hw₂ le_rfl hab⟩
  · refine J.bind_read ?_
    rw [J.resembles.extended]
    exact J.pure ⟨cs, cs', rfl, rfl, hcs⟩

theorem decodeReferenceField {type : String} (hd : X d d') (hpq : L p q) (htype : d.get? "type" = some (.str type))
    (hbasic : isBasic type = false) (hstored : σ.store.contains type = true) :
    J.holds w (Gen.decodeReferenceField r d type p) (Gen.decodeReferenceField r' d' type q)
      fun w' => F w w' d d' p q := by
  refine J.bind (h.load hd (.inr htype) hstored) fun w₁ x y hw₁ hxy => J.bind J.get fun w₂ s s' hw₂ hs => ?_
  refine J.bind_unit (J.setContext (J.stored hstored)) fun w₃ hw₃ => J.bind_read ?_
  have hw := hw₁.trans (hw₂.trans hw₃)
  rw [J.resembles.cycles]
  split_ifs with hflag
  · refine J.bind (h.meet hd (.inr ⟨htype, hstored⟩) hbasic hflag) fun w₄ _ _ hw₄ hmet => ?_
    exact J.pure (h.rules.recur hd hpq (.inr htype) (hw.trans hw₄) hmet)
  · refine h.bind_need hd (by decide) fun name hname _ => ?_
    refine J.bind (h.decode (hxy.2 (by simpa using hflag)) (h.member hpq)) fun w₄ a b _ hab => ?_
    refine J.bind_unit (J.setContext hs) fun w₅ hw₅ => ?_
    exact J.pure (h.rules.reference hd htype hstored hname hxy.1 (h.rules.mono hw hw₅ hab))

theorem decodeObject {ms ms' : Members} {type : Json} (hd : X (.obj ms) (.obj ms')) (hpq : L p q)
    (htype : (Json.obj ms).get? "type" = some type) :
    J.holds w (Gen.decodeObject r (.obj ms) type p) (Gen.decodeObject r' (.obj ms') type q)
      fun w' => F w w' (.obj ms) (.obj ms') p q := by
  unfold Gen.decodeObject
  rw [(h.stable hd).get? (by decide)]
  split
  next kind hkind =>
    refine h.bind_logicalType hd ?_
    rintro s rfl
    exact J.pure (h.rules.logical hd hpq hkind htype)
  next hkind =>
    split
    next =>
      refine h.bind_fields hd hkind htype fun xs ys hxs hxys => ?_
      refine J.bind (J.mapM (R := fun w w' x y => F' w w' x y p q) hxys fun w' x y _ hxy => h.decode hxy hpq) ?_
      exact fun w' as bs _ hab => J.pure (h.rules.record hd hpq hkind htype hxs hab)
    next => exact h.decodeArray hd hpq hkind htype
    next => exact h.bind_need hd (by decide) fun symbols hsymbols _ => J.pure (h.rules.enum hd hpq htype hsymbols)
    next => exact h.decodeMap hd hpq hkind htype
    next =>
      refine J.imp (decodeUnstored (by rw [h.fixed, Bool.false_and]) (by decide)) ?_
      rintro _ _ _ - ⟨rfl, rfl, rfl⟩
      exact h.rules.fixed hd hpq hkind htype
    next =>
      refine h.bind_need hd (by decide) fun name hname _ => ?_
      refine J.imp (h.decode (h.part hd (.type hkind htype)) (h.member hpq)) fun w' a b _ hab => ?_
      exact h.rules.nested hd hkind htype hname hab
    next types =>
      refine bind_unionIndex fun w₁ m n hmn => h.bind_need hd (by decide) fun name hname _ => ?_
      refine h.bind_need hd (by decide) fun _ htypes _ => ?_
      cases htype.symm.trans htypes
      refine J.imp (h.decodeBranches (fun x hx => h.part hd (.option hkind htype hx)) (h.member hpq) _ _) ?_
      rintro w' _ _ - ⟨cs, cs', rfl, rfl, hcs⟩
      exact h.rules.unionField hd hpq htype hname hmn hcs
    next name _ _ _ _ _ =>
      split_ifs with hbasic
      · have hnull : name ≠ "null" := by
          rintro rfl
          cases hbasic
        rw [(h.stable hd).get? (by decide)]
        refine J.imp (decodeUnstored (by rw [hbasic, Bool.not_true, Bool.and_false]) hnull) ?_
        rintro _ _ _ - ⟨rfl, rfl, rfl⟩
        exact h.rules.basic hd hpq htype hbasic
      · refine J.bind_read ?_
        rw [J.resembles.contains]
        split_ifs with hstored
        · exact h.decodeReferenceField hd hpq htype (by simpa using hbasic) hstored
        · exact J.throw rfl (by simp)
    next => exact J.throw rfl (by simp)

/-- One step of generating code that reads. -/
theorem decodeStep (hd : X d d') (hpq : L p q) :
    J.holds w (Gen.decodeStep r d p) (Gen.decodeStep r' d' q) fun w' => F w w' d d' p q := by
  have hobject : ∀ {ms ms'}, X (.obj ms) (.obj ms') → J.holds w
    (do Gen.decodeObject r (.obj ms) (← (Json.obj ms).need "type") p)
      (do Gen.decodeObject r' (.obj ms') (← (Json.obj ms').need "type") q) fun w' => F w w' (.obj ms) (.obj ms') p q :=
    fun hd => h.bind_need hd (by decide) fun type htype _ => h.decodeObject hd hpq htype
  rcases (h.stable hd).shape with rfl | ⟨ms, ms', rfl, rfl⟩
  · unfold Gen.decodeStep
    split
    next name =>
      refine J.bind_isRecursive fun b hb => ?_
      split_ifs with hflag
      · rw [hflag, Bool.and_eq_true, Bool.not_eq_true'] at hb
        refine J.bind (h.meet hd (.inl rfl) hb.2 hb.1) fun w' _ _ hw hmet => ?_
        exact J.pure (h.rules.recur hd hpq (.inl rfl) hw hmet)
      · refine h.decodeName hd hpq fun hbasic => ?_
        rw [hbasic, Bool.not_false, Bool.and_true] at hb
        exact hb.trans (by simpa using hflag)
    next types =>
      refine bind_unionIndex fun w₁ m n hmn => ?_
      refine J.imp (h.decodeBranches (fun x hx => h.part hd (.branch hx)) hpq _ _) ?_
      rintro w' _ _ - ⟨cs, cs', rfl, rfl, hcs⟩
      exact h.rules.union hd hpq hmn hcs
    next => exact hobject hd
    next => exact J.throw rfl (by simp)
  · exact hobject hd

end Reading

end Lockstep

end AvroCodec
