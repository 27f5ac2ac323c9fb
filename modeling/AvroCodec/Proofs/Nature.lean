import AvroCodec.Proofs.Branches
import AvroCodec.Proofs.Repeated

/-!
# Natures of values

A union tells its values by what they are by nature: of a plain kind, a symbol, a date, a time of day, a
point of time or a decimal. The guard of a logical type prepares a value before it looks at it. It lets
values of the underlying type pass as well, and it can fail on a value that it cannot prepare. Such values
are claimed by the type, though they are not its own.
-/

namespace AvroCodec

open Code Logical Value

theorem Json.Alike.eq_of_isObj {d d' : Json} (h : d.Alike d') (hd : d.isObj = false) : d' = d := by
  rcases Json.alike_cases h with rfl | ⟨ms, _, rfl, -⟩
  · rfl
  · cases hd

/-- What the values of a type are by nature. -/
inductive Nature where
  | kind (kind : Kind)
  | symbol (symbols : List Json)
  | date
  | clock
  /-- A point of time, as a number of units since 1970, so many to the second. -/
  | dateTime (units : Nat)
  | decimal (scale : Json)

namespace Nature

variable {v : Value} {n : Nature} {k : Kind}

/-- Whether a value is of a nature. A point of time must be within reach of a number of units, and a decimal must
have no more places than its scale. -/
def native (v : Value) : Nature → Bool
  | kind k => v.kind? = some k
  | symbol symbols => v.isStr && isAmong (.arr symbols) v
  | date =>
    match v with
    | .date _ => true
    | _ => false
  | clock =>
    match v with
    | .clock _ => true
    | _ => false
  | dateTime units =>
    match v with
    | .dateTime d => (prepareTimestamp units (.dateTime d)).toBool
    | _ => false
  | decimal scale =>
    match v with
    | .decimal (.finite _ _ e) => scale.toInt?.any fun s => 0 ≤ e + s
    | _ => false

/-- Whether the guard of a nature does not turn a value down: it lets the value pass, or it fails. -/
def claims (v : Value) : Nature → Bool
  | kind k => v.kind? = some k
  | symbol symbols => v.isStr && isAmong (.arr symbols) v
  | date =>
    match v with
    | .date _ | .dateTime _ | .str _ | .int _ => true
    | _ => false
  | clock =>
    match v with
    | .clock _ | .int _ => true
    | _ => false
  | dateTime _ =>
    match v with
    | .dateTime _ | .int _ => true
    | _ => false
  | decimal _ =>
    match v with
    | .decimal _ | .bytes _ => true
    | _ => false

theorem claims_of_native (h : n.native v = true) : n.claims v = true := by
  cases n with
  | kind k => exact h
  | symbol symbols => exact h
  | _ => cases v <;> first | rfl | cases h

theorem ne_tuple_of_native (h : n.native v = true) (items : List Value) : v ≠ .tuple items := by
  rintro rfl
  cases n <;> cases h

/-- The nature of a logical type, and the kind of what its values are prepared to be. -/
def ofLogical (scale : Json) : LogicalKind → Option (Nature × Kind)
  | .date => some (date, .int)
  | .timeMillis | .timeMicros => some (clock, .int)
  | .timestampMillis => some (dateTime 1000, .int)
  | .timestampMicros => some (dateTime 1000000, .int)
  | .decimal => some (decimal scale, .bytes)
  | .uuid => none

/-- The kind of an underlying type's values. The names of the types must be names of types of values, too. -/
def baseKind? (base : String) : Option Kind :=
  match base with
  | "int" | "long" => some .int
  | "bytes" => some .bytes
  | _ => none

def ofObject (type : Json) : Option Nature :=
  match type.get? "type" with
  | some (.str "fixed") => some (kind .bytes)
  | some (.str "array") => some (kind .list)
  | some (.str "map") => some (kind .dict)
  | some (.str "enum") =>
    match type.get? "symbols" with
    | some (.arr symbols) => some (symbol symbols)
    | _ => none
  | some (.str base) =>
    match type.get? "logicalType" with
    | none | some .null => if base = "record" then some (kind .dict) else none
    | some (.str name) =>
      match (LogicalKind.ofName? (Text.replaceAll "-" "_" name)).bind
        (ofLogical ((type.get? "scale").getD (.int 0))) with
      | some (n, k) => if baseKind? base = some k then some n else none
      | none => none
    | some _ => none
  | _ => none

theorem ofObject_alike {d d' : Json} (h : d.Alike d') : ofObject d = ofObject d' := by
  unfold ofObject
  rw [h.get? (show "type" ≠ Schema.parsedMark by decide), h.get? (show "symbols" ≠ Schema.parsedMark by decide),
    h.get? (show "logicalType" ≠ Schema.parsedMark by decide), h.get? (show "scale" ≠ Schema.parsedMark by decide)]

/-! ### Guards -/

/-- A guard that lets values of a nature pass, and turns exactly those down that are not claimed. -/
structure Guards (n : Nature) (g : Guard) : Prop where
  sound : g.isSound = true
  passes : ∀ {v} root, n.native v = true → g.passes (.value (.of root)) v = .ok true
  refuses_iff : ∀ {v} root, g.passes (.value (.of root)) v = .ok false ↔ n.claims v = false

theorem guards_isNull : (kind .nothing).Guards .isNull := by
  constructor
  · rfl
  · intro v root h
    cases v <;> first | rfl | cases h
  · intro v root
    cases v <;> simp [Guard.passes, Subject.look, claims, kind?, isNull, walk, Place.keys, Place.of, bind,
      Except.bind, pure, Except.pure]

theorem guards_hasType {name : String} (h : ∀ v : Value, v.hasType name = true ↔ v.kind? = some k) :
    (kind k).Guards (.hasType name) := by
  have hpasses : ∀ (v : Value) root, Guard.passes (.value (.of root)) v (.hasType name) = .ok (v.hasType name) :=
    fun _ _ => rfl
  constructor
  · rfl
  · intro v root hv
    rw [hpasses, (h v).2 (of_decide_eq_true hv)]
  · intro v root
    rw [hpasses, claims, Except.ok.injEq, decide_eq_false_iff_not, ← h, Bool.not_eq_true]

theorem guards_isSymbol (symbols : List Json) : (symbol symbols).Guards (.isSymbol (.arr symbols)) := by
  have hpasses : ∀ (v : Value) root, Guard.passes (.value (.of root)) v (.isSymbol (.arr symbols)) =
      .ok (v.isStr && isAmong (.arr symbols) v) := fun _ _ => rfl
  constructor
  · rfl
  · exact fun root h => congrArg Except.ok h
  · intro v root
    rw [hpasses, claims, Except.ok.injEq]

/-- A preparation that can be done to values of a nature, makes values of a kind from those that are claimed, and
leaves others alone. -/
structure Prepares (n : Nature) (k : Kind) (prepare : Value → Except CodecError Value) : Prop where
  native : ∀ {v}, n.native v = true → ∃ x, prepare v = .ok x
  claimed : ∀ {v x}, n.claims v = true → prepare v = .ok x → x.kind? = some k
  other : ∀ {v}, n.claims v = false → prepare v = .ok v ∧ v.kind? ≠ some k

theorem prepares_date : date.Prepares .int prepareDate := by
  constructor
  · intro v hv
    cases v with
    | date d => exact ⟨_, rfl⟩
    | _ => cases hv
  · intro v x hv hx
    cases v with
    | str s =>
      rw [prepareDate] at hx
      split at hx <;> cases hx
      rfl
    | _ => first | (cases hv; done) | (cases hx; rfl)
  · intro v hv
    cases v <;> first | (cases hv; done) | exact ⟨rfl, by simp [kind?]⟩

theorem prepares_clock (units : Clock → Int) : clock.Prepares .int (prepareClock units) := by
  constructor
  · intro v hv
    cases v with
    | clock c => exact ⟨_, rfl⟩
    | _ => cases hv
  · intro v x hv hx
    cases v <;> first | (cases hv; done) | (cases hx; rfl)
  · intro v hv
    cases v <;> first | (cases hv; done) | exact ⟨rfl, by simp [kind?]⟩

theorem prepares_timestamp (units : Nat) : (dateTime units).Prepares .int (prepareTimestamp units) := by
  constructor
  · intro v hv
    cases v with
    | dateTime d =>
      cases hx : prepareTimestamp units (.dateTime d) with
      | error e =>
        rw [Nature.native, hx] at hv
        cases hv
      | ok x => exact ⟨x, rfl⟩
    | _ => cases hv
  · intro v x hv hx
    cases v with
    | dateTime d =>
      simp only [prepareTimestamp, except_bind_eq_ok] at hx
      obtain ⟨_, -, _, -, hx⟩ := hx
      cases hx
      rfl
    | _ => first | (cases hv; done) | (cases hx; rfl)
  · intro v hv
    cases v <;> first | (cases hv; done) | exact ⟨rfl, by simp [kind?]⟩

theorem prepares_decimal (scale : Json) : (decimal scale).Prepares .bytes (prepareBytesDecimal scale) := by
  constructor
  · intro v hv
    cases v with
    | decimal d =>
      cases d with
      | finite negative m e =>
        rw [Nature.native, Option.any_eq_true] at hv
        obtain ⟨s, hs, hle⟩ := hv
        have hshift : shiftOf e scale = .ok (e + s).toNat := by
          rw [shiftOf, hs]
          exact if_neg (not_lt.2 (of_decide_eq_true hle))
        cases scale with
        | fraction mantissa places => cases hs
        | _ =>
          simp only [prepareBytesDecimal, hshift]
          exact ⟨_, rfl⟩
      | _ => cases hv
    | _ => cases hv
  · intro v x hv hx
    cases v with
    | decimal d =>
      cases d with
      | finite negative m e =>
        simp only [prepareBytesDecimal] at hx
        split at hx
        · cases hx
        · rw [except_bind_eq_ok] at hx
          obtain ⟨_, -, hx⟩ := hx
          cases hx
          rfl
      | _ => cases hx
    | _ => first | (cases hv; done) | (cases hx; rfl)
  · intro v hv
    cases v <;> first | (cases hv; done) | exact ⟨rfl, by simp [kind?]⟩

theorem prepares_of_ofLogical {l : Logical} {kind : LogicalKind}
    (hkind : LogicalKind.ofName? l.kind = some kind) (hbase : l.base.isStr "fixed" = false)
    (h : ofLogical (l.param "scale") kind = some (n, k)) : n.Prepares k l.prepare := by
  change n.Prepares k fun v => l.prepare v
  simp only [Logical.prepare, hkind, hbase]
  cases kind <;> cases h
  · exact prepares_date
  · exact prepares_timestamp 1000
  · exact prepares_timestamp 1000000
  · exact prepares_clock _
  · exact prepares_clock _
  · exact prepares_decimal _

theorem baseKind?_spec {base : String} (h : baseKind? base = some k) :
    base ∈ testableTypes ∧ base ≠ "fixed" ∧ ∀ v : Value, v.hasType base = true ↔ v.kind? = some k := by
  unfold baseKind? at h
  split at h <;> cases h
  all_goals
    refine ⟨by decide, by decide, fun v => ?_⟩
    cases v <;> simp [hasType, kind?]

theorem guards_prepared {l : Logical} {kind : LogicalKind} {base : String}
    (hkind : LogicalKind.ofName? l.kind = some kind) (hbase : l.base = .str base)
    (h : ofLogical (l.param "scale") kind = some (n, k)) (hk : baseKind? base = some k) : n.Guards (.prepared l) := by
  obtain ⟨htestable, hfixed, htype⟩ := baseKind?_spec hk
  have hprepares : n.Prepares k l.prepare := by
    refine prepares_of_ofLogical hkind ?_ h
    rw [hbase]
    exact beq_false_of_ne hfixed
  have hpasses : ∀ (v : Value) root,
      Guard.passes (.value (.of root)) v (.prepared l) = (l.prepare v).map (·.hasType base) := by
    intro v root
    have hwalk : v.walk (Subject.value (.of root)).keys = .ok v := rfl
    simp only [Guard.passes, hbase, hwalk, bind, Except.bind]
    cases l.prepare v <;> rfl
  constructor
  · rw [Guard.isSound, hkind, hbase]
    exact List.any_eq_true.2 ⟨base, htestable, beq_self_eq_true base⟩
  · intro v root hv
    obtain ⟨x, hx⟩ := hprepares.native hv
    rw [hpasses, hx, Except.map, (htype x).2 (hprepares.claimed (claims_of_native hv) hx)]
  · intro v root
    rw [hpasses]
    constructor
    · intro hfalse
      obtain ⟨x, hx, hother⟩ := except_map_eq_ok.1 hfalse
      by_contra hclaims
      rw [(htype x).2 (hprepares.claimed (Bool.eq_true_of_not_eq_false hclaims) hx)] at hother
      cases hother
    · intro hv
      obtain ⟨hx, hkind⟩ := hprepares.other hv
      rw [hx, Except.map, Bool.eq_false_iff.2 fun htrue => hkind ((htype v).1 htrue)]

theorem hasType_iff_kind : (v.hasType "bytes" = true ↔ v.kind? = some .bytes) ∧
    (v.hasType "list" = true ↔ v.kind? = some .list) ∧ (v.hasType "dict" = true ↔ v.kind? = some .dict) := by
  cases v <;> simp [hasType, kind?]

theorem exists_guardOfObject {members : Members} (h : ofObject (.obj members) = some n) :
    ∃ g, Gen.guardOfObject (.obj members) = .ok g ∧ n.Guards g := by
  have hneed : ∀ {key x}, (Json.obj members).get? key = some x → (Json.obj members).need key = .ok x :=
    fun hx => Schema.need_eq_ok.2 hx
  have hdict := guards_hasType fun v => (hasType_iff_kind (v := v)).2.2
  unfold ofObject at h
  unfold Gen.guardOfObject
  split at h
  next htype =>
    cases h
    rw [htype]
    exact ⟨_, rfl, guards_hasType fun v => hasType_iff_kind.1⟩
  next htype =>
    cases h
    rw [htype]
    exact ⟨_, rfl, guards_hasType fun v => hasType_iff_kind.2.1⟩
  next htype =>
    cases h
    rw [htype]
    exact ⟨_, rfl, hdict⟩
  next htype =>
    split at h
    next symbols hsymbols =>
      cases h
      rw [htype, hneed hsymbols]
      exact ⟨_, rfl, guards_isSymbol symbols⟩
    next => cases h
  next base hfixed harray hmap henum htype =>
    rw [htype]
    split
    next heq =>
      cases heq
      exact absurd rfl hfixed
    next heq =>
      cases heq
      exact absurd rfl harray
    next heq =>
      cases heq
      exact absurd rfl hmap
    next heq =>
      cases heq
      exact absurd rfl henum
    next =>
      split at h
      next hlogical =>
        split_ifs at h with hrecord
        cases h
        rw [hlogical, hneed htype, hrecord]
        exact ⟨_, rfl, hdict⟩
      next hlogical =>
        split_ifs at h with hrecord
        cases h
        rw [hlogical, hneed htype, hrecord]
        exact ⟨_, rfl, hdict⟩
      next name hlogical =>
        split at h
        next n' k hof =>
          split_ifs at h with hk
          cases h
          obtain ⟨kind, hkind, hof⟩ := Option.bind_eq_some_iff.1 hof
          rw [hlogical, Logical.forTest, hneed hlogical, hneed htype]
          exact ⟨_, rfl, guards_prepared hkind rfl hof hk⟩
        next => cases h
      next => cases h
  next => cases h

end Nature

def nameKind? (name : String) : Option Kind := if name = "null" then some .nothing else Form.basicKind? name

theorem exists_guard_of_nameKind? {name : String} {k : Kind} (h : nameKind? name = some k) :
    ∃ g, (∀ bound, Gen.guardIn (bound + 1) (.str name) = pure g) ∧ (Nature.kind k).Guards g := by
  unfold nameKind? at h
  split_ifs at h with hnull
  · cases h
    exact ⟨.isNull, fun bound => by rw [hnull]; rfl, Nature.guards_isNull⟩
  · have hbasic : Gen.isBasic name = true := by
      unfold Form.basicKind? at h
      split at h <;> first | rfl | cases h
    obtain ⟨type, hvalue, hne⟩ := Gen.exists_valueType hbasic
    refine ⟨.hasType type, fun bound => ?_, Nature.guards_hasType fun v => ?_⟩
    · simp only [Gen.guardIn, hvalue]
    · rw [← h]
      exact Form.basicKind?_of_hasType hbasic hvalue

namespace Store

variable {store : Store} {extended : Bool}

/-- The nature of a type's values, through at most so many names. -/
def natureIn (store : Store) : Nat → Json → Option Nature
  | bound + 1, .str name =>
    match nameKind? name with
    | some k => some (.kind k)
    | none => (Json.lookup name store.database).bind (natureIn store bound)
  | _ + 1, .obj members => Nature.ofObject (.obj members)
  | _, _ => none

def nature? (store : Store) (type : Json) : Option Nature := store.natureIn (store.database.length + 2) type

variable {schemata : Schemata} {g g' : Schema.Registry} {known : String → Prop} {types : Nat}

/-- The guard of a type whose values can be told. -/
theorem exists_guardIn (h : Store.build schemata g = (.ok store, g')) (hc : store.Consistent) {bound : Nat} {d x : Json}
    {n : Nature} (hn : store.natureIn bound d = some n) (halike : d.Alike x) {s : Generator}
    (hs : store.Fits known types s) :
    ∃ k t, Gen.guardIn bound x ⟨store, extended⟩ s = (.ok k, t) ∧ store.Fits known types t ∧ n.Guards k := by
  induction bound generalizing d x s with
  | zero => cases d <;> cases hn
  | succ bound ih =>
    cases d with
    | str name =>
      obtain rfl := halike.eq_of_isObj rfl
      rw [natureIn] at hn
      cases hkind : nameKind? name with
      | some k =>
        rw [hkind] at hn
        cases hn
        obtain ⟨k, hrun, hguards⟩ := exists_guard_of_nameKind? hkind
        exact ⟨k, s, by rw [hrun]; rfl, hs, hguards⟩
      | none =>
        simp only [hkind, Option.bind_eq_some_iff] at hn
        obtain ⟨d, hd, hn⟩ := hn
        have hstored := contains_of_lookup hd
        obtain ⟨y, t, hy, hyd, ht⟩ := exists_load_of_fits h hc hd hs
        obtain ⟨k, t', hk, ht', hguards⟩ := ih hn hyd.symm ht
        refine ⟨k, t', ?_, ht', hguards⟩
        simp only [Gen.guardIn, Gen.valueType?_of_hasDot (hasDot_of_contains h hstored)]
        change (if store.contains name then Gen.load name >>= Gen.guardIn bound else _ : Gen Guard) _ s = _
        rw [if_pos hstored]
        exact Gen.bind_eq_ok.2 ⟨y, t, hy, hk⟩
    | obj members =>
      obtain ⟨members', rfl⟩ : ∃ members', x = .obj members' := by
        rcases Json.alike_cases halike with rfl | ⟨_, ms', _, rfl, -⟩ <;> exact ⟨_, rfl⟩
      rw [natureIn, Nature.ofObject_alike halike] at hn
      obtain ⟨k, hk, hguards⟩ := Nature.exists_guardOfObject hn
      refine ⟨k, s, ?_, hs, hguards⟩
      change (liftM (Gen.guardOfObject (.obj members')) : Gen Guard) ⟨store, extended⟩ s = _
      rw [hk]
      rfl
    | _ => cases hn

end Store

end AvroCodec
