import AvroCodec.Proofs.Drawing
import AvroCodec.Proofs.Ending

/-!
# Generating code again

If code was generated for a schema once, then it can be generated again: at another place, in another
context, after other recursive types have been met, and with the number of steps that a generator allows
itself. Nothing is known of the number of steps that the first run was allowed. But among all runs for a
definition there is a shortest one, and in a shortest run no definition is entered from inside itself.
-/

namespace AvroCodec

open Code Gen Recursion

theorem Gen.variableName_ne_empty (kind : String) (n : Nat) : Gen.variableName kind n ≠ "" := by
  intro h
  have hlist := congrArg String.toList h
  simp [variableName] at hlist

theorem Code.Place.text_ne_empty {p : Place} (h : p.root ≠ "") : p.text ≠ "" := by
  intro htext
  exact h (String.append_eq_empty_iff.1 htext).1

namespace Store

variable {store : Store} {extended : Bool}

/-- A generator that may go on in a context, having met recursive types of which `known` holds, with at most so
many left that have no routine. -/
structure Fits (store : Store) (known : String → Prop) (types : Nat) (s : Generator) : Prop where
  ready : s.ready = true
  context : store.contains s.context = true
  handled : ∀ name ∈ s.handled, known name
  remaining : store.remaining s.handled ≤ types

/-- Whatever the first of two actions comes to, having met recursive types of which `known` holds, the second comes
to something that is related, from all states that fit. -/
def Carries (store : Store) (extended : Bool) (known : String → Prop) (types : Nat) {α β : Type} (x : Gen α) (y : Gen β)
    (Q : α → β → Prop) : Prop :=
  ∀ ⦃s t a⦄, x ⟨store, extended⟩ s = (.ok a, t) → s.handled ⊆ t.handled ∧ (∃ b, Q a b) ∧
    ((∀ name ∈ t.handled, known name) → ∀ ⦃s'⦄, store.Fits known types s' →
      ∃ b t', y ⟨store, extended⟩ s' = (.ok b, t') ∧ store.Fits known types t' ∧ Q a b)

theorem Carries.bind {α β γ δ : Type} {known : String → Prop} {types : Nat} {x : Gen α} {y : Gen β} {f : α → Gen γ}
    {f' : β → Gen δ} {Q : α → β → Prop} {S : γ → δ → Prop} (hxy : store.Carries extended known types x y Q)
    (hf : ∀ a b, Q a b → store.Carries extended known types (f a) (f' b) S) :
    store.Carries extended known types (x >>= f) (y >>= f') S := by
  intro s t c hc
  obtain ⟨a, s₁, ha, hc⟩ := bind_eq_ok.1 hc
  obtain ⟨hhandled, ⟨b, hab⟩, hcarries⟩ := hxy ha
  obtain ⟨hhandled', hex, -⟩ := hf a b hab hc
  refine ⟨List.Subset.trans hhandled hhandled', hex, fun hknown s' hs' => ?_⟩
  obtain ⟨b', s₁', hb', hs₁', hab'⟩ := hcarries (fun name hname => hknown name (hhandled' hname)) hs'
  obtain ⟨d, t', hd, ht', hcd⟩ := (hf a b' hab' hc).2.2 hknown hs₁'
  exact ⟨d, t', bind_eq_ok.2 ⟨b', s₁', hb', hd⟩, ht', hcd⟩

section Carrying

variable {schemata : Schemata} {g g' : Schema.Registry} {known : String → Prop} {types : Nat}

theorem exists_load_of_fits (h : Store.build schemata g = (.ok store, g')) (hc : store.Consistent)
    {name : String} {d : Json} {s : Generator} (hd : Json.lookup name store.database = some d)
    (hs : store.Fits known types s) :
    ∃ x t, Gen.load name ⟨store, extended⟩ s = (.ok x, t) ∧ x.Alike d ∧ store.Fits known types t := by
  obtain ⟨x, registry, hx, halike⟩ := exists_load h hc hs.context s.registry hd
  refine ⟨x, { s with registry }, ?_, halike, hs.ready, hs.context, hs.handled, hs.remaining⟩
  rw [Parallel.load_run, hx]

/-- What the first generator has come to the second comes to as well. -/
def carrying {context : String} (hcontext : store.contains context = true) (extended : Bool) (known : String → Prop)
    (types : Nat) : Lockstep Unit ⟨store, extended⟩ ⟨store, extended⟩ where
  holds _ x y Q := store.Carries extended known types x y (Q ())
  resembles := .refl _
  of_eq hxy hx hy s t a ha := by
    obtain ⟨hhandled, hex, hcarries⟩ := hxy (hx ▸ ha)
    refine ⟨hhandled, hex, fun hknown s' hs' => ?_⟩
    obtain ⟨b, t', hb, ht', hab⟩ := hcarries hknown hs'
    exact ⟨b, t', hy ▸ hb, ht', hab⟩
  pure hab s t a ha := by
    cases ha
    exact ⟨List.Subset.refl _, ⟨_, hab⟩, fun _ s' hs' => ⟨_, s', rfl, hs', hab⟩⟩
  throw _ _ _ _ _ ha := (throw_eq_ok.1 ha).elim
  bind hxy hfg := hxy.bind fun a b hab => hfg () a b le_rfl hab
  contexts _ c := store.contains c = true
  drawn _ _ _ _ _ := True
  stored := id
  draw {_ _ _ kind z _ _ _} hz hf := by
    obtain ⟨n, u, -, hrun⟩ := hz.exists_count
    refine Carries.bind (Q := fun a b => ∃ m n, a = variableName kind m ∧ b = variableName kind n) ?_ ?_
    · intro s t a ha
      cases (hrun _ s).symm.trans ha
      refine ⟨List.Subset.refl _, ⟨_, _, 0, rfl, rfl⟩, fun _ s' hs' => ⟨_, _, hrun _ s', ?_, _, _, rfl, rfl⟩⟩
      exact ⟨hs'.ready, hs'.context, hs'.handled, hs'.remaining⟩
    · rintro _ _ ⟨m, n, rfl, rfl⟩
      exact hf () m n le_rfl trivial
  declare _ _ s t a ha := by
    cases ha
    refine ⟨List.Subset.refl _, ⟨(), trivial⟩, fun _ s' hs' => ⟨(), _, rfl, ?_, trivial⟩⟩
    exact ⟨hs'.ready, hs'.context, hs'.handled, hs'.remaining⟩
  requireReady {_ s t a} ha := by
    obtain rfl := requireReady_eq_ok ha
    refine ⟨List.Subset.refl _, ⟨(), trivial⟩, fun _ s' hs' => ⟨(), s', ?_, hs', trivial⟩⟩
    change (if !s'.ready then throw SchemaError.templatesNotReady else pure () : Gen Unit) _ s' = _
    rw [hs'.ready]
    rfl
  get {_ s t a} ha := by
    obtain ⟨rfl, rfl⟩ := get_eq_ok.1 ha
    refine ⟨List.Subset.refl _, ⟨.new context [], hcontext⟩, fun _ s' hs' => ⟨s', s', rfl, hs', hs'.context⟩⟩
  setContext hcontext s t a ha := by
    cases ha
    refine ⟨List.Subset.refl _, ⟨(), trivial⟩, fun _ s' hs' => ⟨(), _, rfl, ?_, trivial⟩⟩
    exact ⟨hs'.ready, hcontext, hs'.handled, hs'.remaining⟩

theorem carries_load (h : Store.build schemata g = (.ok store, g')) (hc : store.Consistent) (name : String)
    {Q : Json → Json → Prop} (hQ : ∀ {x y}, x.Alike y → store.Loads name x → Q x y) :
    store.Carries extended known types (Gen.load name) (Gen.load name) Q := by
  intro s t x hx
  have hloads := loads_of_load hx
  obtain ⟨registry, -, rfl⟩ := load_eq_ok hx
  refine ⟨List.Subset.refl _, ⟨x, hQ (.refl x) hloads⟩, fun _ s' hs' => ?_⟩
  obtain ⟨d, hd, halike⟩ := hloads.exists_lookup h hc
  obtain ⟨y, t', hy, halike', ht'⟩ := exists_load_of_fits h hc hd hs'
  exact ⟨y, t', hy, ht', hQ (halike.symm.trans halike'.symm) hloads⟩

theorem carries_guardOf (h : Store.build schemata g = (.ok store, g')) (hc : store.Consistent) {context : String}
    (hcontext : store.contains context = true) (d : Json) :
    (carrying hcontext extended known types).holds () (guardOf d) (guardOf d) fun _ _ _ => True :=
  (carrying hcontext extended known types).bind_read
    ((carrying hcontext extended known types).guardIn (G := fun _ => Json.Alike)
      ⟨Parallel.stable_of_alike, trivial, fun _ => trivial, fun _ _ => trivial,
        fun _ _ => carries_load h hc _ fun hxy _ => hxy, fun _ _ _ _ ha => (throw_eq_ok.1 ha).elim⟩ (.refl d))

end Carrying

/-! ### Shortest runs -/

/-- Code of a kind was generated for a type, or for one that is alike, with so many steps inside one another. Of the
recursive types that had been met then `known` holds. -/
def MadeIn (store : Store) (extended : Bool) (known : String → Prop) (mode : Mode) (n : Nat) (d : Json) : Prop :=
  ∃ d' p s t a, d.Alike d' ∧ (checked n).make mode d' p ⟨store, extended⟩ s = (.ok a, t) ∧
    ∀ name ∈ t.handled, known name

open Classical in
/-- The number of definitions that code can be generated for with less than so many steps inside one another. -/
noncomputable def within (store : Store) (made : Nat → Json → Prop) (n : Nat) : Nat :=
  (store.database.filter fun e => ∃ m < n, made m e.2).length

section Shortest

variable {made : Nat → Json → Prop} {m n : Nat} {name : String} {d : Json}

theorem within_le_length : store.within made n ≤ store.database.length := List.length_filter_le ..

theorem within_mono (h : m ≤ n) : store.within made m ≤ store.within made n := by
  classical
  refine List.Sublist.length_le (List.monotone_filter_right _ fun e he => ?_)
  obtain ⟨k, hk, hmade⟩ := of_decide_eq_true he
  exact decide_eq_true ⟨k, hk.trans_le h, hmade⟩

theorem within_lt (hd : Json.lookup name store.database = some d) (hmade : made m d) (hleast : ∀ k < m, ¬made k d)
    (hmn : m < n) : store.within made m < store.within made n := by
  classical
  have hfilter : (store.database.filter fun e => ∃ k < m, made k e.2) =
      (store.database.filter fun e => ∃ k < n, made k e.2).filter fun e => ∃ k < m, made k e.2 := by
    rw [List.filter_filter]
    refine List.filter_congr fun e _ => ?_
    rw [eq_comm, Bool.and_eq_left_iff_imp]
    intro he
    obtain ⟨k, hk, hmade⟩ := of_decide_eq_true he
    exact decide_eq_true ⟨k, hk.trans hmn, hmade⟩
  rw [within, hfilter]
  refine List.length_filter_lt_length_iff_exists.2 ⟨(name, d), ?_, ?_⟩
  · exact List.mem_filter.2 ⟨Json.mem_of_lookup hd, decide_eq_true ⟨m, hmn, hmade⟩⟩
  · rw [decide_eq_true_eq]
    rintro ⟨k, hk, hmade⟩
    exact hleast k hk hmade

theorem exists_shortest (hd : Json.lookup name store.database = some d) (hmade : made n d) :
    ∃ m ≤ n, made m d ∧ store.within made m < store.within made (n + 1) := by
  classical
  have hex : ∃ m, made m d := ⟨n, hmade⟩
  have hle : Nat.find hex ≤ n := Nat.find_min' hex hmade
  exact ⟨Nat.find hex, hle, Nat.find_spec hex,
    within_lt hd (Nat.find_spec hex) (fun k hk => Nat.find_min hex hk) (Nat.lt_succ_of_le hle)⟩

end Shortest

/-! ### The second run -/

section Repeated

variable {schemata : Schemata} {g g' : Schema.Registry} {known : String → Prop}

variable {types k depth depth' steps names n : Nat}

/-- The definition of a recursive type can be entered with the steps that are left, since there is one type less. -/
theorem weight_routine (hk : k ≤ store.database.length)
    (hdepth : depth' ≤ store.database.depth)
    (hweight : store.weight (types + 1) names depth < steps + 1) : store.weight types k depth' < steps := by
  have hle : (types * (store.database.length + 1) + k + 1) * (store.database.depth + 1) ≤
      ((types + 1) * (store.database.length + 1) + names) * (store.database.depth + 1) := by
    refine Nat.mul_le_mul_right _ ?_
    rw [Nat.add_mul types 1, Nat.one_mul]
    omega
  rw [Nat.add_mul _ 1, Nat.one_mul] at hle
  unfold weight at hweight ⊢
  omega

/-- A definition can be entered with the steps that are left, since there is one definition less. -/
theorem weight_load (hk : k < names)
    (hdepth : depth' ≤ store.database.depth) (hweight : store.weight types names depth < steps + 1) :
    store.weight types k depth' < steps := by
  have hle : (types * (store.database.length + 1) + k + 1) * (store.database.depth + 1) ≤
      (types * (store.database.length + 1) + names) * (store.database.depth + 1) :=
    Nat.mul_le_mul_right _ (by omega)
  rw [Nat.add_mul _ 1, Nat.one_mul] at hle
  unfold weight at hweight ⊢
  omega

theorem weight_mono (hk : k ≤ names) (hdepth : depth' < depth)
    (hweight : store.weight types names depth < steps + 1) : store.weight types k depth' < steps := by
  have hle : (types * (store.database.length + 1) + k) * (store.database.depth + 1) ≤
      (types * (store.database.length + 1) + names) * (store.database.depth + 1) :=
    Nat.mul_le_mul_right _ (by omega)
  unfold weight at hweight ⊢
  omega

theorem exists_draft {rec : Recursion} {x : Json} {s : Generator} (hparsed : Schema.IsParsed x)
    (hmake : ∀ mode z s, z.Alike x → store.Fits known types s →
      ∃ a t, rec.make mode z (.of "data") ⟨store, extended⟩ s = (.ok a, t) ∧ store.Fits known types t)
    (hs : store.Fits known types { s with ready := true }) :
    ∃ m t, draft rec x ⟨store, extended⟩ s = (.ok m, t) ∧ store.Fits known types t := by
  obtain ⟨z, registry, hparse, halike⟩ := hparsed.exists_parseOpen s.registry
  obtain ⟨a, s₁, ha, hs₁⟩ := hmake .write z { s with ready := true, registry } halike
    ⟨hs.ready, hs.context, hs.handled, hs.remaining⟩
  obtain ⟨b, s₂, hb, hs₂⟩ := hmake .read z { s₁ with declarations := [] } halike
    ⟨hs₁.ready, hs₁.context, hs₁.handled, hs₁.remaining⟩
  refine ⟨⟨s₁.declarations, a, s₂.declarations, b⟩, { s₂ with declarations := [] }, ?_, ?_⟩
  · exact draft_eq_ok.2 ⟨z, registry, s₁, s₂, hparse, ha, hb, rfl, rfl, rfl⟩
  · exact ⟨hs₂.ready, hs₂.context, hs₂.handled, hs₂.remaining⟩

/-- What has been made once can be made again, with enough steps. -/
def Repeats (store : Store) (extended : Bool) (known : String → Prop) (types n : Nat) : Prop :=
  ∀ mode d d' p (q : Place) steps, d.Alike d' → (mode = .write → q.root ≠ "") →
    store.weight types (store.within (store.MadeIn extended known mode) n) d.depth < steps →
    store.Carries extended known types ((checked n).make mode d p) ((upTo steps).make mode d' q)
      fun _ _ => True

/-- Code was generated for the definitions of all recursive types of which `known` holds. -/
def Knowable (store : Store) (extended : Bool) (known : String → Prop) : Prop :=
  ∀ name, known name → ∃ d, Json.lookup name store.database = some d ∧ ∀ mode, ∃ n, store.MadeIn extended known mode n d

variable (h : Store.build schemata g = (.ok store, g')) (hc : store.Consistent) {context name : String}
include h hc

/-- Making the routine of a recursive type, with one type less. -/
theorem carries_meet (hknown : store.Knowable extended known)
    (hrepeats : ∀ types', types = types' + 1 → ∀ n, store.Repeats extended known types' n)
    (hflag : store.isCycleStarting name = true) (hweight : store.weight types names depth < steps + 1) :
    store.Carries extended known types (meet (.checked n) name) (meet (.upTo steps) name) fun _ _ => True := by
  intro s t u hrun
  obtain ⟨hgrows, hmem⟩ := grows_meet (hygienic_checked (hasDot_of_contains h) n) hrun
  refine ⟨hgrows.handled, ⟨(), trivial⟩, fun hk s' hs' => ?_⟩
  by_cases hmet : name ∈ s'.handled
  · exact ⟨(), s', meet_of_mem hmet, hs', trivial⟩
  obtain ⟨d, hd, hmade⟩ := hknown name (hk name hmem)
  have hlt := remaining_append hflag hmet
  have hle := hs'.remaining
  cases types with
  | zero => omega
  | succ types =>
    have hbegun : store.Fits known types { s' with handled := s'.handled ++ [name] } := by
      refine ⟨hs'.ready, hs'.context, fun a ha => ?_, Nat.le_of_lt_succ (hlt.trans_le hle)⟩
      rcases List.mem_append.1 ha with ha | ha
      · exact hs'.handled a ha
      · exact List.mem_singleton.1 ha ▸ hk name hmem
    obtain ⟨x, s₁, hx, halike, hs₁⟩ := exists_load_of_fits h hc hd hbegun
    obtain ⟨m, s₂, hm, hs₂⟩ : ∃ m s₂, draft (.upTo steps) x ⟨store, extended⟩ s₁ = (.ok m, s₂) ∧
        store.Fits known types s₂ := by
      refine exists_draft ((hc.parsed hd).alike halike.symm) (fun mode z s hz hs => ?_)
        ⟨rfl, hs₁.context, hs₁.handled, hs₁.remaining⟩
      obtain ⟨k, d', p, s₀, t₀, a, hd', ha, hall⟩ := hmade mode
      have hdepth : d'.depth ≤ store.database.depth := hd'.depth ▸ Json.depth_le_of_lookup hd
      have hcarries := hrepeats types rfl k mode d' z p (.of "data") steps (hd'.symm.trans (halike.symm.trans hz.symm))
        (fun _ => by decide) (weight_routine within_le_length hdepth hweight)
      obtain ⟨b, t', hb, ht', -⟩ := (hcarries ha).2.2 hall hs
      exact ⟨b, t', hb, ht'⟩
    refine ⟨(), _, (meet_eq_ok hmet).2 ⟨x, s₁, m, s₂, hx, hm, rfl⟩, ?_, trivial⟩
    exact ⟨hs₂.ready, hs₂.context, hs₂.handled, hs₂.remaining.trans (Nat.le_succ _)⟩

/-- Entering a definition: it is not the run that was found that is repeated, but a shortest one. -/
theorem carries_loaded (mode : Mode) {p q : Place} {x y : Json}
    (hrepeats : ∀ m ≤ n, store.Repeats extended known types m) (hq : mode = .write → q.root ≠ "")
    (hx : store.Loads name x) (hxy : x.Alike y)
    (hweight : store.weight types (store.within (store.MadeIn extended known mode) (n + 1)) depth < steps + 1) :
    store.Carries extended known types ((checked n).make mode x p) ((upTo steps).make mode y q)
      fun _ _ => True := by
  intro s t a ha
  have hgrows := (hygienic_checked (hasDot_of_contains h) n).grows mode x p ha
  refine ⟨hgrows.handled, ⟨a, trivial⟩, fun hall s' hs' => ?_⟩
  obtain ⟨d, hd, halike⟩ := hx.exists_lookup h hc
  have hmade : store.MadeIn extended known mode n d := ⟨x, p, s, t, a, halike, ha, hall⟩
  obtain ⟨m, hmn, ⟨d', p', s₀, t₀, a', hd', ha', hall'⟩, hlt⟩ := exists_shortest hd hmade
  have hdepth : d'.depth ≤ store.database.depth := hd'.depth ▸ Json.depth_le_of_lookup hd
  have hcarries := hrepeats m hmn mode d' y p' q steps (hd'.symm.trans (halike.trans hxy)) hq
    (weight_load hlt hdepth hweight)
  obtain ⟨b, t', hb, ht', -⟩ := (hcarries ha').2.2 hall' hs'
  exact ⟨b, t', hb, ht', trivial⟩

/-- One more step can be repeated if the steps inside it can. -/
theorem repeats_step (hknown : store.Knowable extended known) (hcontext : store.contains context = true)
    (houter : ∀ types', types = types' + 1 → ∀ n, store.Repeats extended known types' n)
    (hinner : ∀ m ≤ n, store.Repeats extended known types m) : store.Repeats extended known types (n + 1) := by
  intro mode d d' p q steps halike hq hweight s t a ha
  have hsteps : steps ≠ 0 := fun h0 => absurd (h0 ▸ hweight) (Nat.not_lt_zero _)
  obtain ⟨steps, rfl⟩ := Nat.exists_eq_succ_of_ne_zero hsteps
  -- The types inside the schema, and the definitions that it refers to.
  let Inner (x y : Json) : Prop := x.Alike y ∧ (x ∈ d.parts ∨ ∃ name, store.Loads name x)
  have hinside : ∀ {x y} (p q : Place), Inner x y → (mode = .write → q.root ≠ "") →
      store.Carries extended known types ((checked n).make mode x p)
        ((upTo steps).make mode y q) fun _ _ => True := by
    rintro x y p q ⟨hxy, hx | ⟨name, hx⟩⟩ hq
    · refine hinner n le_rfl mode x y p q steps hxy hq ?_
      exact weight_mono (within_mono (Nat.le_succ n)) (Json.depth_lt_of_mem_parts hx) hweight
    · exact carries_loaded h hc mode hinner hq hx hxy hweight
  have hpremises : (carrying hcontext extended known types).Premises (fun x y => x = d ∧ x.Alike y) Inner
      (fun _ _ => True) (.checked n) (.upTo steps) :=
    .of_alike (fun hd => hd.2) (fun hd hx => ⟨.refl _, .inl (hd.1 ▸ hx)⟩)
      (by rw [← Bool.not_eq_true]; exact fun hfixed => absurd (hasDot_of_contains h hfixed) (by decide))
      (fun _ _ _ => carries_load h hc _ fun hxy hx => ⟨hx, fun _ => ⟨hxy, .inr ⟨_, hx⟩⟩⟩)
      fun _ _ _ hflag => carries_meet h hc hknown houter hflag hweight
  cases mode with
  | write =>
    have hwriting : (carrying hcontext extended known types).Writing (fun x y => x = d ∧ x.Alike y) Inner
        (fun _ _ => True) (.checked n) (.upTo steps) (fun _ q => q.root ≠ "") (fun _ _ _ => True)
        (fun _ _ _ _ _ _ _ _ => True) fun _ _ _ _ _ _ _ _ => True :=
      { toPremises := hpremises
        rules := by constructor <;> intros <;> trivial
        encode := fun hd hq => hinside _ _ hd fun _ => hq
        guards := fun _ => carries_guardOf h hc hcontext _
        value := fun _ => variableName_ne_empty _ _
        member := fun _ _ _ hq => hq
        text := fun hq => ⟨fun _ => .inr fun ha => (throw_eq_ok.1 ha).elim,
          fun htext => absurd htext (Place.text_ne_empty hq)⟩ }
    exact hwriting.encodeStep (w := ()) ⟨rfl, halike⟩ (hq rfl) (visiting_eq_ok eq_of_checkHandled ha)
  | read =>
    have hreading : (carrying hcontext extended known types).Reading (fun x y => x = d ∧ x.Alike y) Inner
        (fun _ _ => True) (.checked n) (.upTo steps) (fun _ _ => True) (fun _ _ _ _ _ _ _ _ => True)
        fun _ _ _ _ _ _ _ _ => True :=
      { toPremises := hpremises
        rules := by constructor <;> intros <;> trivial
        decode := fun hd _ => hinside _ _ hd nofun
        value := fun _ => trivial
        entry := fun _ _ => trivial
        member := fun _ => trivial }
    exact hreading.decodeStep (w := ()) ⟨rfl, halike⟩ trivial (visiting_eq_ok eq_of_checkHandled ha)

theorem repeats (hknown : store.Knowable extended known) (hcontext : store.contains context = true)
    (types n : Nat) : store.Repeats extended known types n := by
  have hrun : ∀ types, (∀ types', types = types' + 1 → ∀ n, store.Repeats extended known types' n) →
      ∀ n, store.Repeats extended known types n := by
    intro types houter n
    induction n using Nat.strong_induction_on with
    | _ n ih =>
      cases n with
      | zero =>
        intro mode d d' p q steps _ _ _ s t a ha
        cases mode <;> exact (throw_eq_ok.1 ha).elim
      | succ n => exact repeats_step h hc hknown hcontext houter fun m hm => ih m (Nat.lt_succ_of_le hm)
  induction types generalizing n with
  | zero => exact hrun 0 nofun n
  | succ types ih =>
    refine hrun (types + 1) ?_ n
    intro types' htypes
    cases htypes
    exact ih

end Repeated

end Store

end AvroCodec
