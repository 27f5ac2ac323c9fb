import AvroCodec.Codec.Read
import AvroCodec.Proofs.Encoding
import AvroCodec.Proofs.Path

/-!
# Code that stores what it reads

Code that reads works on variables. `Decoder.Stores` says that code takes exactly some bytes and stores
one value at its place, and that it changes no variable besides, those apart that it has for itself.
There is one lemma for each construct of the code.
-/

namespace AvroCodec

open Code

namespace Variables

variable {name y : String} {vars vars' : Variables} {v : Value} {path path' : List Subscript} {ks ks' : List String}

/-- The variables that hold the keys of a path. -/
def keyVariables : List Subscript → List String
  | [] => []
  | .member _ :: path => keyVariables path
  | .bound key :: path => key :: keyVariables path

theorem keyVariables_append (path path' : List Subscript) :
    keyVariables (path ++ path') = keyVariables path ++ keyVariables path' := by
  induction path with
  | nil => rfl
  | cons s path ih => cases s <;> simp [keyVariables, ih]

theorem lookup_filter_ne (h : y ≠ name) (vars : Variables) : lookup y (vars.filter (·.1 != name)) = lookup y vars := by
  induction vars with
  | nil => rfl
  | cons b rest ih =>
    obtain ⟨n, v⟩ := b
    by_cases hn : n = name
    · simp only [hn, List.filter_cons, bne_self_eq_false, Bool.false_eq_true, if_false, ih, lookup,
        if_neg (Ne.symm h)]
    · have hkeep : (n != name) = true := by simpa using hn
      simp only [List.filter_cons, hkeep, if_true, lookup, ih]

@[simp]
theorem lookup_set_self (vars : Variables) (name : String) (v : Value) : lookup name (set vars name v) = some v := by
  simp [set, lookup]

theorem lookup_set_of_ne (h : y ≠ name) (vars : Variables) (v : Value) :
    lookup y (set vars name v) = lookup y vars := by
  simp only [set, lookup, if_neg (Ne.symm h), lookup_filter_ne h]

theorem get_eq_ok : get vars name = .ok v ↔ lookup name vars = some v := by
  cases h : lookup name vars <;> simp [get, h]

theorem keys_congr (h : ∀ y ∈ keyVariables path, lookup y vars' = lookup y vars) :
    keys vars' path = keys vars path := by
  induction path with
  | nil => rfl
  | cons s path ih =>
    cases s with
    | member name => rw [keys, keys, ih h]
    | bound key =>
      have hkey : get vars' key = get vars key := by
        rw [get, get, h key List.mem_cons_self]
      rw [keys, keys, hkey, ih fun y hy => h y (List.mem_cons_of_mem _ hy)]

theorem keys_append (h : keys vars path = .ok ks) (h' : keys vars path' = .ok ks') :
    keys vars (path ++ path') = .ok (ks ++ ks') := by
  induction path generalizing ks with
  | nil =>
    cases h
    exact h'
  | cons s path ih =>
    cases s with
    | member name =>
      rw [keys, except_bind_eq_ok] at h
      obtain ⟨rest, hrest, hks⟩ := h
      cases hks
      rw [List.cons_append, keys, ih hrest]
      rfl
    | bound key =>
      rw [keys, except_bind_eq_ok] at h
      obtain ⟨v, hv, h⟩ := h
      cases v with
      | str k =>
        rw [except_bind_eq_ok] at h
        obtain ⟨rest, hrest, hks⟩ := h
        cases hks
        rw [List.cons_append, keys, hv]
        simp only [bind, Except.bind, ih hrest]
        rfl
      | _ => cases h

end Variables

namespace Reading

variable {r : Reading} {ks : List String} {p : Place}

@[simp]
theorem lookup_set_self (r : Reading) (name : String) (v : Value) :
    Variables.lookup name (r.set name v).bindings = some v :=
  Variables.lookup_set_self ..

theorem lookup_set_of_ne {name y : String} (h : y ≠ name) (r : Reading) (v : Value) :
    Variables.lookup y (r.set name v).bindings = Variables.lookup y r.bindings :=
  Variables.lookup_set_of_ne h ..

theorem get_eq_ok {name : String} {v : Value} : r.get name = .ok v ↔ Variables.lookup name r.bindings = some v :=
  Variables.get_eq_ok

/-- A place that can be reached: its keys, and the value of its variable, into which anything can be
stored. A place that is a variable needs no value. -/
structure Reaches (r : Reading) (p : Place) (ks : List String) (held : Value) : Prop where
  keys_eq : r.keys p.path = .ok ks
  held_eq : p.path = [] ∨ Variables.lookup p.root r.bindings = some held
  fits : ∀ x, ∃ u, Value.store x ks held = .ok u

theorem reaches_variable (r : Reading) (name : String) (held : Value) :
    r.Reaches (.of name) [] held :=
  ⟨rfl, .inl rfl, fun x => ⟨x, rfl⟩⟩

/-- A value was stored at a place, and no other variable has changed besides those in `V`. -/
structure Stored (V : String → Prop) (p : Place) (ks : List String) (held x : Value)
    (r r' : Reading) : Prop where
  stored : ∃ u, Value.store x ks held = .ok u ∧ Variables.lookup p.root r'.bindings = some u
  others : ∀ y, y ≠ p.root → ¬ V y → Variables.lookup y r'.bindings = Variables.lookup y r.bindings

theorem exists_assign {held : Value} (V : String → Prop) (hr : r.Reaches p ks held) (x : Value) :
    ∃ r', r.assign p x = .ok r' ∧ r'.rest = r.rest ∧ Stored V p ks held x r r' := by
  obtain ⟨u, hu⟩ := hr.fits x
  refine ⟨r.set p.root u, ?_, rfl, ⟨u, hu, Reading.lookup_set_self ..⟩, fun y hy _ => Reading.lookup_set_of_ne hy ..⟩
  unfold assign
  cases hp : p.path with
  | nil =>
    have hks : ks = [] := by
      have hkeys := hr.keys_eq
      rw [hp] at hkeys
      exact (Except.ok.inj hkeys).symm
    rw [hks] at hu
    cases hu
    rfl
  | cons s path =>
    have hget : r.get p.root = .ok held := Reading.get_eq_ok.2 (hr.held_eq.resolve_left (by simp [hp]))
    have hkeys := hr.keys_eq
    rw [hp] at hkeys
    simp only [hget, hkeys, bind, Except.bind, hu]
    rfl

theorem exists_readTo {reader : List UInt8 → Except CodecError (Value × List UInt8)} {held x : Value}
    {bytes rest : List UInt8} (V : String → Prop) (hread : reader bytes = .ok (x, rest)) (hrest : r.rest = bytes)
    (hr : r.Reaches p ks held) : ∃ r', r.readTo p reader = .ok r' ∧ r'.rest = rest ∧ Stored V p ks held x r r' := by
  have hkeys : ({ r with rest } : Reading).keys p.path = r.keys p.path := Variables.keys_congr fun _ _ => rfl
  have hr' : Reaches { r with rest } p ks held := ⟨hkeys.trans hr.keys_eq, hr.held_eq, hr.fits⟩
  obtain ⟨r', hassign, hrest', hothers⟩ := exists_assign V hr' x
  refine ⟨r', ?_, hrest', hothers.stored, hothers.others⟩
  unfold readTo
  rw [hrest, hread]
  exact hassign

end Reading

/-- A place that stays as it is while the variables in `V` change. -/
structure Code.Place.Clear (V : String → Prop) (p : Place) : Prop where
  root : ¬ V p.root
  keys : ∀ y ∈ Variables.keyVariables p.path, ¬ V y
  apart : p.root ∉ Variables.keyVariables p.path

namespace Code.Place

variable {p : Place} {V : String → Prop}

theorem clear_of {name : String} (h : ¬ V name) : (Place.of name).Clear V :=
  ⟨h, by simp [Place.of, Variables.keyVariables], by simp [Place.of, Variables.keyVariables]⟩

theorem Clear.mono {W : String → Prop} (h : p.Clear V) (hWV : ∀ y, W y → V y) : p.Clear W :=
  ⟨fun hW => h.root (hWV _ hW), fun y hy hW => h.keys y hy (hWV y hW), h.apart⟩

theorem Clear.member (h : p.Clear V) (name : Json) : (p.member name).Clear V := by
  refine ⟨h.root, ?_, ?_⟩ <;>
    simp only [Place.member, Variables.keyVariables_append, Variables.keyVariables, List.append_nil]
  · exact h.keys
  · exact h.apart

theorem Clear.entry {key : String} (h : p.Clear V) (hk : ¬ V key) (hne : key ≠ p.root) : (p.entry key).Clear V := by
  refine ⟨h.root, ?_, ?_⟩ <;>
    simp only [Place.entry, Variables.keyVariables_append, Variables.keyVariables, List.mem_append,
      List.mem_singleton]
  · rintro y (hy | rfl)
    · exact h.keys y hy
    · exact hk
  · rintro (hroot | hroot)
    · exact h.apart hroot
    · exact hne hroot.symm

end Code.Place

namespace Reading

variable {V : String → Prop} {p : Place} {ks : List String} {held x : Value} {r r₁ r₂ : Reading}

variable {entries : List (Value × Value)} {key name : String}

theorem Stored.keys_eq (h : Stored V p ks held x r r₁) (hp : p.Clear V) :
    r₁.keys p.path = r.keys p.path :=
  Variables.keys_congr fun y hy => h.others y (fun hroot => hp.apart (hroot ▸ hy)) (hp.keys y hy)

theorem Stored.mono {W : String → Prop} (h : Stored W p ks held x r r₁) (hWV : ∀ y, W y → V y) :
    Stored V p ks held x r r₁ :=
  ⟨h.stored, fun y hy hV => h.others y hy fun hW => hV (hWV y hW)⟩

theorem Stored.forget (h : Stored V p ks held x r r₁) (rest : List UInt8) :
    Stored V p ks held x r { r₁ with rest } :=
  ⟨h.stored, h.others⟩

theorem Stored.set (h : Stored V p ks held x r r₁) (hV : V name) (hne : name ≠ p.root)
    (v : Value) : Stored V p ks held x r (r₁.set name v) := by
  obtain ⟨u, hu, hroot⟩ := h.stored
  refine ⟨⟨u, hu, ?_⟩, ?_⟩
  · rw [Reading.lookup_set_of_ne (Ne.symm hne), hroot]
  · intro y hy hVy
    have hyname : y ≠ name := by
      rintro rfl
      exact hVy hV
    rw [Reading.lookup_set_of_ne hyname, h.others y hy hVy]

theorem Stored.congr (h : Stored V p ks held x r r₁) (hroot : ¬ V p.root)
    (hsame : ∀ y, ¬ V y → Variables.lookup y r₂.bindings = Variables.lookup y r₁.bindings) :
    Stored V p ks held x r r₂ := by
  obtain ⟨u, hu, hlookup⟩ := h.stored
  exact ⟨⟨u, hu, (hsame _ hroot).trans hlookup⟩,
    fun y hy hV => (hsame y hV).trans (h.others y hy hV)⟩

theorem Reaches.congr (h : r₁.Reaches p ks held) (hp : p.Clear V)
    (hsame : ∀ y, ¬ V y → Variables.lookup y r₂.bindings = Variables.lookup y r₁.bindings) : r₂.Reaches p ks held :=
  ⟨(Variables.keys_congr fun y hy => hsame y (hp.keys y hy)).trans h.keys_eq,
    h.held_eq.imp_right (hsame _ hp.root).trans, h.fits⟩

theorem Stored.assign (h : Stored V p ks held x r r₁) (hp : p.Clear V) (hr : r.Reaches p ks held)
    (y : Value) : ∃ u, Variables.lookup p.root r₁.bindings = some u ∧ r₁.keys p.path = .ok ks ∧
      u.walk ks = .ok x ∧ ∃ u', Value.store y ks u = .ok u' ∧
        Stored V p ks held y r (r₁.set p.root u') := by
  obtain ⟨u, hu, hroot⟩ := h.stored
  obtain ⟨u', hu'⟩ := hr.fits y
  refine ⟨u, hroot, (h.keys_eq hp).trans hr.keys_eq, Value.walk_of_store hu, u',
    (Value.store_store hu).trans hu', ⟨u', hu', Reading.lookup_set_self ..⟩, ?_⟩
  intro z hz hV
  rw [Reading.lookup_set_of_ne hz, h.others z hz hV]

theorem Stored.again (h : Stored V p ks held x r r₁) (hp : p.Clear V) (hr : r.Reaches p ks held) :
    ∃ u, r₁.Reaches p ks u ∧ ∀ y r₂, Stored V p ks u y r₁ r₂ → Stored V p ks held y r r₂ := by
  obtain ⟨u, hu, hroot⟩ := h.stored
  refine ⟨u, ⟨(h.keys_eq hp).trans hr.keys_eq, .inr hroot, fun y => ?_⟩, ?_⟩
  · rw [Value.store_store hu]
    exact hr.fits y
  · rintro y r₂ ⟨⟨u', hu', hroot'⟩, hothers⟩
    rw [Value.store_store hu] at hu'
    refine ⟨⟨u', hu', hroot'⟩, fun z hz hV => ?_⟩
    rw [hothers z hz hV, h.others z hz hV]

theorem Stored.entry {q : Place} (h : Stored V p ks held (.map entries) r r₁) (hr : r.Reaches p ks held)
    (hq : q.root = p.root) (hkeys : r₁.keys q.path = .ok (ks ++ [key])) :
    ∃ u, r₁.Reaches q (ks ++ [key]) u ∧ ∀ y r₂, Stored V q (ks ++ [key]) u y r₁ r₂ →
      Stored V p ks held (.map (Value.putEntry key y entries)) r r₂ := by
  obtain ⟨u, hu, hroot⟩ := h.stored
  have hstore : ∀ y, Value.store y (ks ++ [key]) u =
      Value.store (.map (Value.putEntry key y entries)) ks held := by
    intro y
    rw [Value.store_append (Value.walk_of_store hu), Value.store_store hu]
  refine ⟨u, ⟨hkeys, .inr (hq ▸ hroot), ?_⟩, ?_⟩
  · intro y
    rw [hstore]
    exact hr.fits _
  · rintro y r₂ ⟨⟨u', hu', hroot'⟩, hothers⟩
    refine ⟨⟨u', by rw [← hstore, hu'], hq ▸ hroot'⟩, ?_⟩
    intro z hz hV
    rw [hothers z (hq.symm ▸ hz) hV, h.others z hz hV]

theorem Stored.boundEntry (h : Stored V p ks held (.map entries) r r₁) (hp : p.Clear V) (hr : r.Reaches p ks held)
    (hkey : V key) (rest : List UInt8) (s : String) :
    ∃ u, (Reading.set { r₁ with rest } key (.str s)).Reaches (p.entry key) (ks ++ [s]) u ∧
      ∀ y r₂, Stored V (p.entry key) (ks ++ [s]) u y (Reading.set { r₁ with rest } key (.str s)) r₂ →
        Stored V p ks held (.map (Value.putEntry s y entries)) r r₂ := by
  have hne : key ≠ p.root := by
    rintro rfl
    exact hp.root hkey
  have hset := (h.forget rest).set hkey hne (.str s)
  refine hset.entry hr rfl (Variables.keys_append ((hset.keys_eq hp).trans hr.keys_eq) ?_)
  simp only [Variables.keys, Variables.get_eq_ok.2 (Reading.lookup_set_self ..)]
  rfl

theorem Stored.memberEntry (h : Stored V p ks held (.map entries) r r₁) (hp : p.Clear V) (hr : r.Reaches p ks held)
    (hname : Form.isFieldName name = true) :
    ∃ u, r₁.Reaches (p.member (.str name)) (ks ++ [name]) u ∧
      ∀ y r₂, Stored V (p.member (.str name)) (ks ++ [name]) u y r₁ r₂ →
        Stored V p ks held (.map (Value.putEntry name y entries)) r r₂ := by
  refine h.entry hr rfl (Variables.keys_append ((h.keys_eq hp).trans hr.keys_eq) ?_)
  change Except.ok [literalText name] = _
  rw [literalText_of_isFieldName hname]

end Reading

/-- Code takes exactly these bytes, with the given ones after them, and stores this value at its place. -/
def Code.Decoder.StoresBefore (call : String → List UInt8 → Except CodecError (Value × List UInt8))
    (V : String → Prop) (p : Place) (d : Decoder) (bytes rest : List UInt8) (x : Value) : Prop :=
  ∀ (r : Reading) (ks : List String) (held : Value), r.rest = bytes ++ rest → r.Reaches p ks held →
    ∃ r', d.run call r = .ok r' ∧ r'.rest = rest ∧ Reading.Stored V p ks held x r r'

/-- Code takes exactly these bytes and stores this value at its place. -/
def Code.Decoder.Stores (call : String → List UInt8 → Except CodecError (Value × List UInt8))
    (V : String → Prop) (p : Place) (d : Decoder) (bytes : List UInt8) (x : Value) : Prop :=
  ∀ rest, StoresBefore call V p d bytes rest x

end AvroCodec
