import AvroCodec.Proofs.Emitting
import AvroCodec.Proofs.Recompiled

/-!
# Tags that are texts

A variable for a tag that is declared as text takes nothing but texts. Whether it is declared so depends on
the functions that were generated in between. It makes no difference to a value whose pairs all begin with
a text, as long as the defaults that are put into it are such values as well.
-/

namespace AvroCodec

open Code Place Written

namespace Value

variable {entries : List (Value × Value)} {v x u y : Value} {path : List String} {items : List Value} {key : String}

/-- Items that may be a tag and what it is the tag of. -/
def beginsWithText : List Value → Bool
  | [tag, _] => tag.isStr || tag.isNull
  | _ => true

mutual

/-- Whether all pairs inside a value begin with a text, or with nothing. -/
def textTagged : Value → Bool
  | .list items => textTaggedItems items
  | .tuple items => beginsWithText items && textTaggedItems items
  | .map entries => textTaggedEntries entries
  | _ => true

def textTaggedItems : List Value → Bool
  | [] => true
  | v :: vs => textTagged v && textTaggedItems vs

def textTaggedEntries : List (Value × Value) → Bool
  | [] => true
  | (k, v) :: rest => textTagged k && textTagged v && textTaggedEntries rest

end

theorem textTaggedItems_iff : textTaggedItems items = true ↔ ∀ v ∈ items, v.textTagged = true := by
  induction items with
  | nil => simp [textTaggedItems]
  | cons v vs ih => rw [textTaggedItems, Bool.and_eq_true, ih, List.forall_mem_cons]

theorem textTaggedEntries_iff : textTaggedEntries entries = true ↔
    ∀ e ∈ entries, e.1.textTagged = true ∧ e.2.textTagged = true := by
  induction entries with
  | nil => simp [textTaggedEntries]
  | cons e entries ih => rw [textTaggedEntries, Bool.and_eq_true, Bool.and_eq_true, ih, List.forall_mem_cons]

theorem textTagged_of_find? (h : find? key entries = some v)
    (hentries : textTaggedEntries entries = true) : v.textTagged = true := by
  fun_induction find? key entries with
  | case1 => cases h
  | case2 w rest =>
    cases h
    rw [textTaggedEntries, Bool.and_eq_true, Bool.and_eq_true] at hentries
    exact hentries.1.2
  | case3 k w rest _ ih =>
    rw [textTaggedEntries, Bool.and_eq_true] at hentries
    exact ih h hentries.2
  | case4 e rest _ ih =>
    rw [textTaggedEntries, Bool.and_eq_true] at hentries
    exact ih h hentries.2

theorem textTagged_of_walk (h : walk path v = .ok x) (hv : v.textTagged = true) :
    x.textTagged = true := by
  induction path generalizing v with
  | nil =>
    cases h
    exact hv
  | cons key path ih =>
    obtain ⟨entries, w, rfl, hw, hx⟩ := walk_cons_eq_ok.1 h
    exact ih hx (textTagged_of_find? hw hv)

theorem textTagged_putEntry (hx : x.textTagged = true)
    (hentries : textTaggedEntries entries = true) : textTaggedEntries (putEntry key x entries) = true := by
  fun_induction putEntry key x entries with
  | case1 => simp [textTaggedEntries, textTagged, hx]
  | case2 w rest => simp_all [textTaggedEntries]
  | case3 k w rest _ ih => simp_all [textTaggedEntries]
  | case4 e rest _ ih => simp_all [textTaggedEntries]

/-- What a value may become where only values of which all pairs begin with texts are put into it. A text stays a
text. -/
structure Keeps (v u : Value) : Prop where
  textTagged : u.textTagged = true
  isStr : v.isStr = true → u.isStr = true

theorem Keeps.refl (h : v.textTagged = true) : v.Keeps v := ⟨h, id⟩

theorem Keeps.trans {w : Value} (h : v.Keeps u) (h' : u.Keeps w) : v.Keeps w :=
  ⟨h'.textTagged, fun hv => h'.isStr (h.isStr hv)⟩

theorem Keeps.kept (hv : v.textTagged = true) (h : v.Keeps u) : v.Keeps (kept v u) := by
  unfold AvroCodec.kept
  split_ifs
  · exact .refl hv
  · exact h

theorem textTagged_of_store (h : store y path v = .ok u) (hv : v.textTagged = true)
    (hy : y.textTagged = true) : u.textTagged = true := by
  induction path generalizing v u with
  | nil =>
    cases h
    exact hy
  | cons key path ih =>
    cases path with
    | nil =>
      obtain ⟨entries, rfl, rfl⟩ := store_singleton_eq_ok h
      exact textTagged_putEntry hy hv
    | cons k path =>
      obtain ⟨entries, w, w', rfl, hw, hw', rfl⟩ := store_cons_cons_eq_ok h
      exact textTagged_putEntry (ih hw' (textTagged_of_find? hw hv)) hv

theorem isStr_of_store (h : store y path v = .ok u) (hpath : path ≠ []) :
    v.isStr = false := by
  cases path with
  | nil => exact absurd rfl hpath
  | cons key path =>
    cases v with
    | map entries => rfl
    | _ => cases path <;> cases h

theorem keeps_of_store (h : store y path v = .ok u) (hv : v.textTagged = true)
    (hy : y.textTagged = true) (hpath : path ≠ []) : v.Keeps u :=
  ⟨textTagged_of_store h hv hy, fun hstr => absurd (isStr_of_store h hpath) (by rw [hstr]; decide)⟩

theorem keeps_of_walk (hx : walk path v = .ok x) (hv : v.textTagged = true)
    (h : x.Keeps y) : v.Keeps (((store y path v).toOption).getD v) := by
  obtain ⟨u, hu⟩ := exists_store_of_walk y hx
  rw [hu]
  cases path with
  | nil =>
    cases hx
    cases hu
    exact h
  | cons key path => exact keeps_of_store hu hv h.textTagged nofun

theorem textTagged_of_elements? (h : v.elements? = some items)
    (hv : v.textTagged = true) : ∀ x ∈ items, x.textTagged = true := by
  cases v with
  | list items' =>
    cases h
    exact textTaggedItems_iff.1 hv
  | tuple items' =>
    cases h
    exact textTaggedItems_iff.1 (Bool.and_eq_true_iff.1 hv).2
  | map entries =>
    cases h
    intro x hx
    obtain ⟨e, he, rfl⟩ := List.mem_map.1 hx
    exact (textTaggedEntries_iff.1 hv e he).1
  | str s =>
    cases h
    intro x hx
    obtain ⟨c, -, rfl⟩ := List.mem_map.1 hx
    rfl
  | bytes data =>
    cases h
    intro x hx
    obtain ⟨b, -, rfl⟩ := List.mem_map.1 hx
    rfl
  | buffer data =>
    cases h
    intro x hx
    obtain ⟨b, -, rfl⟩ := List.mem_map.1 hx
    rfl
  | _ => cases h

end Value

open Value

/-- If there is an effect, then it adds some bytes, whatever has been written before. -/
def Adds (o : Except CodecError Effect) : Prop := ∀ eff, o = .ok eff → ∃ bytes, eff.Emits bytes

namespace Adds

variable {o : Except CodecError Effect}

theorem error (e : CodecError) : Adds (.error e) := nofun

theorem none : Adds (.ok .none) := by
  rintro _ ⟨⟩
  exact ⟨[], Effect.emits_none⟩

theorem put (x : Except CodecError (List UInt8)) : Adds (x.map Effect.put) := by
  intro eff h
  obtain ⟨bytes, -, rfl⟩ := except_map_eq_ok.1 h
  exact ⟨bytes, Effect.emits_put bytes⟩

theorem andThen {front : Effect} (hfront : Adds (.ok front)) (h : Adds o) : Adds (o.map front.andThen) := by
  intro eff heff
  obtain ⟨eff', heff', rfl⟩ := except_map_eq_ok.1 heff
  obtain ⟨bytes, hbytes⟩ := hfront front rfl
  obtain ⟨bytes', hbytes'⟩ := h eff' heff'
  exact ⟨bytes ++ bytes', hbytes.andThen hbytes'⟩

theorem call (h : Adds o) : Adds (o.map Effect.call) := by
  intro eff heff
  obtain ⟨eff', heff', rfl⟩ := except_map_eq_ok.1 heff
  obtain ⟨bytes, hbytes⟩ := h eff' heff'
  exact ⟨bytes, hbytes.call⟩

theorem writeCounted (h : Adds o) (count : Nat) : Adds (Encoder.writeCounted count o) := by
  intro eff heff
  unfold Encoder.writeCounted at heff
  split_ifs at heff
  · obtain ⟨bytes, -, heff⟩ := except_bind_eq_ok.1 heff
    cases heff
    exact ⟨bytes, Effect.emits_put bytes⟩
  · simp only [except_bind_eq_ok] at heff
    obtain ⟨front, -, body, hbody, back, -, heff⟩ := heff
    cases heff
    obtain ⟨bytes, hbytes⟩ := h body hbody
    exact ⟨_, ((Effect.emits_put front).andThen hbytes).andThen (Effect.emits_put back)⟩

end Adds

/-- Two ways of writing a value that do the same: they add the same bytes or fail in the same way, and leave the
same value, which may be put in its place. -/
structure Written.Agree (v : Value) (w w' : Written) : Prop where
  eq : w' = w
  keeps : v.Keeps w.value
  adds : Adds w.result

/-- Two ways of writing that agree on values of which all pairs begin with texts. -/
def AgreeOnTexts (f f' : Value → Written) : Prop := ∀ x, x.textTagged = true → Written.Agree x (f x) (f' x)

namespace Written.Agree

variable {v : Value} {w w' : Written} {f f' : Value → Written}

theorem same {o : Except CodecError Effect} (hv : v.textTagged = true) (ho : Adds o) : Agree v ⟨v, o⟩ ⟨v, o⟩ :=
  ⟨rfl, .refl hv, ho⟩

theorem andThen (h : Agree v w w') (hf : Agree w.value (f w.value) (f' w.value)) :
    Agree v (w.andThen f) (w'.andThen f') := by
  obtain ⟨rfl, hkeeps, hadds⟩ := h
  unfold Written.andThen
  cases hresult : w'.result with
  | error e => exact ⟨rfl, hkeeps, hadds⟩
  | ok front =>
    obtain ⟨hsame, hkeeps', hadds'⟩ := hf
    exact ⟨by rw [hsame], hkeeps.trans hkeeps', .andThen (hresult ▸ hadds) hadds'⟩

end Written.Agree

namespace Code.Encoder

def hasTextTags (e : Encoder) : Bool := e.defaults.all fun d => ((Default.value? d).getD .null).textTagged

variable {f f' : Value → Written} {items items' : List Value}

theorem keeps_of_fill {path : List String} {default v u : Value} (h : fill path default v = .ok u)
    (hv : v.textTagged = true) (hdefault : default.textTagged = true) : v.Keeps u := by
  rcases List.eq_nil_or_concat path with rfl | ⟨parent, key, rfl⟩
  · cases h
    split_ifs with hnull
    · cases v with
      | null => exact ⟨hdefault, nofun⟩
      | _ => cases hnull
    · exact .refl hv
  · rw [List.concat_eq_append] at h
    simp only [fill, List.getLast?_concat, except_bind_eq_ok] at h
    obtain ⟨x, -, h⟩ := h
    cases x with
    | map entries =>
      simp only at h
      split_ifs at h
      · exact keeps_of_store h hv hdefault (by simp)
      · cases h
        exact .refl hv
    | _ => cases h

theorem agree_inside (path : List String) (h : AgreeOnTexts f f') : AgreeOnTexts (inside path f) (inside path f') := by
  intro v hv
  unfold inside
  cases hx : v.walk path with
  | error e => exact .same hv (.error e)
  | ok x =>
    have hx' := textTagged_of_walk hx hv
    obtain ⟨hsame, hkeeps, hadds⟩ := h x hx'
    exact ⟨by simp only [hsame], keeps_of_walk hx hv (.kept hx' hkeeps), hadds⟩

theorem agree_only (g : Value → Except CodecError (List UInt8)) : AgreeOnTexts (only g) (only g) :=
  fun v hv => .same hv (.put (g v))

/-- What items may become: an item that is nothing stays so. -/
abbrev KeepItems (items items' : List Value) : Prop :=
  List.Forall₂ (fun x y => x.Keeps y ∧ (x.isNull = true → y.isNull = true)) items items'

theorem writeItems_agree (h : AgreeOnTexts f f') (hitems : ∀ x ∈ items, x.textTagged = true) :
    writeItems f' items = writeItems f items ∧ KeepItems items (writeItems f items).1 ∧
      Adds (writeItems f items).2 := by
  induction items with
  | nil => exact ⟨rfl, .nil, .none⟩
  | cons v items ih =>
    have hv := hitems v List.mem_cons_self
    obtain ⟨hsame, hkeeps, hadds⟩ := h v hv
    obtain ⟨ihsame, ihkeeps, ihadds⟩ := ih fun x hx => hitems x (List.mem_cons_of_mem _ hx)
    have hhead : v.Keeps (kept v (f v).value) ∧ (v.isNull = true → (kept v (f v).value).isNull = true) :=
      ⟨.kept hv hkeeps, fun hnull => by rw [kept, if_pos hnull]; exact hnull⟩
    simp only [writeItems, hsame, ihsame, true_and]
    cases hresult : (f v).result with
    | error e =>
      refine ⟨.cons hhead (List.forall₂_same.2 fun x hx => ?_), .error e⟩
      exact ⟨.refl (hitems x (List.mem_cons_of_mem _ hx)), id⟩
    | ok front => exact ⟨.cons hhead ihkeeps, .andThen (hresult ▸ hadds) ihadds⟩

theorem KeepItems.textTagged (h : KeepItems items items') : textTaggedItems items' = true := by
  induction h with
  | nil => rfl
  | cons hxy _ ih => rw [textTaggedItems, hxy.1.textTagged, ih, Bool.true_and]

theorem KeepItems.beginsWithText (h : KeepItems items items')
    (hitems : beginsWithText items = true) : beginsWithText items' = true := by
  cases h with
  | nil => rfl
  | cons hxy htail =>
    cases htail with
    | nil => rfl
    | cons _ htail =>
      cases htail with
      | nil =>
        simp only [Value.beginsWithText, Bool.or_eq_true] at hitems ⊢
        exact hitems.imp hxy.1.isStr hxy.2
      | cons _ _ => rfl

theorem agree_writeArray (h : AgreeOnTexts f f') : AgreeOnTexts (writeArray f) (writeArray f') := by
  intro v hv
  unfold writeArray
  cases hitems : v.elements? with
  | none => exact .same hv (.error _)
  | some items =>
    obtain ⟨hsame, hall, hadds⟩ := writeItems_agree h (textTagged_of_elements? hitems hv)
    refine ⟨by simp only [hsame], ?_, hadds.writeCounted _⟩
    cases v with
    | list items => exact ⟨hall.textTagged, nofun⟩
    | tuple items =>
      cases hitems
      rw [textTagged, Bool.and_eq_true] at hv
      refine ⟨?_, nofun⟩
      change (_ && _) = true
      rw [Bool.and_eq_true]
      exact ⟨hall.beginsWithText hv.1, hall.textTagged⟩
    | _ => exact .refl hv

theorem writeEntries_agree (h : AgreeOnTexts f f') {entries : List (Value × Value)}
    (hentries : textTaggedEntries entries = true) :
    writeEntries f' entries = writeEntries f entries ∧ textTaggedEntries (writeEntries f entries).1 = true ∧
      Adds (writeEntries f entries).2 := by
  induction entries with
  | nil => exact ⟨rfl, rfl, .none⟩
  | cons entry entries ih =>
    obtain ⟨k, v⟩ := entry
    simp only [textTaggedEntries, Bool.and_eq_true] at hentries
    obtain ⟨⟨hk, hv⟩, hrest⟩ := hentries
    obtain ⟨hsame, hkeeps, hadds⟩ := h v hv
    obtain ⟨ihsame, ihkeeps, ihadds⟩ := ih hrest
    have hhead := (Keeps.kept hv hkeeps).textTagged
    simp only [writeEntries, hsame, ihsame, true_and]
    cases Primitive.writeString k with
    | error e => exact ⟨by simp [textTaggedEntries, hk, hv, hrest], .error e⟩
    | ok key =>
      cases hresult : (f v).result with
      | error e => exact ⟨by simp [textTaggedEntries, hk, hhead, hrest], .error e⟩
      | ok front =>
        refine ⟨by simp [textTaggedEntries, hk, hhead, ihkeeps], .andThen ?_ ihadds⟩
        exact Adds.andThen (o := .ok front) (.put (.ok key)) (hresult ▸ hadds)

theorem agree_writeMap (h : AgreeOnTexts f f') : AgreeOnTexts (writeMap f) (writeMap f') := by
  intro v hv
  cases v with
  | map entries =>
    obtain ⟨hsame, hkeeps, hadds⟩ := writeEntries_agree h hv
    exact ⟨by simp only [writeMap, hsame], ⟨hkeeps, nofun⟩, hadds.writeCounted _⟩
  | _ => exact .same hv (.error _)

section Run

variable {s s' : WriteScope}

theorem agree_writePair {g g' : Value → Value → Written} (t t' : String) (h : ∀ tag, AgreeOnTexts (g tag) (g' tag))
    (hitems : (Value.tuple items).textTagged = true) :
    Written.Agree (.tuple items) (writePair s t g items) (writePair s' t' g' items) := by
  unfold writePair
  split
  next tag payload =>
    simp only [textTagged, beginsWithText, textTaggedItems, Bool.and_true, Bool.and_eq_true] at hitems
    obtain ⟨htag, htag', hpayload⟩ := hitems
    have hisTag : ∀ s t, isTag s t tag = true := fun s t => by rw [isTag, htag, Bool.true_or]
    rw [hisTag, hisTag, if_pos rfl, if_pos rfl]
    obtain ⟨hsame, hkeeps, hadds⟩ := h tag payload hpayload
    refine ⟨by simp only [hsame], ⟨?_, fun hstr => absurd hstr Bool.false_ne_true⟩, hadds⟩
    simp only [textTagged, beginsWithText, textTaggedItems, htag, htag', (Keeps.kept hpayload hkeeps).textTagged,
      Bool.and_true]
  next => exact .same hitems (.error _)

theorem preserved_agree {T : String → String → Prop} : Preserved (·.textTagged = true) Written.Agree T
    (fun d => ((Default.value? d).getD .null).textTagged = true)
    (fun name => AgreeOnTexts (s.call name) (s'.call name)) s s' where
  eq h := h.eq
  value h := h.keeps.textTagged
  none hx := .same hx .none
  error e hx := .same hx (.error e)
  put _ hx := .same hx (.put _)
  andThen h h' := h.andThen h'
  fill hd hx hfill :=
    have hy := keeps_of_fill hfill hx hd
    ⟨hy.textTagged, fun ⟨heq, hkeeps, hadds⟩ => ⟨heq, hy.trans hkeeps, hadds⟩⟩
  only f _ hx := agree_only f _ hx
  inside path _ h hx := agree_inside path h _ hx
  array h := agree_writeArray h
  map h := agree_writeMap h
  pair _ h hx hthere := by
    obtain ⟨heq, hkeeps, hadds⟩ := agree_writePair _ _ h (textTagged_of_walk hthere hx)
    exact ⟨by rw [heq], keeps_of_walk hthere hx hkeeps, hadds⟩
  call h x hx := by
    obtain ⟨hsame, hkeeps, hadds⟩ := h x hx
    exact ⟨by rw [hsame], hkeeps, hadds.call⟩

theorem agree_of_copied {x y : String} {a b : Encoder} (h : Copied (.of x) (.of y) a b) (ha : a.hasTextTags = true)
    (hcalls : ∀ name ∈ a.calls, AgreeOnTexts (s.call name) (s'.call name)) : AgreeOnTexts (run s a) (run s' b) :=
  related_of_within (h.exists_within preserved_agree (List.all_eq_true.1 ha) hcalls rfl rfl)

end Run

end Code.Encoder

end AvroCodec
