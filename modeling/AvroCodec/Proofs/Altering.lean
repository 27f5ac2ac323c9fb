import AvroCodec.Proofs.Untagged

/-!
# What code may change

Writing a value changes it where a default is put in. `Encoder.alters` are the paths of the places where that may
happen: what is at paths that part from all of them stays. Whatever was there is there afterwards, and of the same
kind unless it was nothing (`Value.Grows`).
-/

namespace AvroCodec

open Code

namespace Value

variable {u v x : Value} {path : List String} {key : String}

/-- What is at the end of a path, which may be nothing. There is no answer where there can be no entry. -/
def glance : List String → Value → Option (Option Value)
  | [], v => some (some v)
  | [key], .map entries => some (find? key entries)
  | key :: path, .map entries => (find? key entries).bind (glance path)
  | _ :: _, _ => none

theorem eq_of_glance (h : glance [] u = glance [] v) : u = v :=
  Option.some.inj (Option.some.inj h)

theorem glance_cons (h : path ≠ []) (entries : List (Value × Value)) :
    glance (key :: path) (.map entries) = (find? key entries).bind (glance path) := by
  cases path with
  | nil => exact absurd rfl h
  | cons k path => rfl

theorem glance_of_ne_map (h : ∀ entries, v ≠ .map entries) : glance (key :: path) v = none := by
  cases v with
  | map entries => exact absurd rfl (h entries)
  | _ => cases path <;> rfl

theorem glance_eq_some_iff : glance path v = some (some x) ↔ walk path v = .ok x := by
  induction path generalizing v with
  | nil => simp [glance, walk]
  | cons key path ih =>
    cases v with
    | map entries =>
      rw [walk]
      by_cases hpath : path = []
      · subst hpath
        cases hfind : find? key entries <;> simp [glance, hfind, walk]
      · rw [glance_cons hpath]
        cases hfind : find? key entries with
        | none => simp
        | some w => exact ih
    | _ => simp [glance_of_ne_map, walk]

theorem glance_concat (parent : List String) (key : String) (v : Value) :
    glance (parent ++ [key]) v = match walk parent v with
      | .ok (.map entries) => some (find? key entries)
      | _ => none := by
  induction parent generalizing v with
  | nil => cases v <;> rfl
  | cons k parent ih =>
    cases v with
    | map entries =>
      rw [List.cons_append, glance_cons (by simp), walk]
      cases find? k entries with
      | none => rfl
      | some w => exact ih w
    | _ =>
      rw [List.cons_append, glance_of_ne_map (by simp), walk]
      simp

theorem walk_of_glance_none (h : glance path v = some none) :
    walk path v = .error (.missing (.str (path.getLastD ""))) := by
  rcases List.eq_nil_or_concat path with rfl | ⟨parent, key, rfl⟩
  · cases h
  · rw [List.concat_eq_append] at h ⊢
    rw [glance_concat] at h
    split at h
    next entries hparent =>
      rw [walk_append hparent, walk, Option.some.inj h]
      simp
    next => cases h

theorem walk_congr {o : Option Value} (ho : glance path v = some o)
    (hu : glance path u = glance path v) : walk path u = walk path v := by
  rw [ho] at hu
  cases o with
  | none => rw [walk_of_glance_none ho, walk_of_glance_none hu]
  | some x => rw [glance_eq_some_iff.1 ho, glance_eq_some_iff.1 hu]

theorem glance_store_of_apart {ks : List String} (h : store x path v = .ok u)
    (hks : Apart ks path) : glance ks u = glance ks v := by
  induction hks generalizing v u with
  | @here k k' hk ks ks' =>
    obtain ⟨entries, w, rfl, rfl⟩ := exists_putEntry_of_store h
    have hfind := find?_putEntry_of_ne hk w entries
    cases ks with
    | nil => rw [glance, glance, hfind]
    | cons key ks => rw [glance_cons (by simp), glance_cons (by simp), hfind]
  | @there k ks ks' hks ih =>
    cases ks' with
    | nil => cases hks
    | cons key path =>
      obtain ⟨entries, w, w', rfl, hw, hstore, rfl⟩ := store_cons_cons_eq_ok h
      have hne : ks ≠ [] := by
        rintro rfl
        cases hks
      rw [glance_cons hne, glance_cons hne, find?_putEntry_self, hw]
      exact ih hstore

/-! ### Growing -/

/-- The kind of a container, or the value itself. -/
def hull : Value → Value
  | .list _ => .list []
  | .tuple _ => .tuple []
  | .map _ => .map []
  | v => v

theorem isNull_hull (v : Value) : v.hull.isNull = v.isNull := by
  cases v <;> rfl

theorem eq_null_of_isNull (h : v.isNull = true) : v = .null := by
  cases v <;> first | rfl | cases h

/-- What was at a path is there still, and of the same kind unless it was nothing. -/
def Grows (v v' : Value) : Prop :=
  ∀ ks x, walk ks v = .ok x → ∃ x', walk ks v' = .ok x' ∧ (x.isNull = true ∨ x'.hull = x.hull)

namespace Grows

variable {v v' v'' x y : Value}

theorem refl (v : Value) : Grows v v := fun _ x hx => ⟨x, hx, .inr rfl⟩

theorem trans (h : Grows v v') (h' : Grows v' v'') : Grows v v'' := by
  intro ks x hx
  obtain ⟨x', hx', hkind⟩ := h ks x hx
  obtain ⟨x'', hx'', hkind'⟩ := h' ks x' hx'
  refine ⟨x'', hx'', ?_⟩
  rcases hkind with hnull | hkind
  · exact .inl hnull
  rcases hkind' with hnull' | hkind'
  · rw [← isNull_hull, hkind, isNull_hull] at hnull'
    exact .inl hnull'
  · exact .inr (hkind'.trans hkind)

theorem of_isNull (h : v.isNull = true) (v' : Value) : Grows v v' := by
  rw [eq_null_of_isNull h]
  intro ks x hx
  cases ks with
  | nil =>
    cases hx
    exact ⟨v', rfl, .inl rfl⟩
  | cons k ks => cases hx

theorem hull_eq (h : Grows v v') (hnull : v.isNull = false) : v'.hull = v.hull := by
  obtain ⟨_, hx', hkind⟩ := h [] v rfl
  cases hx'
  exact hkind.resolve_left (by simp [hnull])

theorem of_hull (h : v'.hull = v.hull) (hmap : ∀ entries, v ≠ .map entries) : Grows v v' := by
  intro ks x hx
  cases ks with
  | nil =>
    cases hx
    exact ⟨v', rfl, .inr h⟩
  | cons k ks =>
    obtain ⟨entries, _, rfl, -⟩ := walk_cons_eq_ok.1 hx
    exact absurd rfl (hmap entries)

theorem of_entries {entries entries' : List (Value × Value)}
    (h : ∀ k w, find? k entries = some w → ∃ w', find? k entries' = some w' ∧ Grows w w') :
    Grows (.map entries) (.map entries') := by
  intro ks x hx
  cases ks with
  | nil =>
    cases hx
    exact ⟨_, rfl, .inr rfl⟩
  | cons k ks =>
    obtain ⟨_, w, heq, hw, hx⟩ := walk_cons_eq_ok.1 hx
    cases heq
    obtain ⟨w', hw', hgrows⟩ := h k w hw
    obtain ⟨x', hx', hkind⟩ := hgrows ks x hx
    exact ⟨x', walk_cons_eq_ok.2 ⟨_, w', rfl, hw', hx'⟩, hkind⟩

theorem putEntry {entries : List (Value × Value)} (h : ∀ w, find? key entries = some w → Grows w x) :
    Grows (.map entries) (.map (Value.putEntry key x entries)) := by
  refine of_entries fun k w hw => ?_
  by_cases hk : k = key
  · subst hk
    exact ⟨x, find?_putEntry_self k x entries, h w hw⟩
  · exact ⟨w, (find?_putEntry_of_ne hk x entries).trans hw, refl w⟩

theorem of_store (h : store y path v = .ok v') (hy : ∀ x, walk path v = .ok x → Grows x y) : Grows v v' := by
  induction path generalizing v v' with
  | nil =>
    cases h
    exact hy v rfl
  | cons key path ih =>
    cases path with
    | nil =>
      obtain ⟨entries, rfl, rfl⟩ := store_singleton_eq_ok h
      exact putEntry fun w hw => hy w (walk_cons_eq_ok.2 ⟨entries, w, rfl, hw, rfl⟩)
    | cons k path =>
      obtain ⟨entries, w, w', rfl, hw, hstore, rfl⟩ := store_cons_cons_eq_ok h
      refine putEntry fun a ha => ?_
      cases hw.symm.trans ha
      exact ih hstore fun x hx => hy x (walk_cons_eq_ok.2 ⟨entries, w, rfl, hw, hx⟩)

theorem of_swap (h : Swap path x y v v') (hxy : Grows x y) : Grows v v' := by
  refine of_store h.store_eq fun a ha => ?_
  cases h.walk_eq.symm.trans ha
  exact hxy

theorem of_kept (h : Grows x y) : Grows x (kept x y) := by
  unfold kept
  split_ifs
  · exact refl x
  · exact h

end Grows

end Value

namespace Code

open Value

namespace Subject

variable {s : Subject} {v x : Value}

theorem exists_glance_of_look (h : s.look v = .ok x) : ∃ o, glance s.keys v = some o ∧ o.getD .null = x := by
  cases s with
  | value place => exact ⟨some x, glance_eq_some_iff.2 h, rfl⟩
  | member place key =>
    simp only [look, except_bind_eq_ok] at h
    obtain ⟨u, hu, h⟩ := h
    cases u with
    | map entries => exact ⟨find? (literalText key) entries, by rw [keys, glance_concat, hu], Except.ok.inj h⟩
    | _ => cases h

end Subject

namespace Encoder

variable {s : WriteScope} {v v' : Value} {f : Value → Written}

variable {path ks : List String} {default : Value} {w : Written}

/-! ### What is put in -/

theorem exists_glance_of_fill (h : fill path default v = .ok v') :
    ∃ o, glance path v = some o := by
  rcases List.eq_nil_or_concat path with rfl | ⟨parent, key, rfl⟩
  · exact ⟨some v, rfl⟩
  · rw [List.concat_eq_append] at h ⊢
    rw [glance_concat]
    simp only [fill, List.getLast?_concat, List.dropLast_concat, except_bind_eq_ok] at h
    obtain ⟨x, hx, h⟩ := h
    rw [hx]
    cases x with
    | map entries => exact ⟨_, rfl⟩
    | _ => cases h

theorem fill_of_glance {o : Option Value} (default : Value) (h : glance path v = some o) :
    fill path default v = if (o.getD .null).isNull then store default path v else .ok v := by
  rcases List.eq_nil_or_concat path with rfl | ⟨parent, key, rfl⟩
  · cases h
    simp only [fill, List.getLast?_nil, Option.getD_some, store]
    split_ifs <;> rfl
  · rw [List.concat_eq_append] at h ⊢
    rw [glance_concat] at h
    split at h
    next entries hwalk =>
      cases h
      exact fill_concat parent key default hwalk
    next => cases h

theorem find?_writeEntries (h : ∀ x, Grows x (f x).value) {entries : List (Value × Value)} {k : String} {w : Value}
    (hw : find? k entries = some w) : ∃ w', find? k (writeEntries f entries).1 = some w' ∧ Grows w w' := by
  induction entries with
  | nil => cases hw
  | cons e rest ih =>
    obtain ⟨key, v⟩ := e
    have hhead : ∀ rest', (find? k rest = some w → ∃ w', find? k rest' = some w' ∧ Grows w w') →
        ∃ w', find? k ((key, kept v (f v).value) :: rest') = some w' ∧ Grows w w' := by
      intro rest' hrest
      cases key with
      | str t =>
        by_cases ht : t = k
        · simp only [find?, if_pos ht, Option.some.injEq] at hw
          subst hw
          exact ⟨_, by rw [find?, if_pos ht], (h v).of_kept⟩
        · simp only [find?, if_neg ht] at hw ⊢
          exact hrest hw
      | _ => exact hrest hw
    rw [writeEntries]
    cases Primitive.writeString key with
    | error e => exact ⟨w, hw, .refl w⟩
    | ok bytes =>
      simp only
      cases (f v).result with
      | error e => exact hhead rest fun hw => ⟨w, hw, .refl w⟩
      | ok front => exact hhead _ ih

theorem writeMap_grows (h : ∀ x, Grows x (f x).value) (v : Value) : Grows v (writeMap f v).value := by
  unfold writeMap
  split
  next entries => exact .of_entries fun k w hw => find?_writeEntries h hw
  next => exact .refl _
  next => exact .refl _

theorem writeArray_grows (f : Value → Written) (v : Value) : Grows v (writeArray f v).value := by
  unfold writeArray
  cases v.elements? with
  | none => exact .refl v
  | some items =>
    simp only
    cases v with
    | list _ => exact .of_hull rfl (by simp)
    | tuple _ => exact .of_hull rfl (by simp)
    | _ => exact .refl _

theorem writePair_grows (tag : String) (g : Value → Value → Written) (items : List Value) :
    Grows (.tuple items) (writePair s tag g items).value := by
  unfold writePair
  split
  · split_ifs <;> exact .of_hull rfl (by simp)
  · exact .refl _

/-! ### What stays -/

mutual

/-- The paths of the places where code may change something. `calls` tells whether functions may. -/
def alters (calls : Bool) : Encoder → List (List String)
  | .fields parts => altersParts calls parts
  | .filled place _ next => place.keys :: alters calls next
  | .array place _ body | .map place _ _ body => if alters calls body = [] then [] else [place.keys]
  | .union subject _ _ branches => altersBranches calls subject.keys branches
  | .recur _ place => if calls then [place.keys] else []
  | _ => []

def altersParts (calls : Bool) : List Encoder → List (List String)
  | [] => []
  | e :: es => alters calls e ++ altersParts calls es

def altersBranches (calls : Bool) (path : List String) : List (Branch Encoder) → List (List String)
  | [] => []
  | ⟨_, _, _, tagged, plain⟩ :: rest =>
    (if alters calls tagged = [] then [] else [path]) ++ alters calls plain ++ altersBranches calls path rest

end

theorem inside_of_still (h : ∀ x, (f x).value = x) (v : Value) : (inside path f v).value = v := by
  unfold inside
  cases hx : walk path v with
  | error e => rfl
  | ok x =>
    simp only [h, kept_self, store_of_walk hx]
    rfl

theorem writeItems_of_still (h : ∀ x, (f x).value = x) (items : List Value) : (writeItems f items).1 = items := by
  induction items with
  | nil => rfl
  | cons x items ih =>
    rw [writeItems]
    cases (f x).result <;> simp only [h, kept_self, ih]

theorem writeEntries_of_still (h : ∀ x, (f x).value = x) (entries : List (Value × Value)) :
    (writeEntries f entries).1 = entries := by
  induction entries with
  | nil => rfl
  | cons e entries ih =>
    obtain ⟨k, x⟩ := e
    rw [writeEntries]
    cases Primitive.writeString k with
    | error e => rfl
    | ok key =>
      simp only
      cases (f x).result <;> simp only [h, kept_self, ih]

theorem writeArray_of_still (h : ∀ x, (f x).value = x) (v : Value) : (writeArray f v).value = v := by
  unfold writeArray
  cases hitems : v.elements? with
  | none => rfl
  | some items =>
    simp only [writeItems_of_still h]
    cases v <;> first | rfl | (cases hitems; rfl)

theorem writeMap_of_still (h : ∀ x, (f x).value = x) (v : Value) : (writeMap f v).value = v := by
  unfold writeMap
  split
  · simp only [writeEntries_of_still h]
  · rfl
  · rfl

theorem writePair_of_still {g : Value → Value → Written} (h : ∀ t x, (g t x).value = x) (tag : String)
    (items : List Value) : (writePair s tag g items).value = .tuple items := by
  unfold writePair
  split
  · split_ifs
    · simp only [h, kept_self]
    · rfl
  · rfl

theorem writeBranch_of_still (h : ∀ x, (f x).value = x) (index : Nat) (v : Value) :
    (writeBranch index f v).value = v := by
  unfold writeBranch Written.andThen
  cases (Varint.encode index).map Effect.put with
  | error e => rfl
  | ok front => exact h v

/-- What may have changed: something was put at some paths only, and what was there has grown. -/
structure Altered (paths : List (List String)) (v v' : Value) : Prop where
  grows : Grows v v'
  glance_eq : ∀ {ks}, (∀ path ∈ paths, Apart ks path) → glance ks v' = glance ks v

namespace Altered

variable {paths : List (List String)} {v'' y : Value}

theorem refl (paths : List (List String)) (v : Value) : Altered paths v v := ⟨.refl v, fun _ => rfl⟩

theorem trans (h : Altered paths v v') (h' : Altered paths v' v'') : Altered paths v v'' :=
  ⟨h.grows.trans h'.grows, fun hks => (h'.glance_eq hks).trans (h.glance_eq hks)⟩

theorem mono {more : List (List String)} (h : Altered paths v v') (hmore : paths ⊆ more) : Altered more v v' :=
  ⟨h.grows, fun hks => h.glance_eq fun path hpath => hks path (hmore hpath)⟩

theorem of_store (hpath : path ∈ paths) (h : store y path v = .ok v') (hy : ∀ x, walk path v = .ok x → Grows x y) :
    Altered paths v v' :=
  ⟨.of_store h hy, fun hks => glance_store_of_apart h (hks path hpath)⟩

theorem eq_of_nil (h : Altered [] v v') : v' = v := eq_of_glance (h.glance_eq (List.forall_mem_nil _))

theorem of_fill (hpath : path ∈ paths) (h : fill path default v = .ok v') : Altered paths v v' := by
  obtain ⟨o, ho⟩ := exists_glance_of_fill h
  rw [fill_of_glance default ho] at h
  split_ifs at h with hnull
  · refine of_store hpath h fun x hx => .of_isNull ?_ _
    cases ho.symm.trans (glance_eq_some_iff.2 hx)
    exact hnull
  · cases h
    exact refl paths v

theorem andThen (h : Altered paths v w.value) (hf : ∀ u, Altered paths u (f u).value) :
    Altered paths v (w.andThen f).value := by
  unfold Written.andThen
  cases w.result with
  | error e => exact h
  | ok front => exact h.trans (hf w.value)

theorem inside (v : Value) (hgrows : ∀ x, Grows x (f x).value) (h : path ∈ paths ∨ ∀ x, (f x).value = x) :
    Altered paths v (inside path f v).value := by
  rcases h with hpath | hstill
  · unfold Encoder.inside
    cases hx : walk path v with
    | error e => exact refl paths v
    | ok x =>
      obtain ⟨u, hu⟩ := exists_store_of_walk (kept x (f x).value) hx
      simp only [hu]
      refine of_store hpath hu fun x' hx' => ?_
      cases hx.symm.trans hx'
      exact (hgrows x).of_kept
  · rw [inside_of_still hstill]
    exact refl paths v

end Altered

variable {calls : Bool}

theorem alters_of_mem {b : Branch Encoder} {branches : List (Branch Encoder)} (hb : b ∈ branches) :
    (b.tagged.alters calls = [] ∨ path ∈ altersBranches calls path branches) ∧
      b.plain.alters calls ⊆ altersBranches calls path branches := by
  induction branches with
  | nil => cases hb
  | cons c rest ih =>
    obtain ⟨_, _, _, tagged, plain⟩ := c
    rw [altersBranches]
    rcases List.mem_cons.1 hb with rfl | hb
    · refine ⟨?_, List.subset_append_of_subset_left _ (List.subset_append_right _ _)⟩
      by_cases htagged : tagged.alters calls = []
      · exact .inl htagged
      · rw [if_neg htagged]
        exact .inr List.mem_cons_self
    · exact ⟨(ih hb).1.imp id fun h => List.mem_append_right _ h, List.subset_append_of_subset_right _ (ih hb).2⟩

theorem parts_altered {parts : List Encoder} (h : ∀ e ∈ parts, ∀ v, Altered (e.alters calls) v (run s e v).value)
    (v : Value) : Altered (altersParts calls parts) v (runParts s parts v).value := by
  induction parts generalizing v with
  | nil =>
    rw [runParts]
    exact .refl _ v
  | cons e parts ih =>
    rw [List.forall_mem_cons] at h
    rw [runParts, altersParts]
    exact ((h.1 v).mono (List.subset_append_left _ _)).andThen fun u =>
      (ih h.2 u).mono (List.subset_append_right _ _)

theorem union_altered {subject : Subject} {tag data : String} {branches : List (Branch Encoder)}
    (htagged : ∀ b ∈ branches, ∀ v, Altered (b.tagged.alters calls) v (run s b.tagged v).value)
    (hplain : ∀ b ∈ branches, ∀ v, Altered (b.plain.alters calls) v (run s b.plain v).value) (v : Value) :
    Altered (altersBranches calls subject.keys branches) v (run s (.union subject tag data branches) v).value := by
  -- The branches for values with tags work at the value of the union, or change nothing.
  have hpair : subject.keys ∈ altersBranches calls subject.keys branches ∨
      ∀ t x, (runTagged s t branches x).value = x := by
    by_cases hall : ∀ b ∈ branches, b.tagged.alters calls = []
    · refine .inr fun t x => ?_
      let J : Written → Written → Prop := fun w _ => w.value = x
      suffices hrel : J (runTagged s t branches x) (runTagged s t branches x) from hrel
      refine runTagged_rel t rfl fun b hb => ?_
      exact writeBranch_of_still (fun x => (hall b hb ▸ htagged b hb x).eq_of_nil) b.index x
    · simp only [not_forall] at hall
      obtain ⟨b, hb, hne⟩ := hall
      exact .inl ((alters_of_mem hb).1.resolve_left hne)
  have hrest : Altered (altersBranches calls subject.keys branches) v (runPlain s subject branches v).value := by
    let J : Written → Written → Prop := fun w _ => Altered (altersBranches calls subject.keys branches) v w.value
    suffices hrel : J (runPlain s subject branches v) (runPlain s subject branches v) from hrel
    refine runPlain_rel rfl (fun _ => .refl _ v) (.refl _ v) fun b hb => ?_
    exact Altered.andThen (.refl _ v) fun u => (hplain b hb u).mono (alters_of_mem hb).2
  rw [run]
  cases hlook : subject.look v with
  | error e => exact .refl _ v
  | ok u =>
    cases u with
    | tuple items =>
      simp only
      cases hstore : store (writePair s tag (fun t x => runTagged s t branches x) items).value subject.keys v with
      | error e => exact .refl _ v
      | ok u =>
        rcases hpair with hpath | hstill
        · refine .of_store hpath hstore fun x hx => ?_
          cases hlook.symm.trans (Subject.look_of_walk hx)
          exact writePair_grows tag _ items
        · rw [writePair_of_still hstill, store_of_walk (Subject.walk_of_look hlook rfl)] at hstore
          cases hstore
          exact .refl _ v
    | _ => exact hrest

/-- Code changes a value at the paths where it may, and what was there grows. -/
theorem run_altered (hgrows : ∀ name x, Grows x (s.call name x).value)
    (hstill : calls = false → ∀ name x, (s.call name x).value = x) (e : Encoder) (v : Value) :
    Altered (e.alters calls) v (run s e v).value := by
  induction e using induct generalizing v with
  | null =>
    rw [run]
    exact .refl _ v
  | primitive | logical | enum =>
    rw [run]
    exact .inside v .refl (.inr fun _ => rfl)
  | fields parts ih =>
    rw [run, alters]
    exact parts_altered ih v
  | filled place default next ih =>
    rw [run, alters]
    cases hfill : fill place.keys ((Default.value? default).getD .null) v with
    | error e => exact .refl _ v
    | ok u => exact (Altered.of_fill List.mem_cons_self hfill).trans ((ih u).mono (List.subset_cons_self _ _))
  | array place item body ih =>
    rw [run, alters]
    refine .inside v (writeArray_grows _) ?_
    split_ifs with hbody
    · exact .inr (writeArray_of_still fun x => (hbody ▸ ih x).eq_of_nil)
    · exact .inl List.mem_cons_self
  | map place key value body ih =>
    rw [run, alters]
    refine .inside v (writeMap_grows fun x => (ih x).grows) ?_
    split_ifs with hbody
    · exact .inr (writeMap_of_still fun x => (hbody ▸ ih x).eq_of_nil)
    · exact .inl List.mem_cons_self
  | union subject tag data branches htagged hplain => exact union_altered htagged hplain v
  | recur name place =>
    rw [run, alters]
    refine .inside v (hgrows name) ?_
    split_ifs with hcalls
    · exact .inl List.mem_cons_self
    · exact .inr (hstill (Bool.not_eq_true _ ▸ hcalls) name)

theorem run_grows (hcall : ∀ name x, Grows x (s.call name x).value) (e : Encoder) (v : Value) :
    Grows v (run s e v).value :=
  (run_altered hcall (fun h : true = false => nomatch h) e v).grows

end Encoder

end Code

end AvroCodec
