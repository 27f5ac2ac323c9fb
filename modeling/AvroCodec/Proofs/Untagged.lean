import AvroCodec.Proofs.Readable
import AvroCodec.Proofs.Retagged

/-!
# Tags that may be left out

A codec over consistent schemas writes the same for a value with the tag of its branch and without it, or fails
in the same way.

`Encoder.retag?` puts a tag to the value of a union that is reached by some steps.
-/

namespace AvroCodec

open Code Value

/-! ### Depth -/

namespace Value

theorem depthEntries_le_putEntry {key : String} {y : Value} {entries : List (Value × Value)}
    (h : ∀ x, find? key entries = some x → x.depth ≤ y.depth) :
    depthEntries entries ≤ depthEntries (putEntry key y entries) := by
  induction entries with
  | nil => exact Nat.zero_le _
  | cons e rest ih =>
    obtain ⟨k, a⟩ := e
    cases k with
    | str s =>
      simp only [find?] at h
      simp only [putEntry]
      split_ifs at h ⊢
      · have ha := h a rfl
        simp only [depthEntries]
        omega
      · exact max_le_max le_rfl (ih h)
    | _ => exact max_le_max le_rfl (ih h)

theorem depth_le_of_store {path : List String} {v v' y : Value} (h : store y path v = .ok v')
    (hy : ∀ x, walk path v = .ok x → x.depth ≤ y.depth) : v.depth ≤ v'.depth := by
  induction path generalizing v v' with
  | nil =>
    cases h
    exact hy v rfl
  | cons key path ih =>
    cases path with
    | nil =>
      obtain ⟨entries, rfl, rfl⟩ := store_singleton_eq_ok h
      refine Nat.succ_le_succ (depthEntries_le_putEntry fun x hx => hy x ?_)
      exact walk_cons_eq_ok.2 ⟨entries, x, rfl, hx, rfl⟩
    | cons k path =>
      obtain ⟨entries, w, w', rfl, hw, hstore, rfl⟩ := store_cons_cons_eq_ok h
      refine Nat.succ_le_succ (depthEntries_le_putEntry fun a ha => ?_)
      cases hw.symm.trans ha
      exact ih hstore fun x hx => hy x (walk_cons_eq_ok.2 ⟨entries, w, rfl, hw, hx⟩)

theorem Swap.depth_le {path : List String} {x y v v' : Value} (h : Swap path x y v v') (hxy : x.depth ≤ y.depth) :
    v.depth ≤ v'.depth := by
  refine depth_le_of_store h.store_eq fun a ha => ?_
  cases h.walk_eq.symm.trans ha
  exact hxy

theorem depthItems_replace {x x' : Value} (h : x.depth ≤ x'.depth) (front back : List Value) :
    depthItems (front ++ x :: back) ≤ depthItems (front ++ x' :: back) := by
  induction front with
  | nil =>
    simp only [List.nil_append, depthItems]
    omega
  | cons a front ih =>
    simp only [List.cons_append, depthItems]
    omega

theorem depthEntries_replace {x x' : Value} (h : x.depth ≤ x'.depth) (k : Value) (front back : List (Value × Value)) :
    depthEntries (front ++ (k, x) :: back) ≤ depthEntries (front ++ (k, x') :: back) := by
  induction front with
  | nil =>
    simp only [List.nil_append, depthEntries]
    omega
  | cons a front ih =>
    obtain ⟨k', a⟩ := a
    simp only [List.cons_append, depthEntries]
    omega

end Value

namespace Code.Encoder

variable {table : List (String × Routine)} {path typed : List String} {v v' : Value} {e : Encoder} {subject : Subject}

theorem Retagged.depth_le (h : Retagged table typed path e v v') : v.depth ≤ v'.depth := by
  induction h with
  | here hx _ _ _ hstore =>
    refine Swap.depth_le ⟨hx, hstore⟩ ?_
    simp only [depth, depthItems]
    omega
  | part _ _ _ ih => exact ih
  | filled _ _ _ ih => exact ih
  | plain _ _ _ ih => exact ih
  | tagged hx _ _ hstore ih =>
    refine Swap.depth_le ⟨hx, hstore⟩ ?_
    simp only [depth, depthItems]
    omega
  | item wrap hwrap hx _ hstore ih =>
    refine Swap.depth_le ⟨hx, hstore⟩ ?_
    rcases hwrap with rfl | rfl <;> exact Nat.succ_le_succ (depthItems_replace ih _ _)
  | entry hx _ hstore ih => exact Swap.depth_le ⟨hx, hstore⟩ (Nat.succ_le_succ (depthEntries_replace ih _ _ _))
  | call _ hx _ hstore ih => exact Swap.depth_le ⟨hx, hstore⟩ ih

/-! ### Putting tags to values -/

def isApart : List String → List String → Bool
  | k :: ks, k' :: ks' => k != k' || isApart ks ks'
  | _, _ => false

theorem apart_of_isApart {ks ks' : List String} (h : isApart ks ks' = true) : Apart ks ks' := by
  induction ks generalizing ks' with
  | nil => cases h
  | cons k ks ih =>
    cases ks' with
    | nil => cases h
    | cons k' ks' =>
      by_cases hk : k = k'
      · subst hk
        exact .there k (ih (by simpa [isApart] using h))
      · exact .here hk ks ks'

instance (typed : List String) (b : Branch Encoder) : Decidable (b.Uniform typed) :=
  inferInstanceAs (Decidable (∀ t ∈ b.plain.tagVariables ++ b.tagged.tagVariables,
    ∀ t' ∈ b.plain.tagVariables ++ b.tagged.tagVariables, typed.contains t = typed.contains t'))

instance (b : Branch Encoder) (x : Value) : Decidable (b.Indifferent table typed x) :=
  inferInstanceAs (Decidable (_ ∨ _))

def isUntagged (subject : Subject) (v : Value) : Bool :=
  match subject.look v with
  | .ok (.tuple _) => false
  | _ => true

theorem ne_tuple_of_isUntagged (h : isUntagged subject v = true)
    (items : List Value) : subject.look v ≠ .ok (.tuple items) := by
  intro hitems
  rw [isUntagged, hitems] at h
  cases h

def chosen? (subject : Subject) (v : Value) (branches : List (Branch Encoder)) : Option (Branch Encoder) :=
  if isUntagged subject v then (choice subject v branches).toOption.join else none

theorem chosen_of_chosen? {branches : List (Branch Encoder)} {b : Branch Encoder}
    (h : chosen? subject v branches = some b) : Chosen subject v branches b := by
  rw [chosen?, Option.ite_none_right_eq_some] at h
  refine ⟨ne_tuple_of_isUntagged h.1, ?_⟩
  cases hchoice : choice subject v branches with
  | error e =>
    rw [hchoice] at h
    cases h.2
  | ok o =>
    rw [hchoice] at h
    exact congrArg _ h.2

/-- A step on the way to the value of a union. -/
inductive Step where
  /-- One of the parts of a record. -/
  | part (i : Nat)
  | filled
  /-- The branch that is chosen for a value. -/
  | plain
  /-- The branch that a tag names. -/
  | tagged
  | item (i : Nat)
  | entry (i : Nat)
  | call

/-- Puts the tag of the branch that is chosen to the value of the union that some steps lead to. The result has
the path at which the value changes. -/
def retag? (table : List (String × Routine)) :
    List Step → List String → Encoder → Value → Option (List String × Value)
  | [], typed, .union subject _ _ branches, v =>
    (walk subject.keys v).toOption.bind fun x => (chosen? subject v branches).bind fun b =>
      if (branches.map fun b => literalText b.tag).Nodup ∧ b.Indifferent table typed x then
        put? subject.keys (.tuple [.str (literalText b.tag), x]) v
      else none
  | .part i :: steps, typed, .fields parts, v =>
    parts[i]?.bind fun e => (retag? table steps typed e v).bind fun r =>
      if ∀ e ∈ parts.take i ++ parts.drop (i + 1), ∀ ks ∈ e.paths, isApart ks r.1 then some r else none
  | .filled :: steps, typed, .filled place _ next, v =>
    (walk place.keys v).toOption.bind fun u => (retag? table steps typed next v).bind fun r =>
      if u.isNull = false ∧ r.1 = place.keys ++ r.1.drop place.keys.length then some r else none
  | .plain :: steps, typed, .union subject _ _ branches, v =>
    (chosen? subject v branches).bind fun b => (retag? table steps typed b.plain v).bind fun r =>
      if isUntagged subject r.2 ∧ r.1 = subject.keys ++ r.1.drop subject.keys.length then some r else none
  | .tagged :: steps, typed, .union subject _ _ branches, v =>
    match walk subject.keys v with
    | .ok (.tuple [t, x]) => (labelled t branches).bind fun b => (retag? table steps typed b.tagged x).bind fun r =>
      put? subject.keys (.tuple [t, r.2]) v
    | _ => none
  | .item i :: steps, typed, .array place _ body, v =>
    match walk place.keys v with
    | .ok (.list items) => items[i]?.bind fun x => (retag? table steps typed body x).bind fun r =>
      put? place.keys (.list (items.take i ++ r.2 :: items.drop (i + 1))) v
    | _ => none
  | .entry i :: steps, typed, .map place _ _ body, v =>
    match walk place.keys v with
    | .ok (.map entries) => entries[i]?.bind fun e => (retag? table steps typed body e.2).bind fun r =>
      put? place.keys (.map (entries.take i ++ (e.1, r.2) :: entries.drop (i + 1))) v
    | _ => none
  | .call :: steps, _, .recur name place, v =>
    (Routine.function? table name).bind fun f => (walk place.keys v).toOption.bind fun x =>
      (retag? table steps f.typedTags f.writer x).bind fun r => put? place.keys r.2 v
  | _, _, _, _ => none
where
  put? (path : List String) (x v : Value) : Option (List String × Value) :=
    (store x path v).toOption.map (path, ·)

theorem store_of_put? {path' : List String} {x : Value} (h : retag?.put? path x v = some (path', v')) :
    path' = path ∧ store x path v = .ok v' := by
  obtain ⟨u, hu, heq⟩ := Option.map_eq_some_iff.1 h
  cases heq
  exact ⟨rfl, Codec.eq_ok_of_toOption hu⟩

theorem retagged_of_retag? {steps : List Step} (h : retag? table steps typed e v = some (path, v')) :
    Retagged table typed path e v v' := by
  induction steps generalizing typed path e v v' with
  | nil =>
    cases e with
    | union subject tag data branches =>
      simp only [retag?, Option.bind_eq_some_iff, Option.ite_none_right_eq_some] at h
      obtain ⟨x, hx, b, hb, ⟨hnodup, htags⟩, hput⟩ := h
      obtain ⟨rfl, hstore⟩ := store_of_put? hput
      exact .here (Codec.eq_ok_of_toOption hx) (chosen_of_chosen? hb) hnodup htags hstore
    | _ => cases h
  | cons step steps ih =>
    cases step with
    | part i =>
      cases e with
      | fields parts =>
        simp only [retag?, Option.bind_eq_some_iff, Option.ite_none_right_eq_some, Option.some.injEq] at h
        obtain ⟨e, he, r, hr, hparts, rfl⟩ := h
        have havoids : ∀ a ∈ parts.take i ++ parts.drop (i + 1), a.Avoids path :=
          fun a ha ks hks => apart_of_isApart (hparts a ha ks hks)
        obtain ⟨hi, rfl⟩ := List.getElem?_eq_some_iff.1 he
        have hsplit : parts = parts.take i ++ parts[i] :: parts.drop (i + 1) := by simp
        rw [hsplit]
        exact .part (fun a ha => havoids a (List.mem_append_left _ ha))
          (fun a ha => havoids a (List.mem_append_right _ ha)) (ih hr)
      | _ => cases h
    | filled =>
      cases e with
      | filled place default next =>
        simp only [retag?, Option.bind_eq_some_iff, Option.ite_none_right_eq_some, Option.some.injEq] at h
        obtain ⟨u, hu, r, hr, ⟨hnull, hpath⟩, rfl⟩ := h
        change path = _ at hpath
        rw [hpath] at hr ⊢
        exact .filled (Codec.eq_ok_of_toOption hu) hnull (ih hr)
      | _ => cases h
    | plain =>
      cases e with
      | union subject tag data branches =>
        simp only [retag?, Option.bind_eq_some_iff, Option.ite_none_right_eq_some, Option.some.injEq] at h
        obtain ⟨b, hb, r, hr, ⟨huntagged, hpath⟩, rfl⟩ := h
        change path = _ at hpath
        rw [hpath] at hr ⊢
        exact .plain (chosen_of_chosen? hb) (ne_tuple_of_isUntagged huntagged) (ih hr)
      | _ => cases h
    | tagged =>
      cases e with
      | union subject tag data branches =>
        simp only [retag?] at h
        split at h
        next t x hx =>
          simp only [Option.bind_eq_some_iff] at h
          obtain ⟨b, hb, r, hr, hput⟩ := h
          obtain ⟨rfl, hstore⟩ := store_of_put? hput
          exact .tagged hx hb (ih hr) hstore
        next => cases h
      | _ => cases h
    | item i =>
      cases e with
      | array place item body =>
        simp only [retag?] at h
        split at h
        next items hx =>
          simp only [Option.bind_eq_some_iff] at h
          obtain ⟨x, hitem, r, hr, hput⟩ := h
          obtain ⟨rfl, hstore⟩ := store_of_put? hput
          obtain ⟨hi, rfl⟩ := List.getElem?_eq_some_iff.1 hitem
          have hsplit : items = items.take i ++ items[i] :: items.drop (i + 1) := by simp
          exact .item .list (.inl rfl) (hsplit ▸ hx) (ih hr) hstore
        next => cases h
      | _ => cases h
    | entry i =>
      cases e with
      | map place key value body =>
        simp only [retag?] at h
        split at h
        next entries hx =>
          simp only [Option.bind_eq_some_iff] at h
          obtain ⟨e, hentry, r, hr, hput⟩ := h
          obtain ⟨rfl, hstore⟩ := store_of_put? hput
          obtain ⟨hi, rfl⟩ := List.getElem?_eq_some_iff.1 hentry
          have hsplit : entries = entries.take i ++ entries[i] :: entries.drop (i + 1) := by simp
          exact .entry (hsplit ▸ hx) (ih hr) hstore
        next => cases h
      | _ => cases h
    | call =>
      cases e with
      | recur name place =>
        simp only [retag?, Option.bind_eq_some_iff] at h
        obtain ⟨f, hf, x, hx, r, hr, hput⟩ := h
        obtain ⟨rfl, hstore⟩ := store_of_put? hput
        exact .call hf (Codec.eq_ok_of_toOption hx) (ih hr) hstore
      | _ => cases h

end Code.Encoder

namespace Codec

variable {schemata : Schemata} {identifier : String} {codec : Codec} {store : Store}
  {registry : Schema.Registry}

theorem copyable_of_build (hstore : Store.build schemata [] = (.ok store, registry)) (hc : store.Consistent)
    (hbuild : build schemata identifier = .ok codec) : codec.routine.writer.Copyable ∧
      ∀ {name r}, Routine.function? codec.routine.functions name = some r →
        Encoder.Copied (.of "data") (.of "data") r.writer r.writer := by
  obtain ⟨handled, hcoded, htabled⟩ := coded_of_build hstore hbuild
  have hcopied : ∀ {name r}, store.Coded false (· ∈ handled) name r →
      Encoder.Copied (.of "data") (.of "data") r.writer r.writer := by
    intro name r hr
    obtain ⟨x, -, hwriter, -⟩ := hr.exists_schema
    exact Store.copied_of_encodes hstore hc hwriter hwriter (.refl _)
  refine ⟨⟨_, _, _, hcopied hcoded⟩, ?_⟩
  intro name r hr
  obtain ⟨_, -, -, hfunction⟩ := htabled.coded _ (Routine.mem_of_function? hr)
  exact hcopied hfunction

theorem writeBound_mono (r : Routine) {v v' : Value} (h : v.depth ≤ v'.depth) : r.writeBound v ≤ r.writeBound v' := by
  unfold Routine.writeBound
  exact Nat.succ_le_succ (Nat.mul_le_mul_left _ (by omega))

/-- What a codec's code relies on, with calls that are followed down to a depth. -/
def scope (c : Codec) (depth : Nat) : WriteScope :=
  ⟨c.routine.typedTags, Routine.writeCall c.routine.functions depth⟩

/-- A codec over consistent schemas writes the same for a value with the tag of its branch and without it, or
fails in the same way, however deep calls of functions are followed. -/
theorem serialize_retagged (hstore : Store.build schemata [] = (.ok store, registry)) (hc : store.Consistent)
    (hbuild : build schemata identifier = .ok codec) {path : List String} {v v' : Value}
    (h : Encoder.Retagged codec.routine.functions codec.routine.typedTags path codec.routine.writer v v') :
    (∀ depth, (codec.routine.writer.run (codec.scope depth) v').result =
      (codec.routine.writer.run (codec.scope depth) v).result) ∧
      ((codec.serialize v).result ≠ .error .endless → (codec.serialize v').result = (codec.serialize v).result) := by
  obtain ⟨hwriter, hfunctions⟩ := copyable_of_build hstore hc hbuild
  obtain ⟨x, y, hswap⟩ := h.exists_swap
  have hsame : ∀ depth, (codec.routine.writer.run (codec.scope depth) v').result =
      (codec.routine.writer.run (codec.scope depth) v).result := by
    intro depth
    obtain ⟨_, _, hswaps⟩ := h.exists_swaps hfunctions hwriter hswap hswap depth
    exact hswaps.result_eq
  refine ⟨hsame, fun hends => ?_⟩
  have hlasts : (codec.routine.writer.run (codec.scope (codec.routine.writeBound v)) v).Lasts
      (codec.routine.writer.run (codec.scope (codec.routine.writeBound v')) v) :=
    Encoder.run_lasts (Routine.writeCall_lasts codec.routine.functions (writeBound_mono codec.routine h.depth_le))
      codec.routine.writer v
  have hresult : (codec.routine.writer.run (codec.scope (codec.routine.writeBound v')) v').result =
      (codec.routine.writer.run (codec.scope (codec.routine.writeBound v)) v).result := by
    rw [hsame]
    refine hlasts.result_eq fun hendless => hends ?_
    change (codec.routine.writer.run (codec.scope (codec.routine.writeBound v)) v).result.map _ = _
    rw [hendless]
    rfl
  exact congrArg (Except.map _) hresult

def beadSchemata : Schemata :=
  [("lab.bead", .record "lab.bead" [
    .field "mark" (.arr [.str "null", .str "int"]),
    .field "next" (.arr [.str "null", .str "lab.bead"])])]

def beads : Value := .dict [("mark", .null), ("next", .dict [("mark", .int 5), ("next", .null)])]

def secondMark : List Encoder.Step := [.part 1, .plain, .call, .part 0]

theorem beads_serialize_retagged : ∃ codec v', build beadSchemata "lab.bead" = .ok codec ∧
    Encoder.retag? codec.routine.functions secondMark codec.routine.typedTags codec.routine.writer beads =
      some (["next"], v') ∧
    (codec.serialize beads).result = .ok [0, 2, 2, 10, 0] ∧ (codec.serialize v').result = .ok [0, 2, 2, 10, 0] := by
  obtain ⟨store, registry, hstore, hcheck⟩ :=
    exists_store beadSchemata (fun store => store.isConsistent = true) (by decide +kernel)
  obtain ⟨codec, hbuild, hpath, hwritten⟩ := exists_codec beadSchemata "lab.bead" (fun codec =>
    (Encoder.retag? codec.routine.functions secondMark codec.routine.typedTags codec.routine.writer beads).map
      Prod.fst = some ["next"] ∧
      (codec.serialize beads).result.toOption = some [0, 2, 2, 10, 0]) (by decide +kernel)
  obtain ⟨⟨_, v'⟩, hretag, rfl⟩ := Option.map_eq_some_iff.1 hpath
  have hwritten := eq_ok_of_toOption hwritten
  have hsame := serialize_retagged hstore (Store.consistent_of_isConsistent hcheck) hbuild
    (Encoder.retagged_of_retag? hretag)
  refine ⟨codec, v', hbuild, hretag, hwritten, (hsame.2 ?_).trans hwritten⟩
  rw [hwritten]
  exact nofun

def ageSchemata : Schemata :=
  [("garden.node", .record "garden.node" [
    .field "age" (.arr [.str "int", .str "garden.node"])]),
   ("garden.pot", .record "garden.pot" [
    .field "plant" (.str "garden.node"),
    .field "age" (.arr [.str "long", .str "null"])])]

def agedPot (age : Value) : Value := .dict [("plant", .dict [("age", .int 7)]), ("age", age)]

/-- The code of a field of a recursive type works at the record itself, and meets the tag of another field. -/
theorem agedPot_tag_changes_bytes : ∃ codec, build ageSchemata "garden.pot" = .ok codec ∧
    (codec.serialize (agedPot (.int 5))).result = .ok [0, 10, 0, 10] ∧
    (codec.serialize (agedPot (.tuple [.str "long", .int 5]))).result = .ok [0, 10] := by
  obtain ⟨codec, hbuild, hplain, htagged⟩ := exists_codec ageSchemata "garden.pot" (fun codec =>
    (codec.serialize (agedPot (.int 5))).result.toOption = some [0, 10, 0, 10] ∧
      (codec.serialize (agedPot (.tuple [.str "long", .int 5]))).result.toOption = some [0, 10]) (by decide +kernel)
  exact ⟨codec, hbuild, eq_ok_of_toOption hplain, eq_ok_of_toOption htagged⟩

end Codec

end AvroCodec
