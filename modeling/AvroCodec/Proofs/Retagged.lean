import AvroCodec.Proofs.Choice
import AvroCodec.Proofs.Tagging
import AvroCodec.Proofs.TextTags

/-!
# Tags that are put to values

`Encoder.Retagged` says that the tag of a branch was put to the value of one union, somewhere inside a value:
under arrays, maps, records and other unions, and in the functions of recursive types. The branch is the one
that is chosen for the value without a tag.

The code of a codec writes the same with the tag and without it.
-/

namespace AvroCodec

open Code Value

/-- The variables for tags in the two codes of a branch are all declared as text, or none is. -/
def Code.Branch.Uniform (typed : List String) (b : Branch Encoder) : Prop :=
  ∀ t ∈ b.plain.tagVariables ++ b.tagged.tagVariables, ∀ t' ∈ b.plain.tagVariables ++ b.tagged.tagVariables,
    typed.contains t = typed.contains t'

/-- The two codes of a branch treat the tags in a value alike: their variables for tags are declared alike, or
all tags are texts. -/
def Code.Branch.Indifferent (table : List (String × Routine)) (typed : List String) (b : Branch Encoder) (x : Value) :
    Prop :=
  b.Uniform typed ∨
    x.textTagged = true ∧ b.plain.hasTextTags = true ∧ ∀ f ∈ table, f.2.writer.hasTextTags = true

namespace Code.Encoder

/-- A value without a tag, for which a branch is chosen. -/
structure Chosen (subject : Subject) (v : Value) (branches : List (Branch Encoder)) (b : Branch Encoder) : Prop where
  untagged : ∀ items, subject.look v ≠ .ok (.tuple items)
  choice_eq : choice subject v branches = .ok (some b)

/-- The second value is the first with a tag put to the value of a union, and they differ at the path only. The
variables `typed` are declared as text. Fields beside the one that leads to the union work at other paths. -/
inductive Retagged (table : List (String × Routine)) :
    List String → List String → Encoder → Value → Value → Prop
  | here {typed : List String} {subject : Subject} {tag data : String} {branches : List (Branch Encoder)}
      {b : Branch Encoder} {x v v' : Value} (hx : walk subject.keys v = .ok x)
      (hchosen : Chosen subject v branches b) (hnodup : (branches.map fun b => literalText b.tag).Nodup)
      (htags : b.Indifferent table typed x)
      (hstore : store (.tuple [.str (literalText b.tag), x]) subject.keys v = .ok v') :
      Retagged table typed subject.keys (.union subject tag data branches) v v'
  | part {typed path : List String} {e : Encoder} {front back : List Encoder} {v v' : Value}
      (hfront : ∀ a ∈ front, a.Avoids path) (hback : ∀ a ∈ back, a.Avoids path)
      (h : Retagged table typed path e v v') : Retagged table typed path (.fields (front ++ e :: back)) v v'
  | filled {typed rest : List String} {place : Place} {default : Json} {next : Encoder} {u v v' : Value}
      (hu : walk place.keys v = .ok u) (hnull : u.isNull = false)
      (h : Retagged table typed (place.keys ++ rest) next v v') :
      Retagged table typed (place.keys ++ rest) (.filled place default next) v v'
  | plain {typed rest : List String} {subject : Subject} {tag data : String} {branches : List (Branch Encoder)}
      {b : Branch Encoder} {v v' : Value} (hchosen : Chosen subject v branches b)
      (huntagged : ∀ items, subject.look v' ≠ .ok (.tuple items))
      (h : Retagged table typed (subject.keys ++ rest) b.plain v v') :
      Retagged table typed (subject.keys ++ rest) (.union subject tag data branches) v v'
  | tagged {typed path : List String} {subject : Subject} {tag data : String} {branches : List (Branch Encoder)}
      {b : Branch Encoder} {t x x' v v' : Value} (hx : walk subject.keys v = .ok (.tuple [t, x]))
      (hb : labelled t branches = some b) (h : Retagged table typed path b.tagged x x')
      (hstore : store (.tuple [t, x']) subject.keys v = .ok v') :
      Retagged table typed subject.keys (.union subject tag data branches) v v'
  | item {typed path : List String} {place : Place} {item : String} {body : Encoder} {front back : List Value}
      {x x' v v' : Value} (wrap : List Value → Value) (hwrap : wrap = .list ∨ wrap = .tuple)
      (hx : walk place.keys v = .ok (wrap (front ++ x :: back))) (h : Retagged table typed path body x x')
      (hstore : store (wrap (front ++ x' :: back)) place.keys v = .ok v') :
      Retagged table typed place.keys (.array place item body) v v'
  | entry {typed path : List String} {place : Place} {key value : String} {body : Encoder}
      {front back : List (Value × Value)} {k x x' v v' : Value}
      (hx : walk place.keys v = .ok (.map (front ++ (k, x) :: back))) (h : Retagged table typed path body x x')
      (hstore : store (.map (front ++ (k, x') :: back)) place.keys v = .ok v') :
      Retagged table typed place.keys (.map place key value body) v v'
  | call {typed path : List String} {place : Place} {name : String} {r : Routine} {x x' v v' : Value}
      (hr : Routine.function? table name = some r) (hx : walk place.keys v = .ok x)
      (h : Retagged table r.typedTags path r.writer x x') (hstore : store x' place.keys v = .ok v') :
      Retagged table typed place.keys (.recur name place) v v'

namespace Retagged

variable {table : List (String × Routine)} {typed path : List String} {e : Encoder} {v v' x y : Value}

theorem exists_swap (h : Retagged table typed path e v v') : ∃ x y, Swap path x y v v' := by
  induction h with
  | here hx _ _ _ hstore => exact ⟨_, _, hx, hstore⟩
  | part _ _ _ ih => exact ih
  | filled _ _ _ ih => exact ih
  | plain _ _ _ ih => exact ih
  | tagged hx _ _ hstore _ => exact ⟨_, _, hx, hstore⟩
  | item _ _ hx _ hstore _ => exact ⟨_, _, hx, hstore⟩
  | entry hx _ hstore _ => exact ⟨_, _, hx, hstore⟩
  | call _ hx _ hstore _ => exact ⟨_, _, hx, hstore⟩

/-- What there is now is a tuple, or it is a list or dictionary as before. -/
theorem kind (h : Retagged table typed path e v v') (hswap : Swap path x y v v') :
    (∃ items, y = .tuple items) ∨ SameKind x y := by
  induction h generalizing x y with
  | here hx _ _ _ hstore =>
    obtain ⟨rfl, rfl⟩ := hswap.unique hx hstore
    exact .inl ⟨_, rfl⟩
  | part _ _ _ ih => exact ih hswap
  | filled _ _ _ ih => exact ih hswap
  | plain _ _ _ ih => exact ih hswap
  | tagged hx _ _ hstore _ =>
    obtain ⟨rfl, rfl⟩ := hswap.unique hx hstore
    exact .inl ⟨_, rfl⟩
  | item wrap hwrap hx _ hstore _ =>
    obtain ⟨rfl, rfl⟩ := hswap.unique hx hstore
    rcases hwrap with rfl | rfl
    · exact .inr (.list _ _)
    · exact .inl ⟨_, rfl⟩
  | entry hx _ hstore _ =>
    obtain ⟨rfl, rfl⟩ := hswap.unique hx hstore
    exact .inr (.map _ _)
  | @call _ path' _ _ _ a b _ _ hr hx h hstore ih =>
    obtain ⟨rfl, rfl⟩ := hswap.unique hx hstore
    obtain ⟨x', y', hin⟩ := h.exists_swap
    cases path' with
    | nil =>
      obtain ⟨rfl, rfl⟩ : x = x' ∧ y = y' := ⟨Except.ok.inj hin.walk_eq, (Except.ok.inj hin.store_eq).symm⟩
      exact ih hin
    | cons key path' =>
      obtain ⟨entries, w, w', rfl, -, -, rfl⟩ := hin.exists_entries
      exact .inr (.map _ _)

end Retagged

/-! ### Work at the path -/

section Place

variable {path : List String} {x y v v' : Value} {f : Value → Written}

variable {u u' : Value}

theorem exists_inside_swaps (h : Swap path x y v v') (hresult : (f y).result = (f x).result) :
    ∃ a b, (inside path f v).Swaps path a b (inside path f v') := by
  have hinside : inside path f v = Written.within path ⟨kept x (f x).value, (f x).result⟩ v := by
    simp only [inside, h.walk_eq]
    rfl
  have hinside' : inside path f v' = Written.within path ⟨kept y (f y).value, (f y).result⟩ v' := by
    simp only [inside, walk_of_store h.store_eq]
    rfl
  rw [hinside, hinside']
  exact within_swaps h hresult

theorem writeItems_replace (h : (f u').result = (f u).result) (front back : List Value) :
    (writeItems f (front ++ u' :: back)).2 = (writeItems f (front ++ u :: back)).2 := by
  induction front with
  | nil =>
    rw [List.nil_append, List.nil_append, writeItems, writeItems, h]
    cases (f u).result <;> rfl
  | cons a front ih =>
    rw [List.cons_append, List.cons_append, writeItems, writeItems]
    cases (f a).result with
    | error e => rfl
    | ok eff => exact congrArg (Except.map eff.andThen) ih

theorem writeEntries_replace (h : (f u').result = (f u).result) (k : Value)
    (front back : List (Value × Value)) :
    (writeEntries f (front ++ (k, u') :: back)).2 = (writeEntries f (front ++ (k, u) :: back)).2 := by
  induction front with
  | nil =>
    cases hkey : Primitive.writeString k with
    | error e => simp only [List.nil_append, writeEntries, hkey]
    | ok key =>
      simp only [List.nil_append, writeEntries, hkey, h]
      cases (f u).result <;> rfl
  | cons a front ih =>
    obtain ⟨k', a⟩ := a
    cases hkey : Primitive.writeString k' with
    | error e => simp only [List.cons_append, writeEntries, hkey]
    | ok key =>
      simp only [List.cons_append, writeEntries, hkey]
      cases (f a).result with
      | error e => rfl
      | ok eff => exact congrArg (Except.map _) ih

theorem writeArray_replace {wrap : List Value → Value} (hwrap : wrap = .list ∨ wrap = .tuple)
    (h : (f u').result = (f u).result) (front back : List Value) :
    (writeArray f (wrap (front ++ u' :: back))).result = (writeArray f (wrap (front ++ u :: back))).result := by
  have hcount : (front ++ u' :: back).length = (front ++ u :: back).length := by simp
  rcases hwrap with rfl | rfl <;>
    simp only [writeArray, elements?, writeItems_replace h, hcount]

theorem writeMap_replace (h : (f u').result = (f u).result) (k : Value)
    (front back : List (Value × Value)) :
    (writeMap f (.map (front ++ (k, u') :: back))).result =
      (writeMap f (.map (front ++ (k, u) :: back))).result := by
  have hcount : (front ++ (k, u') :: back).length = (front ++ (k, u) :: back).length := by simp
  simp only [writeMap, writeEntries_replace h, hcount]

end Place

section Union

variable {subject : Subject} {branches : List (Branch Encoder)} {b : Branch Encoder} {v u a c x : Value}
  {table : List (String × Routine)} {typed : List String} {call : String → Value → Written} {tag data : String}

theorem Chosen.of_kind (h : Chosen subject v branches b) (hv : walk subject.keys v = .ok a)
    (hu : walk subject.keys u = .ok c) (hkind : a = c ∨ SameKind a c) : Chosen subject u branches b := by
  constructor
  · intro items hitems
    cases (Subject.look_of_walk hu).symm.trans hitems
    rcases hkind with rfl | hkind
    · exact h.untagged items (Subject.look_of_walk hv)
    · cases hkind
  · rw [← h.choice_eq]
    exact choice_congr fun g => (Subject.passes_of_kind hv hu hkind g).symm

theorem run_of_chosen {s : WriteScope} (h : Chosen subject v branches b) (hv : walk subject.keys v = .ok a) :
    run s (.union subject tag data branches) v = writeBranch b.index (fun x => run s b.plain x) v := by
  have hlook := Subject.look_of_walk hv
  rw [run_union_of_ne_tuple hlook fun items hitems => h.untagged items (hitems ▸ hlook),
    runPlain_eq, h.choice_eq]

theorem writeBranch_result {f : Value → Written} (index : Nat) (h : (f u).result = (f v).result) :
    (writeBranch index f u).result = (writeBranch index f v).result := by
  unfold writeBranch Written.andThen
  cases Varint.encode index with
  | error e => rfl
  | ok bytes => exact congrArg (Except.map _) h

/-- The value of a union with the tag of its branch and without it. -/
theorem exists_swaps_of_chosen (hcopy : Copyable (.union subject tag data branches))
    (hchosen : Chosen subject v branches b) (hnodup : (branches.map fun b => literalText b.tag).Nodup)
    (hcall : (∀ f ∈ table, f.2.writer.hasTextTags = true) → ∀ name, AgreeOnTexts (call name) (call name))
    (htags : b.Indifferent table typed x)
    (hswap : Swap subject.keys x (.tuple [.str (literalText b.tag), x]) v u) :
    ∃ a c, (run ⟨typed, call⟩ (.union subject tag data branches) v).Swaps subject.keys a c
      (run ⟨typed, call⟩ (.union subject tag data branches) u) := by
  have hb := mem_of_choice hchosen.choice_eq
  obtain ⟨-, -, p, hp, hcopied⟩ := hcopy.of_union hb
  have hrun : run ⟨typed, call⟩ b.plain v = (run ⟨typed, call⟩ b.tagged x).within subject.keys v := by
    have hx : walk p.keys v = .ok x := hp ▸ hswap.walk_eq
    rw [← hp]
    rcases htags with huniform | ⟨htexts, hplain, htable⟩
    · have hcopies : Copies (fun t t' => typed.contains t = typed.contains t') p (.of data) b.plain b.tagged :=
        hcopied.retype huniform (List.subset_append_left _ _) (List.subset_append_right _ _)
      refine hcopies.run_within (fun t t' htt' tag => ?_) (fun _ _ => rfl) hx
      simp only [isTag, htt']
    · obtain ⟨w, hw, hw', -⟩ := hcopied.exists_within (@preserved_agree ⟨typed, call⟩ ⟨typed, call⟩ _)
        (List.all_eq_true.1 hplain) (fun name _ => hcall htable name) hx
        (show walk (Place.of data).keys x = .ok x from rfl) htexts
      rw [hw, hw']
      rfl
  -- Both begin with the position of the branch.
  let w := writeBranch b.index (fun x => run ⟨typed, call⟩ b.tagged x) x
  have hplain : run ⟨typed, call⟩ (.union subject tag data branches) v = w.within subject.keys v := by
    rw [run_of_chosen hchosen hswap.walk_eq, writeBranch_within b.index hswap.walk_eq hrun]
    rfl
  have htagged : run ⟨typed, call⟩ (.union subject tag data branches) u =
      Written.within subject.keys ⟨.tuple [.str (literalText b.tag), kept x w.value], w.result⟩ u := by
    rw [run_union_of_tuple (Subject.look_of_walk (walk_of_store hswap.store_eq))]
    simp only [writePair, isTag, isStr, Bool.true_or, if_true, runTagged_eq, labelled_of_nodup hnodup hb]
    rfl
  rw [hplain, htagged]
  exact within_swaps hswap rfl

end Union

section Run

variable {path rest ks : List String} {x y v v' u u' : Value} {s : WriteScope}

theorem exists_kinds (h : Swap (ks ++ rest) x y v v') (h' : Swap (ks ++ rest) x y u u') :
    ∃ a a' c c', walk ks v = .ok a ∧ walk ks v' = .ok a' ∧ walk ks u = .ok c ∧ walk ks u' = .ok c' ∧
      (a = c ∨ SameKind a c) ∧ (a' = c' ∨ SameKind a' c') ∧ (rest = [] ∧ a = x ∧ a' = y ∨ SameKind a a') := by
  obtain ⟨a, a', ha, ha', hrest⟩ := h.exists_of_append
  obtain ⟨c, c', hc, hc', hrest'⟩ := h'.exists_of_append
  refine ⟨a, a', c, c', ha, ha', hc, hc', ?_⟩
  cases rest with
  | nil =>
    have haa' : a = x ∧ a' = y := ⟨Except.ok.inj hrest.walk_eq, (Except.ok.inj hrest.store_eq).symm⟩
    have hcc' : c = x ∧ c' = y := ⟨Except.ok.inj hrest'.walk_eq, (Except.ok.inj hrest'.store_eq).symm⟩
    exact ⟨.inl (haa'.1.trans hcc'.1.symm), .inl (haa'.2.trans hcc'.2.symm), .inl ⟨rfl, haa'⟩⟩
  | cons key rest =>
    obtain ⟨entries, w, w', rfl, -, -, rfl⟩ := hrest.exists_entries
    obtain ⟨entries', z, z', rfl, -, -, rfl⟩ := hrest'.exists_entries
    exact ⟨.inr (.map _ _), .inr (.map _ _), .inr (.map _ _)⟩

theorem apart_of_avoids {parts : List Encoder} (h : ∀ e ∈ parts, e.Avoids path) :
    ∀ ks ∈ pathsParts parts, Apart ks path := by
  induction parts with
  | nil => exact fun _ hks => absurd hks List.not_mem_nil
  | cons e parts ih =>
    intro ks hks
    rcases List.mem_append.1 hks with hks | hks
    · exact h e List.mem_cons_self ks hks
    · exact ih (fun e he => h e (List.mem_cons_of_mem _ he)) ks hks

theorem exists_runParts_swaps {e : Encoder} {front back : List Encoder} (hfront : ∀ a ∈ front, a.Avoids path)
    (hback : ∀ a ∈ back, a.Avoids path) (h : Swap path x y v v')
    (he : ∀ {v v'}, Swap path x y v v' → ∃ a c, (run s e v).Swaps path a c (run s e v')) :
    ∃ a c, (runParts s (front ++ e :: back) v).Swaps path a c (runParts s (front ++ e :: back) v') := by
  induction front generalizing v v' with
  | nil =>
    rw [List.nil_append, runParts, runParts]
    obtain ⟨a, c, hac⟩ := he h
    exact ⟨a, c, Unseen.same_andThen hac fun hswap => (Swap.unseen ..).same_runParts back hswap (apart_of_avoids hback)⟩
  | cons a front ih =>
    rw [List.cons_append, runParts, runParts]
    refine exists_andThen_swaps ((Swap.unseen ..).same_run a h (hfront a List.mem_cons_self)) fun hswap => ?_
    exact ih (fun a ha => hfront a (List.mem_cons_of_mem _ ha)) hswap

end Run

namespace Retagged

variable {table : List (String × Routine)} {typed path : List String} {e : Encoder} {v v' u u' x y : Value}

theorem agree_writeCall_self (htable : ∀ {name r}, Routine.function? table name = some r →
      Copied (.of "data") (.of "data") r.writer r.writer) (htexts : ∀ f ∈ table, f.2.writer.hasTextTags = true)
    (depth : Nat) (name : String) :
    AgreeOnTexts (Routine.writeCall table depth name) (Routine.writeCall table depth name) := by
  induction depth generalizing name with
  | zero => exact fun v hv => .same hv (.error .endless)
  | succ depth ih =>
    intro v hv
    rw [Routine.writeCall]
    cases hr : Routine.function? table name with
    | none => exact .same hv (.error _)
    | some r => exact agree_of_copied (htable hr) (htexts _ (Routine.mem_of_function? hr)) (fun a _ => ih a) v hv

/-- The same is written with the tag and without it, whatever else is changed at other paths. -/
theorem exists_swaps (htable : ∀ {name r}, Routine.function? table name = some r →
      Copied (.of "data") (.of "data") r.writer r.writer)
    (h : Retagged table typed path e v v') (he : Copyable e) (hswap : Swap path x y v v')
    (hswap' : Swap path x y u u') (depth : Nat) :
    ∃ a c, (run ⟨typed, Routine.writeCall table depth⟩ e u).Swaps path a c
      (run ⟨typed, Routine.writeCall table depth⟩ e u') := by
  induction h generalizing x y u u' depth with
  | here hx hchosen hnodup htags hstore =>
    obtain ⟨rfl, rfl⟩ := hswap.unique hx hstore
    exact exists_swaps_of_chosen he (hchosen.of_kind hx hswap'.walk_eq (.inl rfl)) hnodup
      (fun htexts => agree_writeCall_self htable htexts depth) htags hswap'
  | part hfront hback _ ih =>
    rw [run, run]
    exact exists_runParts_swaps hfront hback hswap' fun hswap' =>
      ih (he.of_fields (List.mem_append_right _ List.mem_cons_self)) hswap hswap' depth
  | @filled _ rest place default next w v v' hw hnull h ih =>
    obtain ⟨a, a', c, c', ha, ha', hc, hc', hac, hac', hends⟩ := exists_kinds hswap hswap'
    cases hw.symm.trans ha
    have hnull' : a'.isNull = false := by
      rcases hends with ⟨-, rfl, rfl⟩ | hkind
      · rcases h.kind hswap with ⟨items, rfl⟩ | hkind
        · rfl
        · rw [← hkind.isNull_eq, hnull]
      · rw [← hkind.isNull_eq, hnull]
    have hkeeps : ∀ {p q : Value}, p = q ∨ SameKind p q → p.isNull = false → q.isNull = false := by
      rintro p q (rfl | hkind) hp
      · exact hp
      · rw [← hkind.isNull_eq, hp]
    rw [run, run, fill_eq _ hc (hkeeps hac hnull), fill_eq _ hc' (hkeeps hac' hnull')]
    exact ih he.of_filled hswap hswap' depth
  | @plain _ rest subject _ _ branches b v v' hchosen huntagged h ih =>
    obtain ⟨a, a', c, c', ha, ha', hc, hc', hac, hac', hends⟩ := exists_kinds hswap hswap'
    have hkind : SameKind a a' := by
      rcases hends with ⟨-, rfl, rfl⟩ | hkind
      · rcases h.kind hswap with ⟨items, rfl⟩ | hkind
        · exact absurd (Subject.look_of_walk ha') (huntagged items)
        · exact hkind
      · exact hkind
    have hchosen' := (hchosen.of_kind ha ha' (.inr hkind)).of_kind ha' hc' hac'
    rw [run_of_chosen (hchosen.of_kind ha hc hac) hc, run_of_chosen hchosen' hc']
    refine exists_andThen_swaps ⟨rfl, hswap'⟩ fun hswap' => ?_
    exact ih (he.of_union (mem_of_choice hchosen.choice_eq)).1 hswap hswap' depth
  | @tagged _ path' subject tag _ branches b t w w' v v' hx hb h hstore ih =>
    obtain ⟨rfl, rfl⟩ := hswap.unique hx hstore
    obtain ⟨x, y, hin⟩ := h.exists_swap
    obtain ⟨_, _, hpayload⟩ := ih (he.of_union (List.mem_of_find?_eq_some hb)).2.1 hin hin depth
    rw [run_union_of_tuple (Subject.look_of_walk hswap'.walk_eq),
      run_union_of_tuple (Subject.look_of_walk (walk_of_store hswap'.store_eq))]
    refine within_swaps hswap' ?_
    simp only [writePair]
    split_ifs
    · rw [runTagged_eq, runTagged_eq, hb]
      exact writeBranch_result b.index hpayload.result_eq
    · rfl
  | item wrap hwrap hx h hstore ih =>
    obtain ⟨rfl, rfl⟩ := hswap.unique hx hstore
    obtain ⟨x, y, hin⟩ := h.exists_swap
    obtain ⟨_, _, hitem⟩ := ih he.of_array hin hin depth
    rw [run, run]
    exact exists_inside_swaps hswap' (writeArray_replace hwrap hitem.result_eq _ _)
  | entry hx h hstore ih =>
    obtain ⟨rfl, rfl⟩ := hswap.unique hx hstore
    obtain ⟨x, y, hin⟩ := h.exists_swap
    obtain ⟨_, _, hitem⟩ := ih he.of_map hin hin depth
    rw [run, run]
    exact exists_inside_swaps hswap' (writeMap_replace hitem.result_eq _ _ _)
  | call hr hx h hstore ih =>
    obtain ⟨rfl, rfl⟩ := hswap.unique hx hstore
    obtain ⟨x, y, hin⟩ := h.exists_swap
    rw [run, run]
    refine exists_inside_swaps hswap' ?_
    cases depth with
    | zero => rfl
    | succ depth =>
      obtain ⟨_, _, hbody⟩ := ih ⟨_, _, _, htable hr⟩ hin hin depth
      simp only [Written.called, Routine.writeCall, hr, hbody.result_eq]

end Retagged

end Code.Encoder

end AvroCodec
