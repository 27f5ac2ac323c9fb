import AvroCodec.Proofs.Altering

/-!
# Writing what was left

Writing puts defaults in. If what it has left is written once more there is nothing to put in, and the same is
written. That needs code in which no part of a record changes what an earlier part works with
(`Encoder.isOrderly`): else the earlier part meets, the second time, what was put in after it.
-/

namespace AvroCodec

open Code Value Subject

/-- What was left is left as it is, with the same effect on the output. -/
def Settles (f : Value → Written) : Prop :=
  ∀ x eff, (f x).result = .ok eff → f (f x).value = ⟨(f x).value, .ok eff⟩

namespace Settles

variable {f : Value → Written} {x : Value} {eff : Effect}

theorem result_kept (hf : Settles f) (h : (f x).result = .ok eff) : (f (kept x (f x).value)).result = .ok eff := by
  unfold kept
  split_ifs
  · exact h
  · rw [hf x eff h]

theorem kept_kept (hf : Settles f) (h : (f x).result = .ok eff) :
    kept (kept x (f x).value) (f (kept x (f x).value)).value = kept x (f x).value := by
  unfold kept
  split_ifs with hnull
  · rfl
  · rfl
  · rw [hf x eff h]

theorem called (hf : Settles f) : Settles fun x => (f x).called := by
  intro x eff h
  obtain ⟨body, hbody, rfl⟩ := except_map_eq_ok.1 h
  change (f (f x).value).called = _
  rw [hf x body hbody]
  rfl

end Settles

namespace Code

variable {o : Option Value} {s : Subject} {u v : Value}

theorem Subject.look_congr (ho : glance s.keys v = some o)
    (hu : glance s.keys u = glance s.keys v) : s.look u = s.look v := by
  cases s with
  | value place => exact walk_congr ho hu
  | member place key =>
    rw [ho] at hu
    rw [keys, glance_concat] at ho hu
    split at ho
    next entries hv =>
      split at hu
      next entries' hu' =>
        cases ho
        rw [look, look, hv, hu']
        exact congrArg (fun o => Except.ok (o.getD Value.null)) (Option.some.inj hu)
      next => cases hu
    next => cases ho

theorem Guard.passes_congr (ho : glance s.keys v = some o) (hu : glance s.keys u = glance s.keys v)
    (g : Guard) : g.passes s u = g.passes s v := by
  cases g <;> simp only [passes, look_congr ho hu, walk_congr ho hu]

/-- A guard that lets nothing pass, that is, the value `null`. -/
def Guard.takesNothing (g : Guard) : Bool :=
  match g.passes (.value (.of "")) .null with
  | .ok passes => passes
  | .error _ => false

theorem Guard.passes_of_walk {x : Value} (hx : walk s.keys v = .ok x) (g : Guard) :
    g.passes s v = g.passes (.value (.of "")) x := by
  cases g <;> simp only [passes, look_of_walk hx, hx] <;> rfl

theorem Guard.takesNothing_of_passes {g : Guard} (ho : glance s.keys v = some o) (hnull : (o.getD .null).isNull = true)
    (h : g.passes s v = .ok true) : g.takesNothing = true := by
  cases hx : walk s.keys v with
  | error e => cases g <;> first | rfl | (rw [passes, hx] at h; cases h)
  | ok x =>
    cases ho.symm.trans (glance_eq_some_iff.2 hx)
    cases eq_null_of_isNull (v := x) hnull
    rw [takesNothing, ← passes_of_walk hx, h]

namespace Encoder

variable {s : WriteScope} {f : Value → Written} {u v : Value} {eff : Effect} {calls : Bool}

variable {path : List String} {e : Encoder} {branches : List (Branch Encoder)} {items : List Value} {subject : Subject}
  {default x : Value}

theorem inside_again (hf : Settles f) (h : (inside path f v).result = .ok eff)
    (hu : glance path u = glance path (inside path f v).value) : inside path f u = ⟨u, .ok eff⟩ := by
  unfold inside at h hu
  cases hx : walk path v with
  | error e =>
    rw [hx] at h
    cases h
  | ok x =>
    rw [hx] at h hu
    obtain ⟨z, hz⟩ := exists_store_of_walk (kept x (f x).value) hx
    simp only [hz] at h hu
    have hwalk := glance_eq_some_iff.1 (hu.trans (glance_eq_some_iff.2 (walk_of_store hz)))
    unfold inside
    simp only [hwalk, hf.kept_kept h, store_of_walk hwalk, hf.result_kept h]
    rfl

theorem writeItems_again (hf : Settles f) (h : (writeItems f items).2 = .ok eff) :
    writeItems f (writeItems f items).1 = ((writeItems f items).1, .ok eff) := by
  induction items generalizing eff with
  | nil =>
    cases h
    rfl
  | cons x items ih =>
    cases hx : (f x).result with
    | error e =>
      rw [writeItems, hx] at h
      cases h
    | ok front =>
      rw [writeItems] at h ⊢
      simp only [hx] at h ⊢
      obtain ⟨back, hback, rfl⟩ := except_map_eq_ok.1 h
      rw [writeItems]
      simp only [hf.result_kept hx, hf.kept_kept hx, ih hback]
      rfl

theorem writeEntries_again (hf : Settles f) {entries : List (Value × Value)}
    (h : (writeEntries f entries).2 = .ok eff) :
    writeEntries f (writeEntries f entries).1 = ((writeEntries f entries).1, .ok eff) := by
  induction entries generalizing eff with
  | nil =>
    cases h
    rfl
  | cons e entries ih =>
    obtain ⟨k, x⟩ := e
    cases hk : Primitive.writeString k with
    | error e =>
      rw [writeEntries, hk] at h
      cases h
    | ok key =>
      cases hx : (f x).result with
      | error e =>
        simp only [writeEntries, hk, hx] at h
        cases h
      | ok front =>
        rw [writeEntries] at h ⊢
        simp only [hk, hx] at h ⊢
        obtain ⟨back, hback, rfl⟩ := except_map_eq_ok.1 h
        rw [writeEntries]
        simp only [hk, hf.result_kept hx, hf.kept_kept hx, ih hback]
        rfl

theorem length_writeItems (f : Value → Written) (items : List Value) :
    (writeItems f items).1.length = items.length := by
  induction items with
  | nil => rfl
  | cons x items ih =>
    rw [writeItems]
    cases (f x).result <;> simp [ih]

theorem length_writeEntries (f : Value → Written) (entries : List (Value × Value)) :
    (writeEntries f entries).1.length = entries.length := by
  induction entries with
  | nil => rfl
  | cons e entries ih =>
    obtain ⟨k, x⟩ := e
    rw [writeEntries]
    cases Primitive.writeString k with
    | error e => rfl
    | ok key =>
      simp only
      cases (f x).result <;> simp [ih]

theorem writeArray_settles (hf : Settles f) : Settles (writeArray f) := by
  intro v eff h
  have hloop : ∀ items, writeCounted items.length (writeItems f items).2 = .ok eff →
      writeItems f (writeItems f items).1 = writeItems f items := by
    intro items hcounted
    obtain ⟨-, body, hbody, -⟩ := exists_of_writeCounted hcounted fun hcount => by
      rw [List.eq_nil_of_length_eq_zero hcount]
      exact ⟨.none, rfl⟩
    rw [writeItems_again hf hbody, ← hbody]
  unfold writeArray at h ⊢
  cases hitems : v.elements? with
  | none =>
    rw [hitems] at h
    cases h
  | some items =>
    simp only [hitems] at h ⊢
    cases v with
    | list _ =>
      cases hitems
      simp only [replaceElements, elements?, hloop _ h, length_writeItems, h]
    | tuple _ =>
      cases hitems
      simp only [replaceElements, elements?, hloop _ h, length_writeItems, h]
    | _ => simp only [replaceElements, hitems, h]

theorem writeMap_settles (hf : Settles f) : Settles (writeMap f) := by
  intro v eff h
  cases v with
  | map entries =>
    simp only [writeMap] at h ⊢
    obtain ⟨-, body, hbody, -⟩ := exists_of_writeCounted h fun hcount => by
      rw [List.eq_nil_of_length_eq_zero hcount]
      exact ⟨.none, rfl⟩
    simp only [writeEntries_again hf hbody, length_writeEntries, ← hbody, h]
  | _ => cases h

theorem writeBranch_eq_ok {index : Nat} (h : (writeBranch index f v).result = .ok eff) :
    ∃ front body, (Varint.encode index).map Effect.put = .ok front ∧ (f v).result = .ok body ∧
      eff = front.andThen body ∧ (writeBranch index f v).value = (f v).value := by
  unfold writeBranch Written.andThen at h ⊢
  cases hfront : (Varint.encode index).map Effect.put with
  | error e =>
    simp only [hfront] at h
    cases h
  | ok front =>
    simp only [hfront] at h ⊢
    obtain ⟨body, hbody, rfl⟩ := except_map_eq_ok.1 h
    exact ⟨front, body, rfl, hbody, rfl, trivial⟩

theorem writeBranch_settles (hf : Settles f) (index : Nat) : Settles (writeBranch index f) := by
  intro v eff h
  obtain ⟨front, body, hfront, hbody, rfl, hvalue⟩ := writeBranch_eq_ok h
  rw [hvalue]
  simp only [writeBranch, Written.andThen, hfront, hf v body hbody]
  rfl

theorem writePair_again {g : Value → Value → Written} (hg : ∀ t, Settles (g t)) {tag : String}
    (h : (writePair s tag g items).result = .ok eff) : ∃ items', (writePair s tag g items).value = .tuple items' ∧
      writePair s tag g items' = ⟨.tuple items', .ok eff⟩ := by
  match items, h with
  | [t, payload], h =>
    unfold writePair at h ⊢
    simp only at h ⊢
    split_ifs at h ⊢ with htag
    refine ⟨_, rfl, ?_⟩
    simp only [if_pos htag, (hg t).kept_kept h, (hg t).result_kept h]
  | [], h | [_], h | _ :: _ :: _ :: _, h => cases h

/-- Where the places that code works at are as the code has left them, it does the same and changes nothing. -/
def Again (s : WriteScope) (e : Encoder) : Prop :=
  ∀ v u eff, (run s e v).result = .ok eff → (∀ ks ∈ e.paths, glance ks u = glance ks (run s e v).value) →
    run s e u = ⟨u, .ok eff⟩

theorem Again.settles (h : Again s e) : Settles (run s e) := fun x eff hx =>
  h x _ eff hx fun _ _ => rfl

theorem exists_walk_of_fill (h : fill path default v = .ok u) :
    ∃ x, walk path u = .ok x ∧ (x.isNull = true → default.isNull = true) := by
  obtain ⟨o, ho⟩ := exists_glance_of_fill h
  rw [fill_of_glance default ho] at h
  split_ifs at h with hnull
  · exact ⟨default, walk_of_store h, id⟩
  · cases h
    cases o with
    | none => exact absurd rfl hnull
    | some x => exact ⟨x, glance_eq_some_iff.1 ho, fun hx => absurd hx hnull⟩

theorem fill_again (hx : walk path v = .ok x)
    (hnull : x.isNull = true → default.isNull = true) : fill path default v = .ok v := by
  rw [fill_of_glance default (glance_eq_some_iff.2 hx), Option.getD_some]
  split_ifs with hxnull
  · rw [eq_null_of_isNull (hnull hxnull), ← eq_null_of_isNull hxnull]
    exact store_of_walk hx
  · rfl

theorem filled_again {place : Place} {default : Json} {next : Encoder} (hcall : ∀ name x, Grows x (s.call name x).value)
    (hnext : Again s next) : Again s (.filled place default next) := by
  intro v u eff h hu
  rw [paths, List.forall_mem_cons] at hu
  rw [run] at h hu ⊢
  cases hfill : fill place.keys ((Default.value? default).getD .null) v with
  | error e =>
    rw [hfill] at h
    cases h
  | ok w =>
    simp only [hfill] at h hu
    obtain ⟨x, hx, hnull⟩ := exists_walk_of_fill hfill
    obtain ⟨x', hx', hkind⟩ := run_grows hcall next w place.keys x hx
    have hwalk := glance_eq_some_iff.1 (hu.1.trans (glance_eq_some_iff.2 hx'))
    rw [fill_again hwalk fun hxnull => hnull ?_]
    · exact hnext w u eff h hu.2
    · rcases hkind with hnull' | hkind
      · exact hnull'
      · rwa [← isNull_hull, ← hkind, isNull_hull]

/-! ### Orderly code -/

mutual

/-- No part of a record changes what an earlier part works with, and a branch that takes nothing changes nothing.
`calls` tells whether functions may change something. -/
def isOrderly (calls : Bool) : Encoder → Bool
  | .fields parts => partsOrderly calls parts
  | .filled _ _ next => isOrderly calls next
  | .array _ _ body | .map _ _ _ body => isOrderly calls body
  | .union _ _ _ branches => branchesOrderly calls branches
  | _ => true

def partsOrderly (calls : Bool) : List Encoder → Bool
  | [] => true
  | e :: es => isOrderly calls e && (e.paths.all fun ks => (altersParts calls es).all (isApart ks)) &&
      partsOrderly calls es

def branchesOrderly (calls : Bool) : List (Branch Encoder) → Bool
  | [] => true
  | ⟨_, _, guard, tagged, plain⟩ :: rest => isOrderly calls tagged && isOrderly calls plain
    && (!guard.takesNothing || (alters calls plain).isEmpty) && branchesOrderly calls rest

end

/-- Functions that find their own work done. `calls` tells whether they may change something. -/
structure Steady (calls : Bool) (call : String → Value → Written) : Prop where
  grows : ∀ name x, Grows x (call name x).value
  still : calls = false → ∀ name x, (call name x).value = x
  settles : ∀ name, Settles (call name)

theorem runTagged_settles (h : ∀ b ∈ branches, Again s b.tagged) (t : Value) : Settles (runTagged s t branches) := by
  intro x eff hx
  rw [runTagged_eq] at hx ⊢
  cases hb : labelled t branches with
  | none =>
    rw [hb] at hx
    rw [runTagged_eq, hb]
    cases hx
    rfl
  | some b =>
    rw [hb] at hx
    rw [runTagged_eq, hb]
    exact writeBranch_settles (h b (List.mem_of_find?_eq_some hb)).settles b.index x eff hx

theorem eq_or_sameKind_of_hull {x' : Value} (h : x'.hull = x.hull) (htuple : ∀ items, x ≠ .tuple items) :
    x = x' ∨ SameKind x x' := by
  cases x with
  | list items => cases x' <;> first | exact .inr (.list _ _) | cases h
  | map entries => cases x' <;> first | exact .inr (.map _ _) | cases h
  | tuple items => exact absurd rfl (htuple items)
  | _ => cases x' <;> first | exact .inl h.symm | cases h

theorem run_of_alters_nil (hsteady : Steady calls s.call) (h : e.alters calls = []) (v : Value) :
    (run s e v).value = v :=
  (h ▸ run_altered hsteady.grows hsteady.still e v).eq_of_nil

section Union

variable {subject : Subject} {branches : List (Branch Encoder)} {b : Branch Encoder} {x : Value}

theorem Chosen.again (hsteady : Steady calls s.call) (h : Chosen subject v branches b)
    (hb : b.guard.takesNothing = true → b.plain.alters calls = []) (hlook : subject.look v = .ok x)
    (hu : glance subject.keys u = glance subject.keys (run s b.plain v).value) :
    Chosen subject u branches b ∧ ∃ x, subject.look u = .ok x := by
  obtain ⟨o, ho, hx⟩ := exists_glance_of_look hlook
  cases hnull : x.isNull with
  | true =>
    have hnothing := hb (Guard.takesNothing_of_passes ho (hx ▸ hnull) (passes_of_choice h.choice_eq))
    rw [run_of_alters_nil hsteady hnothing] at hu
    have hsame := look_congr ho hu
    refine ⟨⟨fun items => hsame ▸ h.untagged items, ?_⟩, x, hsame.trans hlook⟩
    exact (choice_congr fun g => g.passes_congr ho hu).trans h.choice_eq
  | false =>
    have hv := walk_of_look hlook hnull
    obtain ⟨x', hx', hkind⟩ := run_grows hsteady.grows b.plain v subject.keys x hv
    have hwalk := glance_eq_some_iff.1 (hu.trans (glance_eq_some_iff.2 hx'))
    refine ⟨h.of_kind hv hwalk ?_, x', look_of_walk hwalk⟩
    refine eq_or_sameKind_of_hull (hkind.resolve_left (by simp [hnull])) ?_
    exact fun items hitems => h.untagged items (hitems ▸ hlook)

theorem union_again {tag data : String} (hsteady : Steady calls s.call) (htagged : ∀ b ∈ branches, Again s b.tagged)
    (hplain : ∀ b ∈ branches, Again s b.plain)
    (hnothing : ∀ b ∈ branches, b.guard.takesNothing = true → b.plain.alters calls = []) :
    Again s (.union subject tag data branches) := by
  intro v u eff h hu
  rw [paths, List.forall_mem_cons] at hu
  cases hlook : subject.look v with
  | error e =>
    rw [run, hlook] at h
    cases h
  | ok x =>
    by_cases htuple : ∃ items, x = .tuple items
    · obtain ⟨items, rfl⟩ := htuple
      rw [run_union_of_tuple hlook] at h hu
      obtain ⟨items', hvalue, hpair⟩ := writePair_again (runTagged_settles htagged) h
      obtain ⟨z, hz⟩ := exists_store_of_walk (.tuple items') (walk_of_look hlook rfl)
      simp only [hvalue, hz] at hu
      have hwalk := glance_eq_some_iff.1 (hu.1.trans (glance_eq_some_iff.2 (walk_of_store hz)))
      rw [run_union_of_tuple (look_of_walk hwalk)]
      simp only [hpair, store_of_walk hwalk]
      rfl
    · rw [not_exists] at htuple
      rw [run_union_of_ne_tuple hlook htuple, runPlain_eq] at h hu
      split at h
      next => cases h
      next hchoice =>
        rw [hchoice] at hu
        cases h
        obtain ⟨o, ho, -⟩ := exists_glance_of_look hlook
        have hchoice' := (choice_congr fun g => g.passes_congr ho hu.1).trans hchoice
        rw [run_union_of_ne_tuple ((look_congr ho hu.1).trans hlook) htuple, runPlain_eq, hchoice']
      next b hchoice =>
        have hb := mem_of_choice hchoice
        have hchosen : Chosen subject v branches b :=
          ⟨fun items hitems => htuple items (Except.ok.inj (hlook.symm.trans hitems)), hchoice⟩
        rw [hchoice] at hu
        obtain ⟨front, body, hfront, hbody, rfl, hvalue⟩ := writeBranch_eq_ok h
        rw [hvalue] at hu
        obtain ⟨hagain, x', hlook'⟩ := hchosen.again hsteady (hnothing b hb) hlook hu.1
        have hplain' := hplain b hb v u body hbody fun ks hks => hu.2 ks (paths_plain_subset hb hks)
        rw [run_union_of_ne_tuple hlook' fun items hitems => hagain.untagged items (hitems ▸ hlook'),
          runPlain_eq, hagain.choice_eq]
        simp only [writeBranch, Written.andThen, hfront, hplain']
        rfl

end Union

theorem again_of_inside (hf : Settles f) (hrun : ∀ v, run s e v = inside path f v)
    (hpath : path ∈ e.paths) : Again s e := by
  intro v u eff h hu
  have hpath := hu path hpath
  rw [hrun] at h hpath ⊢
  exact inside_again hf h hpath

theorem only_settles (f : Value → Except CodecError (List UInt8)) : Settles (only f) :=
  fun x _ h => congrArg (Written.mk x) h

theorem parts_again (hsteady : Steady calls s.call) {parts : List Encoder}
    (ih : ∀ e ∈ parts, e.isOrderly calls = true → Again s e) (ho : partsOrderly calls parts = true) :
    Again s (.fields parts) := by
  intro v u eff h hu
  rw [run] at h hu ⊢
  rw [paths] at hu
  induction parts generalizing v eff with
  | nil =>
    rw [runParts] at h ⊢
    cases h
    rfl
  | cons e parts ihparts =>
    simp only [partsOrderly, Bool.and_eq_true, List.all_eq_true] at ho
    obtain ⟨⟨he, hapart⟩, hparts⟩ := ho
    rw [List.forall_mem_cons] at ih
    rw [pathsParts, List.forall_mem_append] at hu
    rw [runParts] at h hu ⊢
    unfold Written.andThen at h hu ⊢
    cases hfront : (run s e v).result with
    | error e =>
      simp only [hfront] at h
      cases h
    | ok front =>
      simp only [hfront] at h hu
      obtain ⟨back, hback, rfl⟩ := except_map_eq_ok.1 h
      -- What the later parts change is nothing to the first.
      have hfirst : run s e u = ⟨u, .ok front⟩ := by
        refine ih.1 he v u front hfront fun ks hks => ?_
        rw [hu.1 ks hks]
        exact (parts_altered (fun e _ => run_altered hsteady.grows hsteady.still e) _).glance_eq fun path hpath =>
          apart_of_isApart (hapart ks hks path hpath)
      simp only [hfirst, ihparts ih.2 hparts _ back hback hu.2]
      rfl

theorem isOrderly_of_part {parts : List Encoder} (h : partsOrderly calls parts = true) (he : e ∈ parts) :
    e.isOrderly calls = true := by
  induction parts with
  | nil => cases he
  | cons a parts ih =>
    simp only [partsOrderly, Bool.and_eq_true] at h
    rcases List.mem_cons.1 he with rfl | he
    · exact h.1.1
    · exact ih h.2 he

theorem isOrderly_of_mem {b : Branch Encoder} (h : branchesOrderly calls branches = true) (hb : b ∈ branches) :
    b.tagged.isOrderly calls = true ∧ b.plain.isOrderly calls = true ∧
      (b.guard.takesNothing = true → b.plain.alters calls = []) := by
  induction branches with
  | nil => cases hb
  | cons c rest ih =>
    obtain ⟨_, _, guard, tagged, plain⟩ := c
    simp only [branchesOrderly, Bool.and_eq_true] at h
    obtain ⟨⟨⟨htagged, hplain⟩, hnothing⟩, hrest⟩ := h
    rcases List.mem_cons.1 hb with rfl | hb
    · exact ⟨htagged, hplain, fun hguard => by simpa [hguard] using hnothing⟩
    · exact ih hrest hb

/-- Orderly code does the same to what it has left, and changes nothing. -/
theorem run_again (hsteady : Steady calls s.call) (e : Encoder) (ho : e.isOrderly calls = true) : Again s e := by
  induction e using induct with
  | null =>
    intro v u eff h _
    rw [run] at h ⊢
    cases h
    rfl
  | primitive | logical | enum => exact again_of_inside (only_settles _) (fun v => by rw [run]) List.mem_cons_self
  | fields parts ih => exact parts_again hsteady ih ho
  | filled place default next ih => exact filled_again hsteady.grows (ih ho)
  | array place item body ih =>
    exact again_of_inside (writeArray_settles (ih ho).settles) (fun v => by rw [run]) List.mem_cons_self
  | map place key value body ih =>
    exact again_of_inside (writeMap_settles (ih ho).settles) (fun v => by rw [run]) List.mem_cons_self
  | union subject tag data branches ihtagged ihplain =>
    exact union_again hsteady (fun b hb => ihtagged b hb (isOrderly_of_mem ho hb).1)
      (fun b hb => ihplain b hb (isOrderly_of_mem ho hb).2.1) fun b hb => (isOrderly_of_mem ho hb).2.2
  | recur name place =>
    exact again_of_inside (hsteady.settles name).called (fun v => by rw [run]) List.mem_cons_self

end Encoder

namespace Routine

variable {table : List (String × Routine)}

def functionsAlter (table : List (String × Routine)) : Bool :=
  table.any fun f => !(f.2.writer.alters false).isEmpty

theorem writeCall_grows (depth : Nat) (name : String) (v : Value) :
    Grows v (writeCall table depth name v).value := by
  induction depth generalizing name v with
  | zero => exact .refl v
  | succ depth ih =>
    rw [writeCall]
    cases function? table name with
    | none => exact .refl v
    | some r => exact Encoder.run_grows ih r.writer v

theorem writeCall_still (h : functionsAlter table = false) (depth : Nat) (name : String) (v : Value) :
    (writeCall table depth name v).value = v := by
  induction depth generalizing name v with
  | zero => rfl
  | succ depth ih =>
    rw [writeCall]
    cases hr : function? table name with
    | none => rfl
    | some r =>
      have hnil : r.writer.alters false = [] := by
        have hr := List.any_eq_false.1 h _ (mem_of_function? hr)
        simpa using hr
      exact (hnil ▸ Encoder.run_altered (writeCall_grows depth) (fun _ => ih) r.writer v).eq_of_nil

theorem writeCall_steady (h : ∀ f ∈ table, f.2.writer.isOrderly (functionsAlter table) = true) (depth : Nat) :
    Encoder.Steady (functionsAlter table) (writeCall table depth) where
  grows := writeCall_grows depth
  still hfalse := writeCall_still hfalse depth
  settles := by
    induction depth with
    | zero => exact fun name x eff hx => by cases hx
    | succ depth ih =>
      intro name x eff hx
      rw [writeCall] at hx ⊢
      cases hr : function? table name with
      | none =>
        rw [hr] at hx
        cases hx
      | some r =>
        simp only [hr] at hx ⊢
        rw [writeCall, hr]
        exact (Encoder.run_again ⟨writeCall_grows depth, fun hfalse => writeCall_still hfalse depth, ih⟩ r.writer
          (h _ (mem_of_function? hr))).settles x eff hx

end Routine

end Code

end AvroCodec
