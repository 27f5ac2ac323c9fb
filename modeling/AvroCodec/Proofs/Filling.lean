import AvroCodec.Proofs.Refilling
import Mathlib.Logic.Relation

/-!
# What writing puts in

`Encoder.Fills` is one step of putting a default in: the dictionary of a record has nothing under the key of a field,
and gets the default that the field declares. The record may stand anywhere in a value: under arrays, maps, other
records and unions, in the functions of recursive types, and in a default that was put in before.

Writing changes a value in such steps alone, and a codec whose code is orderly writes what is left as it has written
the value itself.
-/

namespace AvroCodec

open Code Value Relation

namespace Code.Encoder

variable {table : List (String × Routine)} {e : Encoder} {v v' : Value}

variable {path : List String} {subject : Subject} {tag data : String} {branches : List (Branch Encoder)}
  {body : Encoder} {place : Place} {x : Value} {f : Value → Written}

/-- The second value is the first with one default put in. -/
inductive Fills (table : List (String × Routine)) : Encoder → Value → Value → Prop
  | here {place : Place} {default : Json} {next : Encoder} {parent : List String} {key : String}
      {entries : List (Value × Value)} {v v' : Value} (hplace : place.keys = parent ++ [key])
      (hrecord : walk parent v = .ok (.map entries)) (hnull : ((find? key entries).getD .null).isNull = true)
      (hstore : store ((Default.value? default).getD .null) (parent ++ [key]) v = .ok v') :
      Fills table (.filled place default next) v v'
  | next {place : Place} {default : Json} {next : Encoder} {v v' : Value} (h : Fills table next v v') :
      Fills table (.filled place default next) v v'
  | part {parts : List Encoder} {e : Encoder} {v v' : Value} (he : e ∈ parts) (h : Fills table e v v') :
      Fills table (.fields parts) v v'
  | item {place : Place} {item : String} {body : Encoder} {front back : List Value} {x x' v v' : Value}
      (wrap : List Value → Value) (hwrap : wrap = .list ∨ wrap = .tuple)
      (hx : walk place.keys v = .ok (wrap (front ++ x :: back))) (h : Fills table body x x')
      (hstore : store (wrap (front ++ x' :: back)) place.keys v = .ok v') : Fills table (.array place item body) v v'
  | entry {place : Place} {key value : String} {body : Encoder} {k : Value} {front back : List (Value × Value)}
      {x x' v v' : Value} (hx : walk place.keys v = .ok (.map (front ++ (k, x) :: back))) (h : Fills table body x x')
      (hstore : store (.map (front ++ (k, x') :: back)) place.keys v = .ok v') :
      Fills table (.map place key value body) v v'
  | plain {subject : Subject} {tag data : String} {branches : List (Branch Encoder)} {b : Branch Encoder}
      {v v' : Value} (hchosen : Chosen subject v branches b) (h : Fills table b.plain v v') :
      Fills table (.union subject tag data branches) v v'
  | tagged {subject : Subject} {tag data : String} {branches : List (Branch Encoder)} {b : Branch Encoder}
      {t x x' v v' : Value} (hx : walk subject.keys v = .ok (.tuple [t, x])) (hb : labelled t branches = some b)
      (h : Fills table b.tagged x x') (hstore : store (.tuple [t, x']) subject.keys v = .ok v') :
      Fills table (.union subject tag data branches) v v'
  | call {name : String} {place : Place} {r : Routine} {x x' v v' : Value}
      (hr : Routine.function? table name = some r) (hx : walk place.keys v = .ok x) (h : Fills table r.writer x x')
      (hstore : store x' place.keys v = .ok v') : Fills table (.recur name place) v v'

namespace Fills

theorem grows_replace {k x x' : Value} (h : Grows x x') (front back : List (Value × Value)) :
    Grows (.map (front ++ (k, x) :: back)) (.map (front ++ (k, x') :: back)) := by
  refine .of_entries fun key w hw => ?_
  induction front with
  | nil =>
    cases k with
    | str s =>
      simp only [List.nil_append, find?] at hw ⊢
      split_ifs at hw ⊢
      · cases hw
        exact ⟨x', rfl, h⟩
      · exact ⟨w, hw, .refl w⟩
    | _ => exact ⟨w, hw, .refl w⟩
  | cons e front ih =>
    obtain ⟨s, a⟩ := e
    cases s with
    | str s =>
      simp only [List.cons_append, find?] at hw ⊢
      split_ifs at hw ⊢
      · exact ⟨w, hw, .refl w⟩
      · exact ih hw
    | _ => exact ih hw

theorem grows (h : Fills table e v v') : Grows v v' := by
  induction h with
  | here hplace hrecord hnull hstore =>
    refine .of_store hstore fun x hx => .of_isNull ?_ _
    rw [walk_append hrecord] at hx
    obtain ⟨_, w, heq, hw, hwx⟩ := walk_cons_eq_ok.1 hx
    cases heq
    cases hwx
    rwa [hw] at hnull
  | next _ ih => exact ih
  | part _ _ ih => exact ih
  | item wrap hwrap hx _ hstore ih =>
    refine .of_swap ⟨hx, hstore⟩ ?_
    rcases hwrap with rfl | rfl <;> exact .of_hull rfl (by simp)
  | entry hx _ hstore ih => exact .of_swap ⟨hx, hstore⟩ (grows_replace ih _ _)
  | plain _ _ ih => exact ih
  | tagged hx _ _ hstore ih => exact .of_swap ⟨hx, hstore⟩ (.of_hull rfl (by simp))
  | call _ hx _ hstore ih => exact .of_swap ⟨hx, hstore⟩ ih

end Fills

theorem grows_of_fills (h : ReflTransGen (Fills table e) v v') : Grows v v' := by
  induction h with
  | refl => exact .refl v
  | tail _ hstep ih => exact ih.trans hstep.grows

/-! ### Steps inside a value -/

theorem fills_lift {R S : Value → Value → Prop} (C : Value → Value)
    (hlift : ∀ {v v' x x'}, walk path v = .ok (C x) → R x x' → store (C x') path v = .ok v' → S v v') {x' : Value}
    (h : ReflTransGen R x x') (hx : walk path v = .ok (C x))
    (hstore : store (C x') path v = .ok v') : ReflTransGen S v v' := by
  induction h generalizing v' with
  | refl =>
    rw [store_of_walk hx] at hstore
    cases hstore
    exact .refl
  | @tail y x' _ hstep ih =>
    obtain ⟨u, hu⟩ := exists_store_of_walk (C y) hx
    refine (ih hu).tail (hlift (walk_of_store hu) hstep ?_)
    rw [store_store hu, hstore]

section Steps

variable {place : Place} {body : Encoder} {f : Value → Written}
  (hbody : ∀ x, x.isNull = false → ReflTransGen (Fills table body) x (f x).value)
include hbody

theorem fills_kept (C : Value → Value)
    (hlift : ∀ {v v' x x'}, walk path v = .ok (C x) → Fills table body x x' → store (C x') path v = .ok v' →
      Fills table e v v') (hx : walk path v = .ok (C x))
    (hstore : store (C (kept x (f x).value)) path v = .ok v') : ReflTransGen (Fills table e) v v' := by
  unfold kept at hstore
  split_ifs at hstore with hnull
  · rw [store_of_walk hx] at hstore
    cases hstore
    exact .refl
  · exact fills_lift C hlift (hbody x (Bool.not_eq_true _ ▸ hnull)) hx hstore

theorem fills_items {wrap : List Value → Value} (hwrap : wrap = .list ∨ wrap = .tuple) {item : String}
    (front items : List Value) (hx : walk place.keys v = .ok (wrap (front ++ items)))
    (hstore : store (wrap (front ++ (writeItems f items).1)) place.keys v = .ok v') :
    ReflTransGen (Fills table (.array place item body)) v v' := by
  induction items generalizing front v with
  | nil =>
    rw [writeItems, store_of_walk hx] at hstore
    cases hstore
    exact .refl
  | cons x items ih =>
    obtain ⟨u, hu⟩ := exists_store_of_walk (wrap (front ++ kept x (f x).value :: items)) hx
    have hfirst : ReflTransGen (Fills table (.array place item body)) v u :=
      fills_kept hbody (fun y => wrap (front ++ y :: items)) (.item wrap hwrap) hx hu
    rw [writeItems] at hstore
    cases hresult : (f x).result with
    | error e =>
      simp only [hresult] at hstore
      cases hu.symm.trans hstore
      exact hfirst
    | ok effect =>
      simp only [hresult] at hstore
      refine hfirst.trans (ih (front ++ [kept x (f x).value]) ?_ ?_)
      · rw [List.append_assoc]
        exact walk_of_store hu
      · rw [store_store hu, List.append_assoc]
        exact hstore

theorem fills_entries {key value : String} (front entries : List (Value × Value))
    (hx : walk place.keys v = .ok (.map (front ++ entries)))
    (hstore : store (.map (front ++ (writeEntries f entries).1)) place.keys v = .ok v') :
    ReflTransGen (Fills table (.map place key value body)) v v' := by
  induction entries generalizing front v with
  | nil =>
    rw [writeEntries, store_of_walk hx] at hstore
    cases hstore
    exact .refl
  | cons e entries ih =>
    obtain ⟨k, x⟩ := e
    obtain ⟨u, hu⟩ := exists_store_of_walk (.map (front ++ (k, kept x (f x).value) :: entries)) hx
    have hfirst : ReflTransGen (Fills table (.map place key value body)) v u :=
      fills_kept hbody (fun y => .map (front ++ (k, y) :: entries)) .entry hx hu
    rw [writeEntries] at hstore
    cases hkey : Primitive.writeString k with
    | error e =>
      simp only [hkey, store_of_walk hx] at hstore
      cases hstore
      exact .refl
    | ok bytes =>
      simp only [hkey] at hstore
      cases hresult : (f x).result with
      | error e =>
        simp only [hresult] at hstore
        cases hu.symm.trans hstore
        exact hfirst
      | ok effect =>
        simp only [hresult] at hstore
        refine hfirst.trans (ih (front ++ [(k, kept x (f x).value)]) ?_ ?_)
        · rw [List.append_assoc]
          exact walk_of_store hu
        · rw [store_store hu, List.append_assoc]
          exact hstore

end Steps

variable {s : WriteScope} {calls : Bool}

theorem fills_inside (h : ∀ x u, walk path v = .ok x → x.isNull = false → store (f x).value path v = .ok u →
      ReflTransGen (Fills table e) v u) : ReflTransGen (Fills table e) v (inside path f v).value := by
  unfold inside
  cases hx : walk path v with
  | error e => exact .refl
  | ok x =>
    obtain ⟨u, hu⟩ := exists_store_of_walk (kept x (f x).value) hx
    simp only [hu]
    unfold kept at hu
    split_ifs at hu with hnull
    · rw [store_of_walk hx] at hu
      cases hu
      exact .refl
    · exact h x u hx (Bool.not_eq_true _ ▸ hnull) hu

theorem fills_only (f : Value → Except CodecError (List UInt8)) (v : Value) :
    ReflTransGen (Fills table e) v (inside path (only f) v).value := by
  rw [inside_of_still fun _ => rfl]

theorem fills_array {item : String} (hbody : ∀ x, x.isNull = false → ReflTransGen (Fills table body) x (f x).value)
    (v : Value) : ReflTransGen (Fills table (.array place item body)) v (inside place.keys (writeArray f) v).value := by
  refine fills_inside fun x u hx _ hu => ?_
  unfold writeArray at hu
  cases hitems : x.elements? with
  | none =>
    simp only [hitems, store_of_walk hx] at hu
    cases hu
    exact .refl
  | some items =>
    simp only [hitems] at hu
    cases x with
    | list _ =>
      cases hitems
      exact fills_items hbody (.inl rfl) [] items hx hu
    | tuple _ =>
      cases hitems
      exact fills_items hbody (.inr rfl) [] items hx hu
    | _ =>
      simp only [replaceElements, store_of_walk hx] at hu
      cases hu
      exact .refl

theorem fills_map {key value : String} (hbody : ∀ x, x.isNull = false → ReflTransGen (Fills table body) x (f x).value)
    (v : Value) :
    ReflTransGen (Fills table (.map place key value body)) v (inside place.keys (writeMap f) v).value := by
  refine fills_inside fun x u hx _ hu => ?_
  cases x with
  | map entries => exact fills_entries hbody [] entries hx hu
  | _ =>
    simp only [writeMap, store_of_walk hx] at hu
    cases hu
    exact .refl

theorem fills_fill {default : Json} {next : Encoder}
    (h : fill place.keys ((Default.value? default).getD .null) v = .ok v') (hnull : v.isNull = false) :
    ReflTransGen (Fills table (.filled place default next)) v v' := by
  obtain ⟨o, ho⟩ := exists_glance_of_fill h
  rw [fill_of_glance _ ho] at h
  split_ifs at h with hempty
  · rcases List.eq_nil_or_concat place.keys with hnil | ⟨parent, key, hkeys⟩
    · rw [hnil] at ho
      cases ho
      cases hnull.symm.trans hempty
    · rw [List.concat_eq_append] at hkeys
      rw [hkeys] at ho h
      rw [glance_concat] at ho
      split at ho
      next entries hrecord =>
        cases ho
        exact .single (.here hkeys hrecord hempty h)
      next => cases ho
  · cases h
    exact .refl

theorem writeBranch_value (index : Nat) (f : Value → Written) (v : Value) :
    (writeBranch index f v).value = v ∨ (writeBranch index f v).value = (f v).value := by
  unfold writeBranch Written.andThen
  cases (Varint.encode index).map Effect.put with
  | error e => exact .inl rfl
  | ok front => exact .inr rfl

theorem fills_pair {items : List Value}
    (htagged : ∀ b ∈ branches, ∀ x, x.isNull = false → ReflTransGen (Fills table b.tagged) x (run s b.tagged x).value)
    (hx : walk subject.keys v = .ok (.tuple items))
    (hstore : store (writePair s tag (fun t payload => runTagged s t branches payload) items).value subject.keys v =
      .ok v') : ReflTransGen (Fills table (.union subject tag data branches)) v v' := by
  have hsame : ∀ {w}, w = .tuple items → store w subject.keys v = .ok v' →
      ReflTransGen (Fills table (.union subject tag data branches)) v v' := by
    rintro _ rfl hstore
    rw [store_of_walk hx] at hstore
    cases hstore
    exact .refl
  unfold writePair at hstore
  split at hstore
  next t payload =>
    split_ifs at hstore
    · simp only [runTagged_eq] at hstore
      cases hb : labelled t branches with
      | none =>
        simp only [hb, kept_self] at hstore
        exact hsame rfl hstore
      | some b =>
        simp only [hb] at hstore
        rcases writeBranch_value b.index (fun x => run s b.tagged x) payload with heq | hvalue
        · exact hsame (by simp only [heq, kept_self]) hstore
        · simp only [hvalue] at hstore
          exact fills_kept (htagged b (List.mem_of_find?_eq_some hb)) (fun y => .tuple [t, y])
            (fun hx h hstore => .tagged hx hb h hstore) hx hstore
    · exact hsame rfl hstore
  next => exact hsame rfl hstore

theorem fills_plain {b : Branch Encoder} (hchosen : Chosen subject v branches b) (hx : walk subject.keys v = .ok x)
    (hnull : x.isNull = false) (h : ReflTransGen (Fills table b.plain) v v') :
    ReflTransGen (Fills table (.union subject tag data branches)) v v' := by
  induction h with
  | refl => exact .refl
  | tail hsteps hstep ih =>
    obtain ⟨x', hx', hkind⟩ := grows_of_fills hsteps subject.keys x hx
    refine ih.tail (.plain (hchosen.of_kind hx hx' ?_) hstep)
    refine eq_or_sameKind_of_hull (hkind.resolve_left (by simp [hnull])) ?_
    exact fun items hitems => hchosen.untagged items (hitems ▸ Subject.look_of_walk hx)

theorem fills_union
    (hsteady : Steady calls s.call)
    (htagged : ∀ b ∈ branches, ∀ x, x.isNull = false → ReflTransGen (Fills table b.tagged) x (run s b.tagged x).value)
    (hplain : ∀ b ∈ branches, ∀ x, x.isNull = false → ReflTransGen (Fills table b.plain) x (run s b.plain x).value)
    (hnothing : ∀ b ∈ branches, b.guard.takesNothing = true → b.plain.alters calls = []) (hv : v.isNull = false) :
    ReflTransGen (Fills table (.union subject tag data branches)) v
      (run s (.union subject tag data branches) v).value := by
  cases hlook : subject.look v with
  | error e =>
    rw [run, hlook]
  | ok x =>
    by_cases htuple : ∃ items, x = .tuple items
    · obtain ⟨items, rfl⟩ := htuple
      have hx := Subject.walk_of_look hlook rfl
      rw [run_union_of_tuple hlook]
      obtain ⟨u, hu⟩ :=
        exists_store_of_walk (writePair s tag (fun t payload => runTagged s t branches payload) items).value hx
      simp only [hu]
      exact fills_pair htagged hx hu
    · rw [not_exists] at htuple
      rw [run_union_of_ne_tuple hlook htuple, runPlain_eq]
      split
      next => exact .refl
      next => exact .refl
      next b hchoice =>
        have hb := mem_of_choice hchoice
        have hchosen : Chosen subject v branches b :=
          ⟨fun items hitems => htuple items (Except.ok.inj (hlook.symm.trans hitems)), hchoice⟩
        rcases writeBranch_value b.index (fun x => run s b.plain x) v with hsame | hvalue
        · rw [hsame]
        rw [hvalue]
        cases hnull : x.isNull with
        | true =>
          obtain ⟨o, ho, hx⟩ := Subject.exists_glance_of_look hlook
          have htakes := Guard.takesNothing_of_passes ho (hx ▸ hnull) (passes_of_choice hchoice)
          rw [run_of_alters_nil hsteady (hnothing b hb htakes)]
        | false => exact fills_plain hchosen (Subject.walk_of_look hlook hnull) hnull (hplain b hb v hv)

/-- Functions that fill in what their writers do. -/
def CallsFill (table : List (String × Routine)) (call : String → Value → Written) : Prop :=
  ∀ name x, x.isNull = false → (call name x).value = x ∨
    ∃ r, Routine.function? table name = some r ∧ ReflTransGen (Fills table r.writer) x (call name x).value

theorem parts_fills (hsteady : Steady calls s.call) {es parts : List Encoder}
    (h : ∀ e ∈ es, ∀ v : Value, v.isNull = false → ReflTransGen (Fills table e) v (run s e v).value) (hes : es ⊆ parts)
    (v : Value) (hv : v.isNull = false) : ReflTransGen (Fills table (.fields parts)) v (runParts s es v).value := by
  induction es generalizing v with
  | nil => rw [runParts]
  | cons e es ih =>
    rw [List.forall_mem_cons] at h
    obtain ⟨he, hes⟩ := List.cons_subset.1 hes
    have hpart : Fills table e ≤ Fills table (.fields parts) := fun _ _ => .part he
    have hfirst := ReflTransGen.mono hpart _ _ (h.1 v hv)
    have hnull : (run s e v).value.isNull = false := by
      rw [← isNull_hull, (run_grows hsteady.grows e v).hull_eq hv, isNull_hull, hv]
    rw [runParts, Written.andThen]
    cases (run s e v).result with
    | error e => exact hfirst
    | ok front => exact hfirst.trans (ih h.2 hes _ hnull)

/-- Whatever code does to a value is putting defaults in, one after the other. -/
theorem run_fills (hsteady : Steady calls s.call) (hcall : CallsFill table s.call) (e : Encoder)
    (ho : e.isOrderly calls = true) (v : Value) (hv : v.isNull = false) :
    ReflTransGen (Fills table e) v (run s e v).value := by
  induction e using induct generalizing v with
  | null => rw [run]
  | primitive | logical | enum =>
    rw [run]
    exact fills_only _ v
  | fields parts ih =>
    rw [run]
    exact parts_fills hsteady (fun e he => ih e he (isOrderly_of_part ho he)) (List.Subset.refl parts) v hv
  | filled place default next ih =>
    rw [run]
    cases hfill : fill place.keys ((Default.value? default).getD .null) v with
    | error e => exact .refl
    | ok u =>
      have hgrows := (Altered.of_fill (List.mem_singleton_self _) hfill).grows
      have hu : u.isNull = false := by
        rw [← isNull_hull, hgrows.hull_eq hv, isNull_hull, hv]
      have hnext : Fills table next ≤ Fills table (.filled place default next) := fun _ _ => .next
      exact (fills_fill hfill hv).trans (ReflTransGen.mono hnext _ _ (ih ho u hu))
  | array place item body ih =>
    rw [run]
    exact fills_array (ih ho) v
  | map place key value body ih =>
    rw [run]
    exact fills_map (ih ho) v
  | union subject tag data branches ihtagged ihplain =>
    exact fills_union hsteady (fun b hb => ihtagged b hb (isOrderly_of_mem ho hb).1)
      (fun b hb => ihplain b hb (isOrderly_of_mem ho hb).2.1) (fun b hb => (isOrderly_of_mem ho hb).2.2) hv
  | recur name place =>
    rw [run]
    refine fills_inside fun x u hx hnull hu => ?_
    rcases hcall name x hnull with hsame | ⟨r, hr, hsteps⟩
    · simp only [Written.called, hsame, store_of_walk hx] at hu
      cases hu
      exact .refl
    · exact fills_lift id (.call hr) hsteps hx hu

end Code.Encoder

theorem Code.Routine.writeCall_fills {table : List (String × Routine)}
    (h : ∀ f ∈ table, f.2.writer.isOrderly (functionsAlter table) = true) (depth : Nat) :
    Encoder.CallsFill table (writeCall table depth) := by
  induction depth with
  | zero => exact fun _ _ _ => .inl rfl
  | succ depth ih =>
    intro name x hx
    rw [writeCall]
    cases hr : function? table name with
    | none => exact .inl rfl
    | some r => exact .inr ⟨r, rfl, Encoder.run_fills (writeCall_steady h depth) ih r.writer
        (h _ (mem_of_function? hr)) x hx⟩

/-! ### Depth -/

namespace Code.Encoder

variable {table : List (String × Routine)} {e : Encoder} {v v' : Value}

theorem Fills.depth_le (h : Fills table e v v') : v.depth ≤ v'.depth := by
  induction h with
  | here hplace hrecord hnull hstore =>
    refine depth_le_of_store hstore fun x hx => ?_
    rw [walk_append hrecord] at hx
    obtain ⟨_, w, heq, hw, hwx⟩ := walk_cons_eq_ok.1 hx
    cases heq
    cases hwx
    rw [hw, Option.getD_some] at hnull
    rw [eq_null_of_isNull hnull]
    exact Nat.zero_le _
  | next _ ih => exact ih
  | part _ _ ih => exact ih
  | item wrap hwrap hx _ hstore ih =>
    refine Swap.depth_le ⟨hx, hstore⟩ ?_
    rcases hwrap with rfl | rfl <;> exact Nat.succ_le_succ (depthItems_replace ih _ _)
  | entry hx _ hstore ih => exact Swap.depth_le ⟨hx, hstore⟩ (Nat.succ_le_succ (depthEntries_replace ih _ _ _))
  | plain _ _ ih => exact ih
  | tagged hx _ _ hstore ih =>
    refine Swap.depth_le ⟨hx, hstore⟩ ?_
    simp only [depth, depthItems]
    omega
  | call _ hx _ hstore ih => exact Swap.depth_le ⟨hx, hstore⟩ ih

theorem depth_le_of_fills (h : ReflTransGen (Fills table e) v v') : v.depth ≤ v'.depth := by
  induction h with
  | refl => exact le_rfl
  | tail _ hstep ih => exact ih.trans hstep.depth_le

end Code.Encoder

namespace Codec

def isOrderly (c : Codec) : Bool :=
  let calls := Routine.functionsAlter c.routine.functions
  c.routine.writer.isOrderly calls && c.routine.functions.all fun f => f.2.writer.isOrderly calls

theorem lasts_of_depth_le (c : Codec) {v v' : Value} (h : v.depth ≤ v'.depth) (x : Value) :
    (c.routine.writer.run (c.scope (c.routine.writeBound v)) x).Lasts
      (c.routine.writer.run (c.scope (c.routine.writeBound v')) x) :=
  Encoder.run_lasts (Routine.writeCall_lasts c.routine.functions (writeBound_mono c.routine h)) c.routine.writer x

/-- Serializing does nothing to a value but put defaults in. -/
theorem fills_of_serialize {codec : Codec} (ho : codec.isOrderly = true) (v : Value) :
    ReflTransGen (Encoder.Fills codec.routine.functions codec.routine.writer) v (codec.serialize v).value := by
  obtain ⟨hwriter, hfunctions⟩ := Bool.and_eq_true_iff.1 ho
  have hfunctions := List.all_eq_true.1 hfunctions
  change ReflTransGen _ v (kept v _)
  unfold kept
  split_ifs with hnull
  · exact .refl
  · exact Encoder.run_fills (Routine.writeCall_steady hfunctions _) (Routine.writeCall_fills hfunctions _)
      codec.routine.writer hwriter v (Bool.not_eq_true _ ▸ hnull)

/-- Serializing puts defaults in and does nothing else to a value. Serializing what is left gives the same bytes and
changes nothing any more. -/
theorem serialize_again {codec : Codec} (ho : codec.isOrderly = true) {v : Value} {bytes : List UInt8}
    (h : (codec.serialize v).result = .ok bytes) :
    ReflTransGen (Encoder.Fills codec.routine.functions codec.routine.writer) v (codec.serialize v).value ∧
      codec.serialize (codec.serialize v).value = ⟨(codec.serialize v).value, .ok bytes⟩ := by
  have hfills := fills_of_serialize ho v
  refine ⟨hfills, ?_⟩
  obtain ⟨hwriter, hfunctions⟩ := Bool.and_eq_true_iff.1 ho
  have hsettles : Settles (codec.routine.writer.run (codec.scope (codec.routine.writeBound v))) :=
    (Encoder.run_again (Routine.writeCall_steady (List.all_eq_true.1 hfunctions) _) codec.routine.writer
      hwriter).settles
  obtain ⟨eff, heff, rfl⟩ := except_map_eq_ok.1 h
  set u := (codec.serialize v).value with hu
  have hresult : (codec.routine.writer.run (codec.scope (codec.routine.writeBound v)) u).result = .ok eff :=
    hsettles.result_kept heff
  have hvalue : kept u (codec.routine.writer.run (codec.scope (codec.routine.writeBound v)) u).value = u :=
    hsettles.kept_kept heff
  -- What is left is no less deep than the value, so that calls are followed at least as far.
  have hlasts := codec.lasts_of_depth_le (Encoder.depth_le_of_fills hfills) u
  have hresult' := (hlasts.result_eq (by rw [hresult]; exact nofun)).trans hresult
  change Serialized.mk (kept u (codec.routine.writer.run (codec.scope (codec.routine.writeBound u)) u).value)
    ((codec.routine.writer.run (codec.scope (codec.routine.writeBound u)) u).result.map _) = _
  rw [hresult', hlasts.value_eq eff hresult, hvalue]
  rfl

def crateSchemata : Schemata :=
  [("shop.crate", .record "shop.crate" [
    .obj [("name", .str "count"), ("type", .str "int"), ("default", .int 1)],
    .obj [("name", .str "labels"), ("type", .obj [("type", .str "array"),
      ("items", .record "shop.label" [.obj [("name", .str "size"), ("type", .str "int"), ("default", .int 3)]])]),
      ("default", .arr [.obj []])],
    .field "inner" (.arr [.str "null", .str "shop.crate"])])]

def crate : Value :=
  .dict [("inner", .dict [("count", .null), ("labels", .list [.dict [], .dict [("size", .int 4)]])])]

/-- Defaults are put into both crates, into a label, and into the label of a default. -/
theorem crate_serialize_again : ∃ codec, build crateSchemata "shop.crate" = .ok codec ∧ codec.isOrderly = true ∧
    (codec.serialize crate).result = .ok [2, 2, 6, 0, 2, 2, 4, 6, 8, 0, 0] ∧
    codec.serialize (codec.serialize crate).value =
      ⟨(codec.serialize crate).value, .ok [2, 2, 6, 0, 2, 2, 4, 6, 8, 0, 0]⟩ := by
  obtain ⟨codec, hbuild, ho, hwritten⟩ := exists_codec crateSchemata "shop.crate" (fun codec =>
    codec.isOrderly = true ∧
      (codec.serialize crate).result.toOption = some [2, 2, 6, 0, 2, 2, 4, 6, 8, 0, 0]) (by decide +kernel)
  have hwritten := eq_ok_of_toOption hwritten
  exact ⟨codec, hbuild, ho, hwritten, (serialize_again ho hwritten).2⟩

def plantSchemata : Schemata :=
  [("garden.node", .record "garden.node" [
    .obj [("name", .str "age"), ("type", .str "int"), ("default", .int 5)],
    .field "next" (.arr [.str "null", .str "garden.node"])]),
   ("garden.pot", .record "garden.pot" [
    .field "age" (.arr [.str "null", .str "int"]),
    .field "plant" (.str "garden.node")])]

/-- The code of a field of a recursive type works at the record itself. It puts a default in where the first field has
found nothing. -/
theorem plant_age_written_again : ∃ codec, build plantSchemata "garden.pot" = .ok codec ∧
    (codec.serialize (.dict [])).result = .ok [0, 10, 0] ∧
    (codec.serialize (codec.serialize (.dict [])).value).result = .ok [2, 10, 10, 0] := by
  obtain ⟨codec, hbuild, hfirst, hsecond⟩ := exists_codec plantSchemata "garden.pot" (fun codec =>
    (codec.serialize (.dict [])).result.toOption = some [0, 10, 0] ∧
      (codec.serialize (codec.serialize (.dict [])).value).result.toOption = some [2, 10, 10, 0]) (by decide +kernel)
  exact ⟨codec, hbuild, eq_ok_of_toOption hfirst, eq_ok_of_toOption hsecond⟩

end Codec

end AvroCodec
