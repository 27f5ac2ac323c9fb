import AvroCodec.Proofs.Frame
import AvroCodec.Proofs.Legible

/-!
# Copies of code

The code of a union's branch is generated twice: once for a value with a tag, which is in a variable of its
own, and once for a value without one, at its place. `Encoder.Copies` relates code to such a copy of it,
which works at another place and has other variables.

Code and its copy do the same to the values at their places.
-/

namespace AvroCodec

open Code Written Place

namespace Value

theorem exists_store_of_walk {path : List String} {v x : Value} (y : Value) (h : walk path v = .ok x) :
    ∃ u, store y path v = .ok u :=
  exists_store_of_store y (store_of_walk h)

theorem store_append_of_walk {path ks : List String} {v x : Value} (z : Value) (h : walk path v = .ok x) :
    store z (path ++ ks) v = (store z ks x).bind fun y => store y path v := by
  induction path generalizing v with
  | nil =>
    cases h
    rw [List.nil_append]
    cases store z ks x <;> rfl
  | cons key path ih =>
    obtain ⟨entries, w, rfl, hw, hx⟩ := walk_cons_eq_ok.1 h
    rw [List.cons_append, store_cons_of_entry hw, ih hx]
    cases store z ks x with
    | error e => rfl
    | ok y => exact (store_cons_of_entry hw).symm

end Value

/-- What is written from the end of a path, for the value that the path begins at. -/
def Written.within (path : List String) (w : Written) (v : Value) : Written :=
  ⟨((Value.store w.value path v).toOption).getD v, w.result⟩

namespace Written

open Value

variable {path ks : List String} {v x u : Value}

theorem within_eq {w : Written} (h : store w.value path v = .ok u) : w.within path v = ⟨u, w.result⟩ := by
  rw [within, h]
  rfl

theorem within_self (h : walk path v = .ok x) (result : Except CodecError Effect) :
    within path ⟨x, result⟩ v = ⟨v, result⟩ :=
  within_eq (store_of_walk h)

theorem within_append (w : Written) (h : walk path v = .ok x) (hx : walk ks x = .ok u) :
    w.within (path ++ ks) v = (w.within ks x).within path v := by
  obtain ⟨y, hy⟩ := exists_store_of_walk w.value hx
  obtain ⟨z, hz⟩ := exists_store_of_walk y h
  have hall : store w.value (path ++ ks) v = .ok z := by
    rw [store_append_of_walk _ h, hy]
    exact hz
  rw [within_eq hall, within_eq hy, within_eq hz]

theorem within_of_store {z : Value} (w : Written) (hx : walk path v = .ok x) (h : store u path v = .ok z) :
    w.within path z = w.within path v := by
  obtain ⟨y, hy⟩ := exists_store_of_walk w.value hx
  rw [within_eq hy]
  refine within_eq ?_
  rw [store_store h, hy]

theorem andThen_within {w r : Written} {f : Value → Written} (hu : store w.value path v = .ok u)
    (hf : f u = r.within path v) : (w.within path v).andThen f = (w.andThen fun _ => r).within path v := by
  rw [within_eq hu]
  unfold andThen
  cases hresult : w.result with
  | error e => exact ((within_eq hu).trans (by rw [hresult])).symm
  | ok front =>
    change (⟨(f u).value, (f u).result.map front.andThen⟩ : Written) = _
    rw [hf]
    rfl

end Written

namespace Code

open Value

def pathKeys (path : List Subscript) : List String := (mk "" path).keys

namespace Place

def reach (p : Place) (path : List Subscript) : Place := { p with path := p.path ++ path }

theorem keys_reach (p : Place) (path : List Subscript) : (p.reach path).keys = p.keys ++ pathKeys path :=
  List.map_append

theorem reach_nil (p : Place) : p.reach [] = p := by
  rw [reach, List.append_nil]

theorem reach_reach (p : Place) (path path' : List Subscript) :
    (p.reach path).reach path' = p.reach (path ++ path') := by
  simp only [reach, List.append_assoc]

end Place

theorem pathKeys_append (path path' : List Subscript) : pathKeys (path ++ path') = pathKeys path ++ pathKeys path' :=
  keys_reach ⟨"", path⟩ path'

/-- The subjects of a union and its copy, with the way to their values from the places of the code. -/
inductive Subject.Copies (p q : Place) : List Subscript → Subject → Subject → Prop
  | value (path : List Subscript) : Copies p q path (.value (p.reach path)) (.value (q.reach path))
  | member (path : List Subscript) (key : String) :
      Copies p q (path ++ [.member key]) (.member (p.reach path) key) (.member (q.reach path) key)

namespace Encoder

/-- Code at a place, and a copy of it at another. Of the variables for tags the relation `T` holds. -/
inductive Copies (T : String → String → Prop) : Place → Place → Encoder → Encoder → Prop
  | null {p q : Place} : Copies T p q .null .null
  | primitive {p q : Place} (type : String) (path : List Subscript) :
      Copies T p q (.primitive type (p.reach path)) (.primitive type (q.reach path))
  | logical {p q : Place} (type : Logical) (path : List Subscript) :
      Copies T p q (.logical type (p.reach path)) (.logical type (q.reach path))
  | fields {p q : Place} (parts : List (Encoder × Encoder)) (h : ∀ e ∈ parts, Copies T p q e.1 e.2) :
      Copies T p q (.fields (parts.map (·.1))) (.fields (parts.map (·.2)))
  | filled {p q : Place} (path : List Subscript) (default : Json) {a b : Encoder} (h : Copies T p q a b) :
      Copies T p q (.filled (p.reach path) default a) (.filled (q.reach path) default b)
  | array {p q : Place} (path : List Subscript) {x y : String} {a b : Encoder}
      (h : Copies T (.of x) (.of y) a b) :
      Copies T p q (.array (p.reach path) x a) (.array (q.reach path) y b)
  | enum {p q : Place} (path : List Subscript) (symbols : Json) :
      Copies T p q (.enum (p.reach path) symbols) (.enum (q.reach path) symbols)
  | map {p q : Place} (path : List Subscript) {k l x y : String} {a b : Encoder}
      (h : Copies T (.of x) (.of y) a b) :
      Copies T p q (.map (p.reach path) k x a) (.map (q.reach path) l y b)
  | union {p q : Place} {path : List Subscript} {s s' : Subject} {t t' x y : String}
      (branches : List (Branch Encoder × Branch Encoder)) (hsubject : Subject.Copies p q path s s') (htag : T t t')
      (hbranch : ∀ b ∈ branches, b.1.tag = b.2.tag ∧ b.1.index = b.2.index ∧ b.1.guard = b.2.guard)
      (hplain : ∀ b ∈ branches, Copies T p q b.1.plain b.2.plain)
      (htagged : ∀ b ∈ branches, Copies T (.of x) (.of y) b.1.tagged b.2.tagged)
      (hown : ∀ b ∈ branches, Copies T (p.reach path) (.of x) b.1.plain b.1.tagged) :
      Copies T p q (.union s t x (branches.map (·.1))) (.union s' t' y (branches.map (·.2)))
  | recur {p q : Place} (name : String) (path : List Subscript) :
      Copies T p q (.recur name (p.reach path)) (.recur name (q.reach path))

/-! ### Work at a place -/

section Place

variable {path ks : List String} {v x : Value}

theorem inside_append (f : Value → Written) (h : walk path v = .ok x) :
    inside (path ++ ks) f v = (inside ks f x).within path v := by
  unfold inside
  rw [walk_append h]
  cases hu : walk ks x with
  | error e => exact (within_self h _).symm
  | ok u => exact within_append ⟨kept u (f u).value, (f u).result⟩ h hu

theorem fill_concat (parent : List String) (key : String) (default : Value) {entries : List (Value × Value)}
    (h : walk parent v = .ok (.map entries)) : fill (parent ++ [key]) default v =
      if ((find? key entries).getD .null).isNull then store default (parent ++ [key]) v else .ok v := by
  simp only [fill, List.getLast?_concat, List.dropLast_concat, h]
  rfl

/-- Putting a default in at the end of two paths. -/
theorem fill_append (default : Value) (h : walk path v = .ok x) :
    fill (path ++ ks) default v = (fill ks default x).bind fun y => store y path v := by
  rcases List.eq_nil_or_concat ks with rfl | ⟨parent, key, rfl⟩
  · rw [List.append_nil]
    rcases List.eq_nil_or_concat path with rfl | ⟨parent, key, rfl⟩
    · cases h
      rfl
    · rw [List.concat_eq_append] at h ⊢
      obtain ⟨entries, hentries, hx⟩ := walk_concat_eq_ok h
      rw [fill_concat parent key default hentries, hx, Option.getD_some]
      change _ = store (if x.isNull then default else x) (parent ++ [key]) v
      split_ifs
      · rfl
      · exact (store_of_walk h).symm
  · rw [List.concat_eq_append]
    have hparent : walk (path ++ parent) v = walk parent x := walk_append h
    cases hx : walk parent x with
    | error e =>
      simp only [fill, ← List.append_assoc, List.getLast?_concat, List.dropLast_concat, hparent, hx]
      rfl
    | ok u =>
      cases u with
      | map entries =>
        rw [← List.append_assoc, fill_concat _ key default (hparent.trans hx), fill_concat _ key default hx]
        split_ifs
        · rw [List.append_assoc]
          exact store_append_of_walk default h
        · exact (store_of_walk h).symm
      | _ =>
        simp only [fill, ← List.append_assoc, List.getLast?_concat, List.dropLast_concat, hparent, hx]
        rfl

end Place

end Encoder

/-! ### Subjects of unions -/

theorem Subject.walk_of_look {s : Subject} {v u : Value} (h : s.look v = .ok u) (hu : u.isNull = false) :
    walk s.keys v = .ok u := by
  cases s with
  | value place => exact h
  | member place key =>
    simp only [look, except_bind_eq_ok] at h
    obtain ⟨y, hy, h⟩ := h
    cases y with
    | map entries =>
      rw [keys, walk_append hy, walk]
      cases hfind : find? (literalText key) entries with
      | none =>
        simp only [hfind] at h
        cases h
        cases hu
      | some w =>
        simp only [hfind] at h
        cases h
        rfl
    | _ => cases h

namespace Subject.Copies

variable {p q : Place} {path : List Subscript} {s s' : Subject} {v v' x : Value}

theorem keys_eq (h : Subject.Copies p q path s s') : s.keys = p.keys ++ pathKeys path := by
  cases h with
  | value => exact keys_reach p path
  | member path key =>
    rw [Subject.keys, keys_reach, List.append_assoc, pathKeys_append]
    rfl

theorem symm (h : Subject.Copies p q path s s') : Subject.Copies q p path s' s := by
  cases h with
  | value => exact .value path
  | member path key => exact .member path key

theorem look_eq (h : Subject.Copies p q path s s') (hv : walk p.keys v = .ok x) (hv' : walk q.keys v' = .ok x) :
    s.look v = s'.look v' := by
  cases h with
  | value => rw [look, look, keys_reach, keys_reach, walk_append hv, walk_append hv']
  | member path key => rw [look, look, keys_reach, keys_reach, walk_append hv, walk_append hv']

theorem walk_eq (h : Subject.Copies p q path s s') (hv : walk p.keys v = .ok x) (hv' : walk q.keys v' = .ok x) :
    walk s.keys v = walk s'.keys v' := by
  rw [h.keys_eq, h.symm.keys_eq, walk_append hv, walk_append hv']

theorem passes_eq (h : Subject.Copies p q path s s') (hv : walk p.keys v = .ok x) (hv' : walk q.keys v' = .ok x)
    (g : Guard) : g.passes s v = g.passes s' v' := by
  cases g with
  | isNull => rw [Guard.passes, Guard.passes, h.look_eq hv hv']
  | hasType name => rw [Guard.passes, Guard.passes, h.walk_eq hv hv']
  | isSymbol symbols => rw [Guard.passes, Guard.passes, h.walk_eq hv hv']
  | prepared type => rw [Guard.passes, Guard.passes, h.walk_eq hv hv']

end Subject.Copies

namespace Encoder

section Run

/-- What is asked of a relation `J` between two ways to write a value, and of the values `P`, for code and its copy
to be so related. The variables `T` for tags stand for each other. The code has defaults `D` and calls the
functions `C`. -/
structure Preserved (P : Value → Prop) (J : Value → Written → Written → Prop) (T : String → String → Prop)
    (D : Json → Prop) (C : String → Prop) (s s' : WriteScope) : Prop where
  eq {x w w'} : J x w w' → w' = w
  value {x w w'} : J x w w' → P w.value
  none {x} : P x → J x ⟨x, .ok .none⟩ ⟨x, .ok .none⟩
  error {x} (e : CodecError) : P x → J x ⟨x, .error e⟩ ⟨x, .error e⟩
  put {x} (index : Nat) : P x →
    J x ⟨x, (Varint.encode index).map Effect.put⟩ ⟨x, (Varint.encode index).map Effect.put⟩
  andThen {x w w' f f'} : J x w w' → J w.value (f w.value) (f' w.value) → J x (w.andThen f) (w'.andThen f')
  fill {path d x y} : D d → P x → Encoder.fill path ((Default.value? d).getD .null) x = .ok y →
    P y ∧ ∀ {w w'}, J y w w' → J x w w'
  only (f : Value → Except CodecError (List UInt8)) {x} : P x → J x (Encoder.only f x) (Encoder.only f x)
  inside {f f'} (path : List String) {x} : (∀ x, P x → J x (f x) (f' x)) → P x →
    J x (Encoder.inside path f x) (Encoder.inside path f' x)
  array {f f'} : (∀ x, P x → J x (f x) (f' x)) → ∀ x, P x → J x (writeArray f x) (writeArray f' x)
  map {f f'} : (∀ x, P x → J x (f x) (f' x)) → ∀ x, P x → J x (writeMap f x) (writeMap f' x)
  pair {t t' g g' path x items} : T t t' → (∀ tag x, P x → J x (g tag x) (g' tag x)) → P x →
    walk path x = .ok (.tuple items) →
      J x ((writePair s t g items).within path x) ((writePair s' t' g' items).within path x)
  call {name} : C name → ∀ x, P x → J x (called (s.call name x)) (called (s'.call name x))

variable {T : String → String → Prop} {s s' : WriteScope} {P : Value → Prop} {J : Value → Written → Written → Prop}
  {D : Json → Prop} {C : String → Prop} {a b : Encoder} {branches : List (Branch Encoder × Branch Encoder)}
  {p q : Place} {v v' x : Value}

theorem writeBranch_within {path : List String} {w : Written} {f : Value → Written} (index : Nat)
    (hv : walk path v = .ok x) (h : f v = w.within path v) :
    writeBranch index f v = (andThen ⟨x, (Varint.encode index).map Effect.put⟩ fun _ => w).within path v := by
  unfold writeBranch andThen
  cases Varint.encode index with
  | error e => exact (within_self hv _).symm
  | ok bytes =>
    change (⟨(f v).value, (f v).result.map _⟩ : Written) = _
    rw [h]
    rfl

theorem related_of_within {y z : String} (h : ∀ {v : Value}, P v → ∃ w : Written,
    run s a v = w.within (of y).keys v ∧ run s' b v = w.within (of z).keys v ∧ J v w w) :
    ∀ v, P v → J v (run s a v) (run s' b v) := by
  intro v hv
  obtain ⟨w, hw, hw', hww⟩ := h hv
  rw [hw, hw']
  exact hww

variable (hJ : Preserved P J T D C s s')
include hJ

theorem Preserved.refl {w w' : Written} (h : J x w w') : J x w w := by
  obtain rfl := hJ.eq h
  exact h

theorem Preserved.branch {f f' : Value → Written} (index : Nat) (h : ∀ x, P x → J x (f x) (f' x)) (hx : P x) :
    J x (writeBranch index f x) (writeBranch index f' x) :=
  hJ.andThen (hJ.put index hx) (h x hx)

theorem runTagged_copied
    (hbranch : ∀ b ∈ branches, b.1.tag = b.2.tag ∧ b.1.index = b.2.index ∧ b.1.guard = b.2.guard)
    (h : ∀ b ∈ branches, ∀ x, P x → J x (run s b.1.tagged x) (run s' b.2.tagged x)) (tag : Value) (hx : P x) :
    J x (runTagged s tag (branches.map (·.1)) x) (runTagged s' tag (branches.map (·.2)) x) := by
  induction branches with
  | nil => exact hJ.none hx
  | cons b branches ih =>
    obtain ⟨htag, hindex, -⟩ := hbranch b List.mem_cons_self
    rw [List.map_cons, List.map_cons, runTagged, runTagged, htag, hindex]
    split_ifs
    · exact hJ.branch _ (h b List.mem_cons_self) hx
    · exact ih (fun b hb => hbranch b (List.mem_cons_of_mem _ hb)) fun b hb => h b (List.mem_cons_of_mem _ hb)

theorem runPlain_within {path : List Subscript} {subject subject' : Subject}
    (hsubject : Subject.Copies p q path subject subject')
    (hbranch : ∀ b ∈ branches, b.1.tag = b.2.tag ∧ b.1.index = b.2.index ∧ b.1.guard = b.2.guard)
    (hv : walk p.keys v = .ok x) (hv' : walk q.keys v' = .ok x) (hx : P x)
    (h : ∀ b ∈ branches, ∃ w : Written, run s b.1.plain v = w.within p.keys v ∧
      run s' b.2.plain v' = w.within q.keys v' ∧ J x w w) :
    ∃ w : Written, runPlain s subject (branches.map (·.1)) v = w.within p.keys v ∧
      runPlain s' subject' (branches.map (·.2)) v' = w.within q.keys v' ∧ J x w w := by
  induction branches with
  | nil => exact ⟨⟨x, .ok .none⟩, (within_self hv _).symm, (within_self hv' _).symm, hJ.none hx⟩
  | cons b branches ih =>
    obtain ⟨-, hindex, hguard⟩ := hbranch b List.mem_cons_self
    rw [List.map_cons, List.map_cons, runPlain, runPlain, hsubject.passes_eq hv hv', hguard, hindex]
    cases b.2.guard.passes subject' v' with
    | error e => exact ⟨⟨x, .error e⟩, (within_self hv _).symm, (within_self hv' _).symm, hJ.error e hx⟩
    | ok passes =>
      cases passes with
      | true =>
        obtain ⟨w, hw, hw', hww⟩ := h b List.mem_cons_self
        exact ⟨_, writeBranch_within b.2.index hv hw, writeBranch_within b.2.index hv' hw',
          hJ.andThen (hJ.put _ hx) hww⟩
      | false =>
        exact ih (fun b hb => hbranch b (List.mem_cons_of_mem _ hb)) fun b hb => h b (List.mem_cons_of_mem _ hb)

theorem runParts_within {parts : List (Encoder × Encoder)}
    (h : ∀ e ∈ parts, ∀ {v v' x : Value}, walk p.keys v = .ok x → walk q.keys v' = .ok x → P x →
      ∃ w : Written, run s e.1 v = w.within p.keys v ∧ run s' e.2 v' = w.within q.keys v' ∧ J x w w)
    (hv : walk p.keys v = .ok x) (hv' : walk q.keys v' = .ok x) (hx : P x) :
    ∃ w : Written, runParts s (parts.map (·.1)) v = w.within p.keys v ∧
      runParts s' (parts.map (·.2)) v' = w.within q.keys v' ∧ J x w w := by
  induction parts generalizing v v' x with
  | nil => exact ⟨⟨x, .ok .none⟩, (within_self hv _).symm, (within_self hv' _).symm, hJ.none hx⟩
  | cons e parts ih =>
    obtain ⟨w, hw, hw', hww⟩ := h e List.mem_cons_self hv hv' hx
    obtain ⟨u, hu⟩ := exists_store_of_walk w.value hv
    obtain ⟨u', hu'⟩ := exists_store_of_walk w.value hv'
    obtain ⟨r, hr, hr', hrr⟩ := ih (fun e he => h e (List.mem_cons_of_mem _ he)) (walk_of_store hu) (walk_of_store hu')
      (hJ.value hww)
    rw [within_of_store r hv hu] at hr
    rw [within_of_store r hv' hu'] at hr'
    refine ⟨w.andThen fun _ => r, ?_, ?_, hJ.andThen hww hrr⟩
    · rw [List.map_cons, runParts, hw]
      exact andThen_within hu hr
    · rw [List.map_cons, runParts, hw']
      exact andThen_within hu' hr'

theorem inside_within {f f' : Value → Written} (h : ∀ x, P x → J x (f x) (f' x)) (hv : walk p.keys v = .ok x)
    (hv' : walk q.keys v' = .ok x) (hx : P x) (path : List Subscript) : ∃ w : Written,
      inside (p.reach path).keys f v = w.within p.keys v ∧ inside (q.reach path).keys f' v' = w.within q.keys v' ∧
        J x w w := by
  have hinside := hJ.inside (pathKeys path) h hx
  rw [keys_reach, keys_reach, inside_append f hv, inside_append f' hv', hJ.eq hinside]
  exact ⟨_, rfl, rfl, hJ.refl hinside⟩

/-- Code and its copy do the same to the values at their places. -/
theorem Copies.exists_within (h : Copies T p q a b) (hdefaults : ∀ d ∈ a.defaults, D d)
    (hcalls : ∀ name ∈ a.calls, C name) (hv : walk p.keys v = .ok x) (hv' : walk q.keys v' = .ok x) (hx : P x) :
    ∃ w : Written, run s a v = w.within p.keys v ∧ run s' b v' = w.within q.keys v' ∧ J x w w := by
  induction h generalizing v v' x with
  | null => exact ⟨⟨x, .ok .none⟩, (within_self hv _).symm, (within_self hv' _).symm, hJ.none hx⟩
  | primitive type path => exact inside_within hJ (fun _ => hJ.only _) hv hv' hx path
  | logical type path => exact inside_within hJ (fun _ => hJ.only _) hv hv' hx path
  | enum path symbols => exact inside_within hJ (fun _ => hJ.only _) hv hv' hx path
  | fields parts _ ih =>
    refine runParts_within hJ (fun e he _ _ _ => ih e he (fun d hd => ?_) fun name hname => ?_) hv hv' hx
    · exact hdefaults d (mem_defaultsParts.2 ⟨e.1, List.mem_map_of_mem he, hd⟩)
    · exact hcalls name (mem_callsParts.2 ⟨e.1, List.mem_map_of_mem he, hname⟩)
  | @filled p q path default a b _ ih =>
    rw [run, run, keys_reach, keys_reach, fill_append _ hv, fill_append _ hv']
    cases hfill : fill (pathKeys path) ((Default.value? default).getD .null) x with
    | error e => exact ⟨⟨x, .error e⟩, (within_self hv _).symm, (within_self hv' _).symm, hJ.error e hx⟩
    | ok y =>
      obtain ⟨hy, hxy⟩ := hJ.fill (hdefaults default List.mem_cons_self) hx hfill
      obtain ⟨u, hu⟩ := exists_store_of_walk y hv
      obtain ⟨u', hu'⟩ := exists_store_of_walk y hv'
      obtain ⟨w, hw, hw', hww⟩ := ih (fun d hd => hdefaults d (List.mem_cons_of_mem _ hd)) hcalls (walk_of_store hu)
        (walk_of_store hu') hy
      refine ⟨w, ?_, ?_, hxy hww⟩
      · simp only [Except.bind, hu, hw, within_of_store w hv hu]
      · simp only [Except.bind, hu', hw', within_of_store w hv' hu']
  | array path _ ih =>
    rw [run, run]
    exact inside_within hJ (hJ.array (related_of_within (ih hdefaults hcalls rfl rfl))) hv hv' hx path
  | map path _ ih =>
    rw [run, run]
    exact inside_within hJ (hJ.map (related_of_within (ih hdefaults hcalls rfl rfl))) hv hv' hx path
  | @union p q path subject subject' t t' y z branches hsubject htag hbranch _ _ _ ihplain ihtagged _ =>
    have hplain := runPlain_within hJ hsubject hbranch hv hv' hx fun b hb => ihplain b hb
      (fun d hd => hdefaults d (mem_defaultsBranches.2 ⟨b.1, List.mem_map_of_mem hb, .inr hd⟩))
      (fun name hname => hcalls name (mem_callsBranches.2 ⟨b.1, List.mem_map_of_mem hb, .inr hname⟩)) hv hv' hx
    have htagged : ∀ b ∈ branches, ∀ x, P x → J x (run s b.1.tagged x) (run s' b.2.tagged x) := fun b hb =>
      related_of_within (ihtagged b hb
        (fun d hd => hdefaults d (mem_defaultsBranches.2 ⟨b.1, List.mem_map_of_mem hb, .inl hd⟩))
        (fun name hname => hcalls name (mem_callsBranches.2 ⟨b.1, List.mem_map_of_mem hb, .inl hname⟩)) rfl rfl)
    have hlook := hsubject.look_eq hv hv'
    rw [run, run, hlook]
    cases hu : subject'.look v' with
    | error e => exact ⟨⟨x, .error e⟩, (within_self hv _).symm, (within_self hv' _).symm, hJ.error e hx⟩
    | ok u =>
      cases u with
      | tuple items =>
        have hthere : walk (pathKeys path) x = .ok (.tuple items) := by
          rw [← walk_append hv, ← hsubject.keys_eq]
          exact Subject.walk_of_look (hlook.trans hu) rfl
        have hpair := hJ.pair htag (fun tag _ hx => runTagged_copied hJ hbranch htagged tag hx) hx hthere
        refine ⟨_, ?_, ?_, hJ.refl hpair⟩
        · rw [← within_append _ hv hthere, ← hsubject.keys_eq]
          rfl
        · rw [← hJ.eq hpair, ← within_append _ hv' hthere, ← hsubject.symm.keys_eq]
          rfl
      | _ => exact hplain
  | recur name path =>
    rw [run, run]
    exact inside_within hJ (hJ.call (hcalls name (List.mem_singleton_self name))) hv hv' hx path

omit hJ

theorem preserved_eq (hT : ∀ t t', T t t' → ∀ tag, isTag s t tag = isTag s' t' tag)
    (hcall : ∀ name x, s.call name x = s'.call name x) :
    Preserved (fun _ => True) (fun _ w w' => w' = w) T (fun _ => True) (fun _ => True) s s' where
  eq h := h
  value _ := trivial
  none _ := rfl
  error _ _ := rfl
  put _ _ := rfl
  andThen h h' := by simp only [h, Written.andThen, h']
  fill _ _ _ := ⟨trivial, id⟩
  only _ _ _ := rfl
  inside _ _ h _ := by rw [funext fun x => h x trivial]
  array h _ _ := by rw [funext fun x => h x trivial]
  map h _ _ := by rw [funext fun x => h x trivial]
  pair ht h _ _ := by
    unfold writePair
    split
    · rw [hT _ _ ht, h _ _ trivial]
    · rfl
  call _ x _ := by rw [hcall]

theorem Copies.run_within {y : String} (hT : ∀ t t', T t t' → ∀ tag, isTag s t tag = isTag s' t' tag)
    (hcall : ∀ name x, s.call name x = s'.call name x) (h : Copies T p (.of y) a b)
    (hv : walk p.keys v = .ok x) : run s a v = (run s' b x).within p.keys v := by
  obtain ⟨w, hw, hw', -⟩ := h.exists_within (preserved_eq hT hcall) (fun _ _ => trivial) (fun _ _ => trivial) hv
    (show walk (of y).keys x = .ok x from rfl) trivial
  rw [hw, hw']
  rfl

end Run

end Encoder

end Code

end AvroCodec
