import AvroCodec.Proofs.Emitting

/-!
# What writing leaves alone

Code works on the value at a place. Whatever happens there, values at paths that part from the place's
stay as they are. What is not there counts as nothing.
-/

namespace AvroCodec

namespace Value

variable {ks path : List String} {v x u v' : Value} {k key : String}

/-- Paths that part at some key. -/
inductive Apart : List String → List String → Prop
  | here {k k' : String} (h : k ≠ k') (ks ks' : List String) : Apart (k :: ks) (k' :: ks')
  | there (k : String) {ks ks' : List String} (h : Apart ks ks') : Apart (k :: ks) (k :: ks')

theorem Apart.append {ks' : List String} (h : Apart ks ks') (more : List String) :
    Apart ks (ks' ++ more) := by
  induction h with
  | here h ks ks' => exact .here h ks (ks' ++ more)
  | there k _ ih => exact .there k ih

theorem apart_concat (path : List String) {k' : String} (h : k ≠ k') : Apart (path ++ [k]) (path ++ [k']) := by
  induction path with
  | nil => exact .here h [] []
  | cons key path ih => exact .there key ih

theorem find?_putEntry_of_ne (h : k ≠ key) (x : Value)
    (entries : List (Value × Value)) : find? k (putEntry key x entries) = find? k entries := by
  fun_induction putEntry key x entries with
  | case1 => simp [find?, Ne.symm h]
  | case2 => simp [find?, Ne.symm h]
  | case3 k' v rest hk ih => simp [find?, ih]
  | case4 e rest he ih =>
    obtain ⟨key', v⟩ := e
    cases key' with
    | str s => exact absurd rfl (he s v)
    | _ => simpa [find?] using ih

theorem exists_putEntry_of_store (h : store x (key :: path) v = .ok u) :
    ∃ entries w, v = .map entries ∧ u = .map (putEntry key w entries) := by
  cases path with
  | nil =>
    obtain ⟨entries, rfl, rfl⟩ := store_singleton_eq_ok h
    exact ⟨entries, x, rfl, rfl⟩
  | cons key path =>
    obtain ⟨entries, w, w', rfl, -, -, rfl⟩ := store_cons_cons_eq_ok h
    exact ⟨entries, w', rfl, rfl⟩

theorem walk_store_of_apart (h : store x path v = .ok u) (hks : Apart ks path) : walk ks u = walk ks v := by
  induction hks generalizing v u with
  | @here k k' hk ks ks' =>
    obtain ⟨entries, w, rfl, rfl⟩ := exists_putEntry_of_store h
    rw [walk, walk, find?_putEntry_of_ne hk]
  | @there k ks ks' hks ih =>
    cases ks' with
    | nil => cases hks
    | cons key path =>
      obtain ⟨entries, w, w', rfl, hw, hstore, rfl⟩ := store_cons_cons_eq_ok h
      rw [walk, walk, find?_putEntry_self, hw]
      exact ih hstore

/-- Two values that are alike at all paths that part from a given one. -/
def Frame (path : List String) (v v' : Value) : Prop := ∀ ks, Apart ks path → walk ks v' = walk ks v

theorem Frame.refl (path : List String) (v : Value) : Frame path v v := fun _ _ => rfl

theorem Frame.trans {v'' : Value} (h : Frame path v v') (h' : Frame path v' v'') : Frame path v v'' :=
  fun ks hks => (h' ks hks).trans (h ks hks)

theorem Frame.of_concat (h : Frame (path ++ [key]) v v') : Frame path v v' :=
  fun ks hks => h ks (hks.append [key])

theorem frame_of_store (h : store x path v = .ok u) : Frame path v u :=
  fun _ hks => walk_store_of_apart h hks

theorem frame_store_getD (path : List String) (v x : Value) :
    Frame path v (((store x path v).toOption).getD v) := by
  cases h : store x path v with
  | error e => exact .refl path v
  | ok u => exact frame_of_store h

def peek (path : List String) (v : Value) : Value := ((walk path v).toOption).getD .null

theorem peek_of_walk (h : walk path v = .ok x) : peek path v = x := by
  rw [peek, h]
  rfl

theorem Frame.peek_eq (h : Frame path v v') (hks : Apart ks path) : peek ks v' = peek ks v := by
  rw [peek, peek, h ks hks]

def entries : Value → List (Value × Value)
  | .map entries => entries
  | _ => []

theorem walk_concat (path : List String) (key : String) (v : Value) :
    walk (path ++ [key]) v = (walk path v).bind (walk [key]) := by
  induction path generalizing v with
  | nil => rfl
  | cons k path ih =>
    cases v with
    | map entries =>
      rw [List.cons_append, walk, walk]
      cases find? k entries with
      | none => rfl
      | some w => exact ih w
    | _ => rfl

theorem peek_concat (path : List String) (key : String) (v : Value) :
    peek (path ++ [key]) v = (find? key (peek path v).entries).getD .null := by
  rw [peek, peek, walk_concat]
  cases walk path v with
  | error e => rfl
  | ok x =>
    cases x with
    | map entries =>
      simp only [Except.bind, Except.toOption, Option.getD_some, Value.entries, walk]
      cases find? key entries <;> rfl
    | _ => rfl

end Value

namespace Code.Encoder

open Value

/-- After a default may have been put in, there is something or the default. -/
theorem fill_eq_ok {path : List String} {default v v' : Value} (h : fill path default v = .ok v') :
    Frame path v v' ∧
      peek path v' = if (peek path v).isNull then default else peek path v := by
  rcases List.eq_nil_or_concat path with rfl | ⟨parent, key, rfl⟩
  · simp only [fill, List.getLast?_nil, Except.ok.injEq] at h
    subst h
    refine ⟨fun ks hks => (by cases hks), ?_⟩
    rfl
  · rw [List.concat_eq_append] at h ⊢
    simp only [fill, List.getLast?_concat, List.dropLast_concat, except_bind_eq_ok] at h
    obtain ⟨x, hx, h⟩ := h
    rw [peek_concat parent key v, peek_of_walk hx]
    cases x with
    | map entries =>
      simp only at h
      split_ifs at h with hnull
      · rw [Value.entries, if_pos hnull]
        exact ⟨frame_of_store h, peek_of_walk (walk_of_store h)⟩
      · cases h
        rw [Value.entries, if_neg hnull, peek_concat, peek_of_walk hx, Value.entries]
        exact ⟨.refl _ _, rfl⟩
    | _ => cases h

theorem exists_of_inside {path : List String} {f : Value → Written} {v : Value} {eff : Effect}
    (h : (inside path f v).result = .ok eff) :
    ∃ x, walk path v = .ok x ∧ (f x).result = .ok eff ∧ Frame path v (inside path f v).value := by
  unfold inside at h ⊢
  cases hx : walk path v with
  | error e => simp [hx] at h
  | ok x =>
    simp only [hx] at h
    exact ⟨x, rfl, h, frame_store_getD path v _⟩

end Code.Encoder

end AvroCodec
