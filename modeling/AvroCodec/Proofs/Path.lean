import AvroCodec.Codec.Write
import AvroCodec.Proofs.Form
import AvroCodec.Proofs.Outcome

/-!
# Paths into values

What is at the end of a path of entries. Storing what is already there changes nothing, what was stored
is found again, and of two values stored one after the other the later one stays. The name of a field
stands for itself as a key.
-/

namespace AvroCodec

namespace Value

variable {key : String} {x v u : Value} {entries : List (Value × Value)} {path : List String}

@[simp]
theorem find?_putEntry_self (key : String) (x : Value) (entries : List (Value × Value)) :
    find? key (putEntry key x entries) = some x := by
  fun_induction putEntry key x entries with
  | case1 => simp [find?]
  | case2 => simp [find?]
  | case3 k v rest hk ih => simp [find?, hk, ih]
  | case4 e rest hstr ih =>
    obtain ⟨k, v⟩ := e
    cases k with
    | str s => exact absurd rfl (hstr s v)
    | _ => exact ih

theorem putEntry_of_find?
    (h : find? key entries = some x) : putEntry key x entries = entries := by
  fun_induction putEntry key x entries with
  | case1 => cases h
  | case2 v rest => simp_all [find?]
  | case3 k v rest hk ih =>
    rw [ih]
    simpa [find?, hk] using h
  | case4 e rest hstr ih =>
    obtain ⟨k, v⟩ := e
    cases k with
    | str s => exact absurd rfl (hstr s v)
    | _ => rw [ih h]

theorem putEntry_putEntry (key : String) (x y : Value) (entries : List (Value × Value)) :
    putEntry key y (putEntry key x entries) = putEntry key y entries := by
  fun_induction putEntry key x entries with
  | case1 => simp [putEntry]
  | case2 => simp [putEntry]
  | case3 k v rest hk ih => simp [putEntry, hk, ih]
  | case4 e rest hstr ih =>
    obtain ⟨k, v⟩ := e
    cases k with
    | str s => exact absurd rfl (hstr s v)
    | _ => simp [putEntry, ih]

theorem walk_cons_eq_ok :
    walk (key :: path) v = .ok x ↔
      ∃ entries w, v = .map entries ∧ find? key entries = some w ∧ walk path w = .ok x := by
  cases v with
  | map entries => cases h : find? key entries <;> simp [walk, h]
  | _ => simp [walk]

theorem walk_append {path' : List String} (h : walk path v = .ok x) :
    walk (path ++ path') v = walk path' x := by
  induction path generalizing v with
  | nil =>
    cases h
    rfl
  | cons key path ih =>
    obtain ⟨entries, w, rfl, hw, hx⟩ := walk_cons_eq_ok.1 h
    rw [List.cons_append, walk, hw]
    exact ih hx

theorem walk_concat_eq_ok
    (h : walk (path ++ [key]) v = .ok x) :
    ∃ entries, walk path v = .ok (.map entries) ∧ find? key entries = some x := by
  induction path generalizing v with
  | nil =>
    obtain ⟨entries, w, rfl, hw, hx⟩ := walk_cons_eq_ok.1 h
    cases hx
    exact ⟨entries, rfl, hw⟩
  | cons k path ih =>
    obtain ⟨entries, w, rfl, hw, hx⟩ := walk_cons_eq_ok.1 h
    rw [walk, hw]
    exact ih hx

theorem store_cons_of_entry {w : Value}
    (h : find? key entries = some w) :
    store x (key :: path) (.map entries) =
      (store x path w).map fun w' => .map (putEntry key w' entries) := by
  cases path with
  | nil => rfl
  | cons k path =>
    rw [store, h]
    · rfl
    · simp

theorem store_of_walk (h : walk path v = .ok x) :
    store x path v = .ok v := by
  induction path generalizing v with
  | nil =>
    cases h
    rfl
  | cons key path ih =>
    obtain ⟨entries, w, rfl, hw, hx⟩ := walk_cons_eq_ok.1 h
    rw [store_cons_of_entry hw, ih hx]
    simp only [Except.map, putEntry_of_find? hw]

theorem store_append
    (h : walk path v = .ok (.map entries)) :
    store x (path ++ [key]) v = store (.map (putEntry key x entries)) path v := by
  induction path generalizing v with
  | nil =>
    cases h
    rfl
  | cons k path ih =>
    obtain ⟨entries', w, rfl, hw, hx⟩ := walk_cons_eq_ok.1 h
    rw [List.cons_append, store_cons_of_entry hw, store_cons_of_entry hw, ih hx]

theorem store_cons_cons_eq_ok {k : String}
    (h : store x (key :: k :: path) v = .ok u) :
    ∃ entries w w', v = .map entries ∧ find? key entries = some w ∧
      store x (k :: path) w = .ok w' ∧ u = .map (putEntry key w' entries) := by
  cases v with
  | map entries =>
    cases hw : find? key entries with
    | none =>
      rw [store, hw] at h
      · cases h
      · simp
    | some w =>
      rw [store_cons_of_entry hw, except_map_eq_ok] at h
      obtain ⟨w', hw', rfl⟩ := h
      exact ⟨entries, w, w', rfl, hw, hw', rfl⟩
  | _ => simp [store] at h

theorem store_singleton_eq_ok (h : store x [key] v = .ok u) :
    ∃ entries, v = .map entries ∧ u = .map (putEntry key x entries) := by
  cases v with
  | map entries =>
    cases h
    exact ⟨entries, rfl, rfl⟩
  | _ => simp [store] at h

theorem walk_of_store (h : store x path v = .ok u) :
    walk path u = .ok x := by
  induction path generalizing v u with
  | nil =>
    cases h
    rfl
  | cons key path ih =>
    cases path with
    | nil =>
      obtain ⟨entries, rfl, rfl⟩ := store_singleton_eq_ok h
      simp [walk]
    | cons k path =>
      obtain ⟨entries, w, w', rfl, hw, hw', rfl⟩ := store_cons_cons_eq_ok h
      rw [walk, find?_putEntry_self]
      exact ih hw'

theorem store_store {y : Value} (h : store x path v = .ok u) :
    store y path u = store y path v := by
  induction path generalizing v u with
  | nil => rfl
  | cons key path ih =>
    cases path with
    | nil =>
      obtain ⟨entries, rfl, rfl⟩ := store_singleton_eq_ok h
      simp only [store, putEntry_putEntry]
    | cons k path =>
      obtain ⟨entries, w, w', rfl, hw, hw', rfl⟩ := store_cons_cons_eq_ok h
      rw [store_cons_of_entry (find?_putEntry_self ..), store_cons_of_entry hw, ih hw']
      simp only [putEntry_putEntry]

theorem exists_store_of_store (y : Value)
    (h : store x path v = .ok u) : ∃ u', store y path v = .ok u' := by
  induction path generalizing v u with
  | nil => exact ⟨y, rfl⟩
  | cons key path ih =>
    cases path with
    | nil =>
      obtain ⟨entries, rfl, rfl⟩ := store_singleton_eq_ok h
      exact ⟨_, rfl⟩
    | cons k path =>
      obtain ⟨entries, w, w', rfl, hw, hw', rfl⟩ := store_cons_cons_eq_ok h
      obtain ⟨w'', hw''⟩ := ih hw'
      refine ⟨.map (putEntry key w'' entries), ?_⟩
      rw [store_cons_of_entry hw, hw'']
      rfl

end Value

theorem Text.unescapeChars?_of_not_mem {quote : Char} {fuel : Nat} {cs out : List Char}
    (hcs : '\\' ∉ cs) (h : unescapeChars? quote fuel cs = some out) : out = cs := by
  induction cs generalizing fuel out with
  | nil =>
    cases fuel <;> exact (Option.some.inj h).symm
  | cons c cs ih =>
    rw [List.mem_cons, not_or] at hcs
    cases fuel with
    | zero => cases h
    | succ fuel =>
      rw [unescapeChars?] at h
      · split_ifs at h
        obtain ⟨rest, hrest, rfl⟩ := Option.map_eq_some_iff.1 h
        rw [ih hcs.2 hrest]
      · rintro rfl
        exact hcs.1 rfl

theorem literalText_of_isFieldName {name : String} (h : Form.isFieldName name = true) :
    Code.literalText name = name := by
  have hcs : '\\' ∉ name.toList := by
    simpa [Form.isFieldName, Text.hasChar] using (Bool.and_eq_true_iff.1 h).2
  unfold Code.literalText Text.unescape?
  cases hu : Text.unescapeChars? '\'' (name.toList.length + 1) name.toList with
  | none => rfl
  | some out =>
    rw [Text.unescapeChars?_of_not_mem hcs hu]
    exact String.ofList_toList

end AvroCodec
