import AvroCodec.Value
import Mathlib.Data.List.Induction
import Mathlib.Data.List.Nodup
import Mathlib.Data.List.Perm.Basic

/-!
# Dictionaries

Dictionaries whose keys are texts, and dictionaries that are filled one entry after the other. Two values
are the same if they differ at most in the order of the entries of dictionaries.
-/

namespace AvroCodec.Value

variable {entries : List (String × Value)}

def dict (entries : List (String × Value)) : Value := .map (entries.map fun e => (.str e.1, e.2))

/-- Replaces what stands under a key, or adds it at the end. -/
def putIn {α : Type} (key : String) (x : α) : List (String × α) → List (String × α)
  | [] => [(key, x)]
  | (k, y) :: rest => if k = key then (k, x) :: rest else (k, y) :: putIn key x rest

def puts {α : Type} (entries : List (String × α)) : List (String × α) :=
  entries.foldl (fun acc e => putIn e.1 e.2 acc) []

theorem putEntry_dict (key : String) (x : Value) (entries : List (String × Value)) :
    putEntry key x (entries.map fun e => (.str e.1, e.2)) =
      (putIn key x entries).map fun e => (.str e.1, e.2) := by
  induction entries with
  | nil => rfl
  | cons e rest ih =>
    obtain ⟨k, y⟩ := e
    by_cases hk : k = key
    · simp [putEntry, putIn, hk]
    · simp [putEntry, putIn, hk, ih]

theorem find?_dict_of_mem {key : String} {x : Value} (hn : (entries.map (·.1)).Nodup) (h : (key, x) ∈ entries) :
    find? key (entries.map fun e => (.str e.1, e.2)) = some x := by
  induction entries with
  | nil => cases h
  | cons e rest ih =>
    obtain ⟨k, y⟩ := e
    rw [List.map_cons, List.nodup_cons] at hn
    rcases List.mem_cons.1 h with he | he
    · cases he
      simp [find?]
    · have hk : k ≠ key := by
        rintro rfl
        exact hn.1 (List.mem_map.2 ⟨(k, x), he, rfl⟩)
      simp only [List.map_cons, find?, if_neg hk]
      exact ih hn.2 he

section Puts

variable {α β : Type}

variable {key : String} {entries : List (String × α)} {q : String × α}

theorem mem_putIn {x : α} (h : q ∈ putIn key x entries) : q = (key, x) ∨ q ∈ entries := by
  induction entries with
  | nil => exact .inl (List.mem_singleton.1 h)
  | cons e rest ih =>
    obtain ⟨k, y⟩ := e
    rw [putIn] at h
    split_ifs at h with hk
    · rcases List.mem_cons.1 h with rfl | h
      · exact .inl (by rw [hk])
      · exact .inr (List.mem_cons_of_mem _ h)
    · rcases List.mem_cons.1 h with rfl | h
      · exact .inr List.mem_cons_self
      · exact (ih h).imp_right (List.mem_cons_of_mem _)

theorem keys_putIn (key : String) (x : α) (entries : List (String × α)) :
    (putIn key x entries).map (·.1) =
      if key ∈ entries.map (·.1) then entries.map (·.1) else entries.map (·.1) ++ [key] := by
  induction entries with
  | nil => rfl
  | cons e rest ih =>
    obtain ⟨k, y⟩ := e
    by_cases hk : k = key
    · simp [putIn, hk]
    · rw [putIn, if_neg hk, List.map_cons, ih, List.map_cons]
      by_cases hm : key ∈ rest.map (·.1)
      · rw [if_pos hm, if_pos (List.mem_cons_of_mem _ hm)]
      · rw [if_neg hm, if_neg (by simpa [Ne.symm hk] using hm), List.cons_append]

theorem nodup_keys_putIn (key : String) (x : α)
    (h : (entries.map (·.1)).Nodup) : ((putIn key x entries).map (·.1)).Nodup := by
  rw [keys_putIn]
  split_ifs with hm
  · exact h
  · rw [List.nodup_append]
    exact ⟨h, List.nodup_singleton _, fun a ha b hb => by
      rw [List.mem_singleton.1 hb]
      rintro rfl
      exact hm ha⟩

theorem map_putIn (f : α → β) (key : String) (x : α) (entries : List (String × α)) :
    (putIn key x entries).map (fun e => (e.1, f e.2)) =
      putIn key (f x) (entries.map fun e => (e.1, f e.2)) := by
  induction entries with
  | nil => rfl
  | cons e rest ih =>
    obtain ⟨k, y⟩ := e
    by_cases hk : k = key
    · simp [putIn, hk]
    · simp [putIn, hk, ih]

theorem puts_append_singleton (entries : List (String × α)) (e : String × α) :
    puts (entries ++ [e]) = putIn e.1 e.2 (puts entries) := by
  simp [puts]

theorem map_puts (f : α → β) (entries : List (String × α)) :
    (puts entries).map (fun e => (e.1, f e.2)) = puts (entries.map fun e => (e.1, f e.2)) := by
  induction entries using List.reverseRecOn with
  | nil => rfl
  | append_singleton entries e ih =>
    rw [puts_append_singleton, map_putIn, ih, List.map_append]
    exact (puts_append_singleton _ (e.1, f e.2)).symm

theorem putIn_of_not_mem (x : α)
    (h : key ∉ entries.map (·.1)) : putIn key x entries = entries ++ [(key, x)] := by
  induction entries with
  | nil => rfl
  | cons e rest ih =>
    obtain ⟨k, y⟩ := e
    rw [List.map_cons, List.mem_cons, not_or] at h
    rw [putIn, if_neg (Ne.symm h.1), ih h.2, List.cons_append]

theorem puts_of_nodup (h : (entries.map (·.1)).Nodup) :
    puts entries = entries := by
  induction entries using List.reverseRecOn with
  | nil => rfl
  | append_singleton entries e ih =>
    rw [List.map_append, List.nodup_append] at h
    have hnew : e.1 ∉ entries.map (·.1) := fun he => h.2.2 e.1 he e.1 List.mem_cons_self rfl
    rw [puts_append_singleton, ih h.1, putIn_of_not_mem _ hnew]

theorem mem_of_mem_puts (h : q ∈ puts entries) : q ∈ entries := by
  induction entries using List.reverseRecOn with
  | nil => exact h
  | append_singleton entries e ih =>
    rw [puts_append_singleton] at h
    rcases mem_putIn h with rfl | h
    · exact List.mem_append_right _ List.mem_cons_self
    · exact List.mem_append_left _ (ih h)

theorem nodup_keys_puts (entries : List (String × α)) : ((puts entries).map (·.1)).Nodup := by
  induction entries using List.reverseRecOn with
  | nil => exact List.nodup_nil
  | append_singleton entries e ih =>
    rw [puts_append_singleton]
    exact nodup_keys_putIn _ _ ih

theorem mem_keys_puts (h : key ∈ entries.map (·.1)) :
    key ∈ (puts entries).map (·.1) := by
  induction entries using List.reverseRecOn with
  | nil => exact h
  | append_singleton entries e ih =>
    rw [puts_append_singleton, keys_putIn]
    rw [List.map_append, List.mem_append] at h
    split_ifs with hm
    · rcases h with h | h
      · exact ih h
      · rw [List.mem_singleton.1 h]
        exact hm
    · rcases h with h | h
      · exact List.mem_append_left _ (ih h)
      · exact List.mem_append_right _ h

end Puts

/-- Values that differ at most in the order of the entries of dictionaries. -/
inductive Same : Value → Value → Prop
  | refl (x : Value) : Same x x
  | list (parts : List (Value × Value)) (h : ∀ q ∈ parts, Same q.1 q.2) :
      Same (.list (parts.map (·.1))) (.list (parts.map (·.2)))
  | dict (parts : List (String × Value × Value)) {entries : List (String × Value)}
      (hp : (parts.map fun q => (q.1, q.2.2)).Perm entries) (h : ∀ q ∈ parts, Same q.2.1 q.2.2) :
      Same (.dict (parts.map fun q => (q.1, q.2.1))) (.dict entries)

theorem same_puts_puts (parts : List (String × Value × Value)) (h : ∀ q ∈ parts, Same q.2.1 q.2.2) :
    Same (.dict (puts (parts.map fun q => (q.1, q.2.1))))
      (.dict (puts (parts.map fun q => (q.1, q.2.2)))) := by
  rw [← map_puts Prod.fst parts, ← map_puts Prod.snd parts]
  exact .dict (puts parts) (.refl _) fun q hq => h q (mem_of_mem_puts hq)

/-- A dictionary that is filled with the same values under the same keys is the same dictionary. -/
theorem same_puts (parts : List (String × Value × Value)) (hn : (entries.map (·.1)).Nodup)
    (hmem : ∀ q ∈ parts, (q.1, q.2.2) ∈ entries) (hkeys : ∀ e ∈ entries, e.1 ∈ parts.map (·.1))
    (h : ∀ q ∈ parts, Same q.2.1 q.2.2) : Same (.dict (puts (parts.map fun q => (q.1, q.2.1)))) (.dict entries) := by
  rw [← map_puts Prod.fst parts]
  refine .dict (puts parts) ?_ fun q hq => h q (mem_of_mem_puts hq)
  have hkeys' : ((puts parts).map fun q => (q.1, q.2.2)).map (·.1) = (puts parts).map (·.1) := by
    rw [List.map_map]
    rfl
  have hnodup : ((puts parts).map fun q => (q.1, q.2.2)).Nodup := by
    apply List.Nodup.of_map (·.1)
    rw [hkeys']
    exact nodup_keys_puts parts
  refine (List.perm_ext_iff_of_nodup hnodup (List.Nodup.of_map _ hn)).2 fun e => ?_
  constructor
  · intro he
    obtain ⟨q, hq, rfl⟩ := List.mem_map.1 he
    exact hmem q (mem_of_mem_puts hq)
  · intro he
    obtain ⟨q, hq, hqe⟩ := List.mem_map.1 (mem_keys_puts (hkeys e he))
    have hq' := hmem q (mem_of_mem_puts hq)
    have hfst : (q.1, q.2.2).1 = e.1 := hqe
    have heq : (q.1, q.2.2) = e := List.inj_on_of_nodup_map hn hq' he hfst
    exact List.mem_map.2 ⟨q, hq, heq⟩

end AvroCodec.Value
