import AvroCodec.Proofs.Filling

/-!
# Dictionaries with the same entries

Code that works at entries of a dictionary does not depend on the order of the entries, and code that works at
some of them does not depend on the others. `Value.Twins` relates two dictionaries that hold the same under keys
of some kind. Code whose paths all begin at such keys writes the same for both, and leaves two such dictionaries.

A default that is put in for a field may so be there beforehand, if the code before works at other entries.
-/

namespace AvroCodec

open Code Value

/-- Two dictionaries that hold the same under keys of some kind, and what is given under the others. -/
def Value.Twins (p : String → Bool) (f g : String → Option Value) (v u : Value) : Prop :=
  ∃ es es', v = .map es ∧ u = .map es' ∧ ∀ k, (p k = true → find? k es' = find? k es) ∧
    (p k = false → find? k es = f k ∧ find? k es' = g k)

/-- Whether a path begins at a key of some kind. -/
def Code.startsAt (p : String → Bool) : List String → Bool
  | [] => false
  | key :: _ => p key

variable {p : String → Bool} {f g : String → Option Value} {v u : Value} {path : List String}

theorem Code.startsAt_of_prefix {key : String} (hkey : p key = true) (h : [key] <+: path) : startsAt p path = true := by
  obtain ⟨rest, rfl⟩ := h
  exact hkey

namespace Value.Twins

variable (h : Twins p f g v u)
include h

theorem walk_eq (hpath : startsAt p path = true) : walk path u = walk path v := by
  obtain ⟨es, es', rfl, rfl, hall⟩ := h
  cases path with
  | nil => cases hpath
  | cons key path => rw [walk, walk, (hall key).1 hpath]

/-- Twins are left where the same is stored, or it can be stored in neither. -/
theorem store_both (hpath : startsAt p path = true) (x : Value) :
    Both (Twins p f g) (store x path v) (store x path u) := by
  obtain ⟨es, es', rfl, rfl, hall⟩ := h
  have hput : ∀ key y, p key = true → Twins p f g (.map (putEntry key y es)) (.map (putEntry key y es')) := by
    intro key y hkey
    refine ⟨_, _, rfl, rfl, fun k => ?_⟩
    by_cases hk : k = key
    · subst hk
      rw [find?_putEntry_self, find?_putEntry_self, hkey]
      exact ⟨fun _ => rfl, nofun⟩
    · rw [find?_putEntry_of_ne hk, find?_putEntry_of_ne hk]
      exact hall k
  rcases path with - | ⟨key, - | ⟨k, path⟩⟩
  · cases hpath
  · exact .inl ⟨_, _, rfl, rfl, hput key x hpath⟩
  · rw [store, store, (hall key).1 hpath]
    · cases find? key es with
      | none => exact .inr ⟨_, rfl, rfl⟩
      | some w =>
        cases hw : store x (k :: path) w with
        | error e => exact .inr ⟨e, by simp only [hw]; rfl, by simp only [hw]; rfl⟩
        | ok w' => exact .inl ⟨_, _, by simp only [hw]; rfl, by simp only [hw]; rfl, hput key w' hpath⟩
    · simp
    · simp

end Value.Twins

theorem Value.Twins.unseen (p : String → Bool) (f g : String → Option Value) :
    Unseen (Twins p f g) fun ks => startsAt p ks = true where
  ne_nil := nofun
  walk_eq h := h.walk_eq
  parent_cases {v u parent key} h hpath := by
    cases parent with
    | nil =>
      obtain ⟨es, es', rfl, rfl, hall⟩ := h
      exact .inr ⟨es, es', rfl, rfl, (hall key).1 hpath⟩
    | cons k parent => exact .inl (h.walk_eq hpath)
  store_both h := h.store_both

namespace Code.Encoder

variable {s : WriteScope} {place : Place} {x : Value}

theorem runParts_filled {d : Json} (hd : Default.value? d = some x) (hfill : fill place.keys x v = .ok u)
    (next : Encoder) (back : List Encoder) :
    runParts s (.filled place d next :: back) v = runParts s (next :: back) u := by
  rw [runParts, runParts, run, hd, Option.getD_some, hfill]

/-- A default that is put in may be there beforehand: the same is written. -/
theorem result_run_putEntry {front back : List Encoder} {d : Json} {next : Encoder} {key : String}
    {entries : List (Value × Value)} (hplace : place.keys = [key]) (hd : Default.value? d = some x)
    (hx : x.isNull = false) (hfront : ∀ ks ∈ pathsParts front, startsAt (· != key) ks = true)
    (hback : ∀ ks ∈ pathsParts (next :: back), startsAt (fun _ => true) ks = true)
    (hnull : ((find? key entries).getD .null).isNull = true) :
    (run s (.fields (front ++ .filled place d next :: back)) (.map (putEntry key x entries))).result =
      (run s (.fields (front ++ .filled place d next :: back)) (.map entries)).result := by
  have htwins : Twins (· != key) (fun k => find? k entries) (fun k => find? k (putEntry key x entries))
      (.map entries) (.map (putEntry key x entries)) :=
    ⟨_, _, rfl, rfl, fun k => ⟨fun hk => find?_putEntry_of_ne (by simpa using hk) x entries, fun _ => ⟨rfl, rfl⟩⟩⟩
  obtain ⟨hresult, hrest⟩ := (Twins.unseen ..).same_runParts (s := s) front htwins hfront
  obtain ⟨es, es', hes, hes', hall⟩ := hrest
  have hkey : find? key es = find? key entries ∧ find? key es' = some x := by
    rw [← find?_putEntry_self key x entries]
    exact (hall key).2 (bne_self_eq_false key)
  -- The default is put into the first dictionary, and the second has it.
  have hfill : fill place.keys x (.map es) = .ok (.map (putEntry key x es)) := by
    rw [hplace, fill_of_glance x rfl, hkey.1, if_pos hnull]
    rfl
  have hfill' : fill place.keys x (.map es') = .ok (.map es') := by
    rw [hplace, fill_of_glance x rfl, hkey.2, Option.getD_some, if_neg (by simp [hx])]
  have htwins' : Twins (fun _ => true) (fun _ => none) (fun _ => none) (.map (putEntry key x es)) (.map es') := by
    refine ⟨_, _, rfl, rfl, fun k => ⟨fun _ => ?_, nofun⟩⟩
    by_cases hk : k = key
    · rw [hk, hkey.2, find?_putEntry_self]
    · rw [find?_putEntry_of_ne hk]
      exact (hall k).1 (bne_iff_ne.2 hk)
  rw [run, run, runParts_append, runParts_append]
  simp only [Written.andThen, hresult]
  cases (runParts s front (.map entries)).result with
  | error e => exact hresult
  | ok eff =>
    simp only [hes, hes', runParts_filled hd hfill, runParts_filled hd hfill']
    exact congrArg (Except.map eff.andThen) ((Twins.unseen ..).same_runParts (next :: back) htwins' hback).1

end Code.Encoder

end AvroCodec
