import AvroCodec.Proofs.Copying

/-!
# Code that works elsewhere

Two values that differ in a way that code does not see, because it works at other paths (`Unseen`). The code writes
the same for both, and leaves two values that differ in the same way. So it is for two values that differ at the end of
one path only: `Value.Swap`.
-/

namespace AvroCodec

open Code

namespace Value

/-- Both outcomes are values of which `R` holds, or the same failure. -/
def Both (R : Value → Value → Prop) (o o' : Except CodecError Value) : Prop :=
  (∃ v u, o = .ok v ∧ o' = .ok u ∧ R v u) ∨ ∃ e, o = .error e ∧ o' = .error e

/-- The first value has `x` at the end of a path where the second has `y`, and else they are the same. -/
structure Swap (path : List String) (x y v v' : Value) : Prop where
  walk_eq : walk path v = .ok x
  store_eq : store y path v = .ok v'

theorem putEntry_comm {k k' : String} {x y w : Value} {entries : List (Value × Value)} (hk : k ≠ k')
    (h : find? k' entries = some w) :
    putEntry k x (putEntry k' y entries) = putEntry k' y (putEntry k x entries) := by
  induction entries with
  | nil => cases h
  | cons e rest ih =>
    obtain ⟨key, v⟩ := e
    cases key with
    | str s =>
      by_cases hs : s = k'
      · subst hs
        simp [putEntry, Ne.symm hk]
      · have hrest := ih (by simpa [find?, hs] using h)
        by_cases hs' : s = k
        · subst hs'
          simp [putEntry, hs]
        · simp [putEntry, hs, hs', hrest]
    | _ =>
      have hrest := ih (by simpa [find?] using h)
      simp [putEntry, hrest]

namespace Swap

variable {path ks : List String} {x y v v' : Value} {key : String}

theorem walk_of_apart (h : Swap path x y v v') (hks : Apart ks path) : walk ks v' = walk ks v :=
  walk_store_of_apart h.store_eq hks

theorem exists_entries (h : Swap (key :: path) x y v v') :
    ∃ entries w w', v = .map entries ∧ find? key entries = some w ∧ Swap path x y w w' ∧
      v' = .map (putEntry key w' entries) := by
  obtain ⟨entries, w, rfl, hw, hx⟩ := walk_cons_eq_ok.1 h.walk_eq
  have hstore := h.store_eq
  rw [store_cons_of_entry hw, except_map_eq_ok] at hstore
  obtain ⟨w', hw', rfl⟩ := hstore
  exact ⟨entries, w, w', rfl, hw, ⟨hx, hw'⟩, rfl⟩

theorem of_entry {entries : List (Value × Value)} {w w' : Value} (hw : find? key entries = some w)
    (h : Swap path x y w w') :
    Swap (key :: path) x y (.map entries) (.map (putEntry key w' entries)) where
  walk_eq := by rw [walk, hw]; exact h.walk_eq
  store_eq := by rw [store_cons_of_entry hw, h.store_eq]; rfl

/-- What is stored elsewhere leaves the difference. -/
theorem store_of_apart (h : Swap path x y v v') (hks : Apart ks path) (z : Value) :
    Both (Swap path x y) (store z ks v) (store z ks v') := by
  induction hks generalizing v v' with
  | @here k k' hk ks path =>
    obtain ⟨entries, w, w', rfl, hw, hswap, rfl⟩ := h.exists_entries
    -- An entry beside that of the path.
    have hput : ∀ q, Swap (k' :: path) x y (.map (putEntry k q entries))
        (.map (putEntry k q (putEntry k' w' entries))) := by
      intro q
      rw [putEntry_comm hk hw]
      exact of_entry ((find?_putEntry_of_ne (Ne.symm hk) q entries).trans hw) hswap
    have hfind : find? k (putEntry k' w' entries) = find? k entries := find?_putEntry_of_ne hk w' entries
    cases ks with
    | nil => exact .inl ⟨_, _, rfl, rfl, hput z⟩
    | cons k₂ ks =>
      cases hq : find? k entries with
      | none =>
        refine .inr ⟨.missing (.str k), ?_, ?_⟩
        · rw [store, hq]
          simp
        · rw [store, hfind, hq]
          simp
      | some q =>
        rw [store_cons_of_entry hq, store_cons_of_entry (hfind.trans hq)]
        cases store z (k₂ :: ks) q with
        | error e => exact .inr ⟨e, rfl, rfl⟩
        | ok q' => exact .inl ⟨_, _, rfl, rfl, hput q'⟩
  | @there k ks path _ ih =>
    obtain ⟨entries, w, w', rfl, hw, hswap, rfl⟩ := h.exists_entries
    rw [store_cons_of_entry hw, store_cons_of_entry (find?_putEntry_self k w' entries)]
    rcases ih hswap with ⟨u, u', hu, hu', huu'⟩ | ⟨e, he, he'⟩
    · rw [hu, hu']
      have hput := of_entry (find?_putEntry_self k u entries) huu'
      rw [putEntry_putEntry, ← putEntry_putEntry k w' u' entries] at hput
      exact .inl ⟨_, _, rfl, rfl, hput⟩
    · rw [he, he']
      exact .inr ⟨e, rfl, rfl⟩

theorem walk_parent {parent : List String} (h : Swap path x y v v')
    (hks : Apart (parent ++ [key]) path) : walk parent v' = walk parent v ∨
      ∃ entries entries', walk parent v = .ok (.map entries) ∧ walk parent v' = .ok (.map entries') ∧
        find? key entries' = find? key entries := by
  induction parent generalizing path v v' with
  | nil =>
    cases hks with
    | @here _ k' hk _ path =>
      obtain ⟨entries, w, w', rfl, hw, -, rfl⟩ := h.exists_entries
      exact .inr ⟨entries, _, rfl, rfl, find?_putEntry_of_ne hk w' entries⟩
    | there _ hks => cases hks
  | cons k parent ih =>
    cases hks with
    | @here _ k' hk _ path =>
      obtain ⟨entries, w, w', rfl, hw, -, rfl⟩ := h.exists_entries
      exact .inl (by rw [walk, walk, find?_putEntry_of_ne hk])
    | @there _ _ path hks =>
      obtain ⟨entries, w, w', rfl, hw, hswap, rfl⟩ := h.exists_entries
      rw [walk, walk, hw, find?_putEntry_self]
      exact ih hswap hks

theorem exists_of_append {rest : List String} (h : Swap (ks ++ rest) x y v v') :
    ∃ a a', walk ks v = .ok a ∧ walk ks v' = .ok a' ∧ Swap rest x y a a' := by
  induction ks generalizing v v' with
  | nil => exact ⟨v, v', rfl, rfl, h⟩
  | cons k ks ih =>
    obtain ⟨entries, w, w', rfl, hw, hswap, rfl⟩ := h.exists_entries
    obtain ⟨a, a', ha, ha', hrest⟩ := ih hswap
    refine ⟨a, a', ?_, ?_, hrest⟩
    · rw [walk, hw]
      exact ha
    · rw [walk, find?_putEntry_self]
      exact ha'

theorem unique {a b : Value} (h : Swap path x y v v') (ha : walk path v = .ok a) (hb : store b path v = .ok v') :
    x = a ∧ y = b := by
  have hy := walk_of_store h.store_eq
  rw [walk_of_store hb] at hy
  exact ⟨Except.ok.inj (h.walk_eq.symm.trans ha), (Except.ok.inj hy).symm⟩

theorem of_stores {a b z z' : Value} (h : store y path v = .ok v') (hz : store a path v = .ok z)
    (hz' : store b path v' = .ok z') : Swap path a b z z' where
  walk_eq := walk_of_store hz
  store_eq := by rw [store_store hz, ← store_store h]; exact hz'

end Swap

end Value

namespace Code

open Value

namespace Encoder

mutual

/-- The paths of the places that code works at, without what it does in variables of its own. -/
def paths : Encoder → List (List String)
  | .null => []
  | .primitive _ place | .logical _ place | .enum place _ | .recur _ place => [place.keys]
  | .array place _ _ | .map place _ _ _ => [place.keys]
  | .fields parts => pathsParts parts
  | .filled place _ next => place.keys :: paths next
  | .union subject _ _ branches => subject.keys :: pathsBranches branches

def pathsParts : List Encoder → List (List String)
  | [] => []
  | e :: es => paths e ++ pathsParts es

def pathsBranches : List (Branch Encoder) → List (List String)
  | [] => []
  | ⟨_, _, _, _, plain⟩ :: rest => paths plain ++ pathsBranches rest

end

theorem paths_plain_subset {b : Branch Encoder} {branches : List (Branch Encoder)} (hb : b ∈ branches) :
    b.plain.paths ⊆ pathsBranches branches := by
  induction branches with
  | nil => cases hb
  | cons c rest ih =>
    obtain ⟨_, _, _, _, plain⟩ := c
    rw [pathsBranches]
    rcases List.mem_cons.1 hb with rfl | hb
    · exact List.subset_append_left _ _
    · exact List.subset_append_of_subset_right _ (ih hb)

/-- Code that works at no place on or inside a path. -/
def Avoids (path : List String) (e : Encoder) : Prop := ∀ ks ∈ e.paths, Apart ks path

end Encoder

end Code

/-- What is written is the same, and `R` holds of what is left. -/
structure Written.Same (R : Value → Value → Prop) (w w' : Written) : Prop where
  result_eq : w'.result = w.result
  left : R w.value w'.value

/-- What is written is the same, and what is left differs at a path only. -/
abbrev Written.Swaps (path : List String) (x y : Value) (w w' : Written) : Prop :=
  Written.Same (Value.Swap path x y) w w'

/-- Values of which `R` holds look the same at the paths of which `C` holds, and `R` holds still when something is
stored there. -/
structure Unseen (R : Value → Value → Prop) (C : List String → Prop) : Prop where
  ne_nil : ¬ C []
  walk_eq : ∀ {v u ks}, R v u → C ks → Value.walk ks u = Value.walk ks v
  parent_cases : ∀ {v u parent key}, R v u → C (parent ++ [key]) → Value.walk parent u = Value.walk parent v ∨
    ∃ entries entries', Value.walk parent v = .ok (.map entries) ∧ Value.walk parent u = .ok (.map entries') ∧
      Value.find? key entries' = Value.find? key entries
  store_both : ∀ {v u ks}, R v u → C ks → ∀ z, Value.Both R (Value.store z ks v) (Value.store z ks u)

theorem Value.Swap.unseen (path : List String) (x y : Value) : Unseen (Swap path x y) (Apart · path) where
  ne_nil := nofun
  walk_eq := walk_of_apart
  parent_cases := walk_parent
  store_both := store_of_apart

namespace Unseen

open Value Encoder

variable {R : Value → Value → Prop} {C : List String → Prop} {v u : Value} {ks : List String} {s : WriteScope}

section

variable (hR : Unseen R C) {subject : Subject}
include hR

theorem look_eq (h : R v u) (hs : C subject.keys) : subject.look u = subject.look v := by
  cases subject with
  | value place => exact hR.walk_eq h hs
  | member place key =>
    simp only [Subject.look]
    rcases hR.parent_cases h hs with heq | ⟨entries, entries', hv, hu, hfind⟩
    · rw [heq]
    · rw [hv, hu]
      simp only [bind, Except.bind, hfind]

theorem passes_eq (h : R v u) (hs : C subject.keys) (guard : Guard) :
    guard.passes subject u = guard.passes subject v := by
  cases guard <;> simp only [Guard.passes, hR.look_eq h hs, hR.walk_eq h hs]

theorem fill_both (h : R v u) (hks : C ks) (default : Value) : Both R (fill ks default v) (fill ks default u) := by
  rcases List.eq_nil_or_concat ks with rfl | ⟨parent, key, rfl⟩
  · exact absurd hks hR.ne_nil
  · rw [List.concat_eq_append] at hks ⊢
    have hmaps : ∀ {entries entries'}, walk parent v = .ok (.map entries) → walk parent u = .ok (.map entries') →
        find? key entries' = find? key entries →
        Both R (fill (parent ++ [key]) default v) (fill (parent ++ [key]) default u) := by
      intro entries entries' hv hu hfind
      rw [fill_concat parent key default hv, fill_concat parent key default hu, hfind]
      split_ifs
      · exact hR.store_both h hks default
      · exact .inl ⟨v, u, rfl, rfl, h⟩
    rcases hR.parent_cases h hks with heq | ⟨entries, entries', hv, hu, hfind⟩
    · have hfails : ∀ {v e}, walk parent v = .error e → fill (parent ++ [key]) default v = .error e := by
        intro v e hv
        simp only [fill, List.getLast?_concat, List.dropLast_concat, hv]
        rfl
      cases hw : walk parent v with
      | error e => exact .inr ⟨e, hfails hw, hfails (heq.trans hw)⟩
      | ok x =>
        rw [hw] at heq
        cases x with
        | map entries => exact hmaps hw heq rfl
        | _ =>
          refine .inr ⟨.unsupported, ?_, ?_⟩ <;>
            simp only [fill, List.getLast?_concat, List.dropLast_concat, hw, heq] <;> rfl
    · exact hmaps hv hu hfind

theorem stored (h : R v u) (hks : C ks) (z : Value) :
    R (((store z ks v).toOption).getD v) (((store z ks u).toOption).getD u) := by
  rcases hR.store_both h hks z with ⟨v', u', hv, hu, hleft⟩ | ⟨e, hv, hu⟩
  · rw [hv, hu]
    exact hleft
  · rw [hv, hu]
    exact h

theorem same_inside (h : R v u) (hks : C ks) (f : Value → Written) : (inside ks f v).Same R (inside ks f u) := by
  unfold inside
  rw [hR.walk_eq h hks]
  cases walk ks v with
  | error e => exact ⟨rfl, h⟩
  | ok x => exact ⟨rfl, hR.stored h hks _⟩

end

theorem same_andThen {w w' : Written} {f : Value → Written} (h : w.Same R w')
    (hf : ∀ {v u}, R v u → (f v).Same R (f u)) : (w.andThen f).Same R (w'.andThen f) := by
  unfold Written.andThen
  rw [h.result_eq]
  cases w.result with
  | error e => exact h
  | ok front =>
    obtain ⟨hresult, hleft⟩ := hf h.left
    exact ⟨congrArg (Except.map front.andThen) hresult, hleft⟩

/-- Code that works elsewhere cannot tell two values apart. -/
theorem same_run (hR : Unseen R C) (e : Encoder) (h : R v u) (he : ∀ ks ∈ e.paths, C ks) :
    (run s e v).Same R (run s e u) := by
  induction e using induct generalizing v u with
  | null =>
    rw [run, run]
    exact ⟨rfl, h⟩
  | primitive | logical | array | enum | map | recur =>
    rw [run, run]
    exact hR.same_inside h (he _ List.mem_cons_self) _
  | fields parts ih =>
    rw [run, run]
    rw [paths] at he
    induction parts generalizing v u with
    | nil =>
      rw [runParts, runParts]
      exact ⟨rfl, h⟩
    | cons e parts ihparts =>
      rw [pathsParts, List.forall_mem_append] at he
      rw [List.forall_mem_cons] at ih
      rw [runParts, runParts]
      exact same_andThen (ih.1 h he.1) fun hleft => ihparts ih.2 hleft he.2
  | filled place default next ih =>
    rw [paths, List.forall_mem_cons] at he
    rw [run, run]
    rcases hR.fill_both h he.1 ((Default.value? default).getD .null) with ⟨v', u', hv, hu, hleft⟩ | ⟨e, hv, hu⟩
    · rw [hv, hu]
      exact ih hleft he.2
    · rw [hv, hu]
      exact ⟨rfl, h⟩
  | union subject tag data branches _ ih =>
    rw [paths, List.forall_mem_cons] at he
    have hplain : (runPlain s subject branches v).Same R (runPlain s subject branches u) := by
      refine runPlain_rel (choice_congr fun g => (hR.passes_eq h he.1 g).symm) (fun e => ⟨rfl, h⟩) ⟨rfl, h⟩
        fun b hb => ?_
      exact same_andThen ⟨rfl, h⟩ fun hleft => ih b hb hleft fun ks hks => he.2 ks (paths_plain_subset hb hks)
    rw [run, run, hR.look_eq h he.1]
    cases subject.look v with
    | error e => exact ⟨rfl, h⟩
    | ok x =>
      cases x with
      | tuple items => exact ⟨rfl, hR.stored h he.1 _⟩
      | _ => exact hplain

theorem same_runParts (hR : Unseen R C) (parts : List Encoder) (h : R v u) (hparts : ∀ ks ∈ pathsParts parts, C ks) :
    (runParts s parts v).Same R (runParts s parts u) := by
  simpa only [run] using hR.same_run (.fields parts) h hparts

end Unseen

namespace Code.Encoder

open Value

variable {path ks : List String} {x y v v' : Value} {s : WriteScope} {w w' : Written}

theorem exists_andThen_swaps {f : Value → Written} (h : w.Swaps path x y w')
    (hf : ∀ {v v'}, Swap path x y v v' → ∃ a b, (f v).Swaps path a b (f v')) :
    ∃ a b, (w.andThen f).Swaps path a b (w'.andThen f) := by
  unfold Written.andThen
  rw [h.result_eq]
  cases w.result with
  | error e => exact ⟨x, y, h⟩
  | ok front =>
    obtain ⟨a, b, hresult, hswap⟩ := hf h.left
    exact ⟨a, b, congrArg (Except.map front.andThen) hresult, hswap⟩

theorem within_swaps (h : Swap path x y v v') (hresult : w'.result = w.result) :
    ∃ a b, (w.within path v).Swaps path a b (w'.within path v') := by
  obtain ⟨z, hz⟩ := exists_store_of_walk w.value h.walk_eq
  obtain ⟨z', hz'⟩ := exists_store_of_walk w'.value (walk_of_store h.store_eq)
  rw [Written.within_eq hz, Written.within_eq hz']
  exact ⟨_, _, hresult, Swap.of_stores h.store_eq hz hz'⟩

end Code.Encoder

end AvroCodec
