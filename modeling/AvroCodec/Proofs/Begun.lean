import AvroCodec.Proofs.ParallelRoutine

/-!
# Recursive types that have been met

The routine of a recursive type is begun when the type is met. Until it has been made it is pending, and then
its functions are in a table.
-/

namespace AvroCodec.Store

open Code

/-- What is known of the recursive types that have been met, among them those whose routines are pending,
and of the functions that have been made. -/
structure Begun (store : Store) (pending handled : List String) (table : List (String × Routine)) : Prop where
  functions : (table.map (·.1) ++ pending.map functionSuffix).Perm (handled.map functionSuffix)
  met : ∀ name ∈ pending, name ∈ handled
  nodup : handled.Nodup
  recursive : ∀ name ∈ handled, store.isCycleStarting name = true

namespace Begun

variable {store : Store} {name : String} {pending handled : List String} {table : List (String × Routine)}

theorem start : store.Begun [] [] [] where
  functions := .nil
  met _ h := absurd h List.not_mem_nil
  nodup := .nil
  recursive _ h := absurd h List.not_mem_nil

theorem meet (h : store.Begun pending handled table) (hflag : store.isCycleStarting name = true)
    (hnew : name ∉ handled) : store.Begun (name :: pending) (handled ++ [name]) table where
  functions := by
    rw [List.map_cons, List.map_append, List.map_singleton]
    exact List.perm_middle.trans ((h.functions.cons _).trans (List.perm_append_singleton _ _).symm)
  met a ha := by
    rcases List.mem_cons.1 ha with rfl | ha
    · exact List.mem_append_right _ List.mem_cons_self
    · exact List.mem_append_left _ (h.met a ha)
  nodup := List.nodup_append.2 ⟨h.nodup, List.nodup_singleton _, fun a ha b hb => by
    rw [List.mem_singleton.1 hb]
    rintro rfl
    exact hnew ha⟩
  recursive a ha := by
    rcases List.mem_append.1 ha with ha | ha
    · exact h.recursive a ha
    · exact List.mem_singleton.1 ha ▸ hflag

theorem make (h : store.Begun (name :: pending) handled table) (routine : Routine) :
    store.Begun pending handled ((functionSuffix name, routine) :: table) where
  functions := List.perm_middle.symm.trans h.functions
  met a ha := h.met a (List.mem_cons_of_mem _ ha)
  nodup := h.nodup
  recursive := h.recursive

end Begun

end AvroCodec.Store
