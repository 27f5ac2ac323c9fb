import AvroCodec.Proofs.Readable
import AvroCodec.Proofs.Sharing

/-!
# Functions of different types

The functions of a recursive type are named after the type, with an underscore in the place of every dot and of
every colon. So two types have the same functions exactly if their names are alike but for these characters.

A call is made with the name of the type, and reaches the last function that is named after it. If no other type
with such a name has been met, then this is the function that was made from a definition of the type.
-/

namespace AvroCodec

open Code

/-! ### Names -/

/-- The characters that look alike in the names of functions. -/
def separators : List Char := ['.', ':', '_']

/-- Names that differ at most in which separator stands where. -/
def Similar (a b : String) : Prop :=
  List.Forall₂ (fun c d => c = d ∨ c ∈ separators ∧ d ∈ separators) a.toList b.toList

def functionChar (c : Char) : Char := if c = '.' ∨ c = ':' then '_' else c

theorem functionChar_eq_iff {c d : Char} :
    functionChar c = functionChar d ↔ c = d ∨ c ∈ separators ∧ d ∈ separators := by
  unfold functionChar separators
  grind

theorem toList_functionSuffix (name : String) : (functionSuffix name).toList = name.toList.map functionChar := by
  simp only [functionSuffix, Text.replaceAll, String.toList_ofList]
  change Text.replaceFrom ['.'] ['_'] 0 (Text.replaceFrom [':'] ['_'] 0 name.toList) = _
  rw [Text.replaceFrom_singleton, Text.replaceFrom_singleton]
  induction name.toList with
  | nil => rfl
  | cons c cs ih =>
    rw [List.flatMap_cons, List.flatMap_append, ih, List.map_cons, functionChar]
    by_cases hc : c = ':'
    · simp [hc]
    · by_cases hd : c = '.' <;> simp [hc, hd]

theorem functionSuffix_eq_iff {a b : String} : functionSuffix a = functionSuffix b ↔ Similar a b := by
  rw [← String.toList_inj, toList_functionSuffix, toList_functionSuffix, ← List.forall₂_eq_eq_eq,
    List.forall₂_map_left_iff, List.forall₂_map_right_iff]
  simp only [functionChar_eq_iff]
  rfl

/-! ### Calls -/

section Reaching

variable {schemata : Schemata} {g g' : Schema.Registry} {store : Store} {extended : Bool} {steps : Nat}
  {schema : Json} {s t : Generator} {routine : Routine} {name : String} {handled : List String}
  {table : List (String × Routine)}

theorem Store.Tabled.count_eq_one (h : store.Tabled extended [] handled table) (hname : name ∈ handled)
    (hother : ∀ other ∈ handled, Similar other name → other = name) :
    (table.map (·.1)).count (functionSuffix name) = 1 := by
  have hperm : (table.map (·.1)).Perm (handled.map functionSuffix) := by
    have hfunctions := h.functions
    rwa [List.map_nil, List.append_nil] at hfunctions
  have hsame : ∀ other ∈ handled, (functionSuffix other == functionSuffix name) = true ↔ (other == name) = true := by
    intro other hmem
    rw [beq_iff_eq, beq_iff_eq, functionSuffix_eq_iff]
    exact ⟨hother other hmem, fun hEq => hEq ▸ functionSuffix_eq_iff.1 rfl⟩
  calc (table.map (·.1)).count (functionSuffix name)
      = (handled.map functionSuffix).count (functionSuffix name) := hperm.count_eq _
    _ = handled.countP (fun other => functionSuffix other == functionSuffix name) := List.countP_map
    _ = handled.count name := List.countP_congr hsame
    _ = 1 := List.count_eq_one_of_mem h.nodup hname

/-- Types have functions of the same names exactly if their names differ at most in their separators. In a routine, a
call for a type reaches its only function, made from a definition of the type, if no other type of such a name has
been met. -/
theorem calls_reach_own_type (hstore : Store.build schemata g = (.ok store, g')) :
    (∀ a b, (writerName a = writerName b ↔ Similar a b) ∧ (readerName a = readerName b ↔ Similar a b)) ∧
    (Gen.routine (.upTo steps) schema ⟨store, extended⟩ s = (.ok routine, t) → s.handled = [] → s.helpers = [] →
      ∀ part ∈ routine :: routine.functions.map (·.2), ∀ name ∈ part.writer.calls ++ part.reader.calls,
        name ∈ t.handled ∧ ((∀ other ∈ t.handled, Similar other name → other = name) →
          (∃ callee, Routine.function? routine.functions name = some callee ∧ store.Drafted extended name callee) ∧
          (routine.functions.map (·.1)).count (functionSuffix name) = 1)) := by
  refine ⟨fun a b => ⟨?_, ?_⟩, fun hrun hhandled hhelpers part hpart name hname => ?_⟩
  · rw [writerName, writerName, String.append_right_inj, functionSuffix_eq_iff]
  · rw [readerName, readerName, String.append_right_inj, functionSuffix_eq_iff]
  · obtain ⟨htabled, hmade, -⟩ := Store.coded_of_routine hstore hrun hhandled hhelpers
    have hcalls : part.writer.Knows (· ∈ t.handled) ∧ part.reader.Knows (· ∈ t.handled) := by
      rcases List.mem_cons.1 hpart with rfl | hpart
      · exact hmade
      · obtain ⟨f, hf, rfl⟩ := List.mem_map.1 hpart
        obtain ⟨other, -, -, hcoded⟩ := htabled.coded f hf
        exact ⟨hcoded.writer, hcoded.reader⟩
    have hmet : name ∈ t.handled := (List.mem_append.1 hname).elim (hcalls.1 name) (hcalls.2 name)
    refine ⟨hmet, fun hother => ⟨?_, htabled.count_eq_one hmet hother⟩⟩
    obtain ⟨callee, hcallee, -, hcoded⟩ := htabled.exists_function hmet fun other hmem hsuffix =>
      hother other hmem (functionSuffix_eq_iff.1 hsuffix)
    exact ⟨callee, hcallee, hcoded.drafted⟩

end Reaching

/-- Two recursive types with the given names, and a record with a field of each. -/
def streetSchemata (first second : String) : Schemata :=
  [(first, .record first [
      .field "x" (.str "int"),
      .field "next" (.arr [.str "null", .str first])]),
    (second, .record second [
      .field "s" (.str "string"),
      .field "next" (.arr [.str "null", .str second])]),
    ("town.all", .record "town.all" [
      .field "p" (.arr [.str "null", .str first]),
      .field "q" (.arr [.str "null", .str second])])]

theorem street_calls_reach : ∃ store registry routine t,
    Store.build (streetSchemata "town.b_d" "town.b.c") [] = (.ok store, registry) ∧
    Gen.routine (.upTo 9) (.str "town.all") ⟨store, false⟩ (.new "town.all" []) = (.ok routine, t) ∧
    t.handled = ["town.b_d", "town.b.c"] ∧
    (∃ callee, Routine.function? routine.functions "town.b.c" = some callee ∧ store.Drafted false "town.b.c" callee) ∧
    (routine.functions.map (·.1)).count (functionSuffix "town.b.c") = 1 := by
  obtain ⟨store, registry, hstore, hcall, hhandled⟩ := Codec.exists_store (streetSchemata "town.b_d" "town.b.c")
    (fun store =>
      ((Gen.routine (.upTo 9) (.str "town.all") ⟨store, false⟩ (.new "town.all" [])).1.toOption.any
        fun routine => routine.writer.calls.contains "town.b.c") = true ∧
      (Gen.routine (.upTo 9) (.str "town.all") ⟨store, false⟩ (.new "town.all" [])).2.handled =
        ["town.b_d", "town.b.c"]) (by decide +kernel)
  rcases hrun : Gen.routine (.upTo 9) (.str "town.all") ⟨store, false⟩ (.new "town.all" []) with ⟨e | routine, t⟩
  · rw [hrun] at hcall
    cases hcall
  · rw [hrun] at hcall hhandled
    have hmem : "town.b.c" ∈ routine.writer.calls ++ routine.reader.calls :=
      List.mem_append_left _ (List.contains_iff_mem.1 hcall)
    obtain ⟨hcallee, hcount⟩ := ((calls_reach_own_type hstore).2 hrun rfl rfl routine List.mem_cons_self _ hmem).2 (by
      intro other hother
      rw [hhandled] at hother
      rw [← functionSuffix_eq_iff]
      revert other
      decide +kernel)
    exact ⟨store, registry, routine, t, hstore, hrun, hhandled, hcallee, hcount⟩

/-- Two recursive types may share their functions, and then the values of one of them are not written. -/
theorem street_functions_shared : ∃ store registry codec e,
    Store.build (streetSchemata "town.b_c" "town.b.c") [] = (.ok store, registry) ∧
    (store.contains "town.b_c" = true ∧ store.isCycleStarting "town.b_c" = true) ∧
    (store.contains "town.b.c" = true ∧ store.isCycleStarting "town.b.c" = true) ∧
    writerName "town.b_c" = writerName "town.b.c" ∧
    Codec.build (streetSchemata "town.b_c" "town.b.c") "town.all" = .ok codec ∧
    (codec.serialize (.dict [("p", .null), ("q", .dict [("s", .str "a"), ("next", .null)])])).result = .error e := by
  obtain ⟨store, registry, hstore, hfirst, hsecond⟩ := Codec.exists_store (streetSchemata "town.b_c" "town.b.c")
    (fun store => (store.contains "town.b_c" = true ∧ store.isCycleStarting "town.b_c" = true) ∧
      (store.contains "town.b.c" = true ∧ store.isCycleStarting "town.b.c" = true)) (by decide +kernel)
  obtain ⟨codec, hbuild, hfails⟩ := Codec.exists_codec (streetSchemata "town.b_c" "town.b.c") "town.all" (fun codec =>
    (codec.serialize (.dict [("p", .null), ("q", .dict [("s", .str "a"), ("next", .null)])])).result.toBool = false)
    (by decide +kernel)
  cases hrun : (codec.serialize (.dict [("p", .null), ("q", .dict [("s", .str "a"), ("next", .null)])])).result with
  | error e => exact ⟨store, registry, codec, e, hstore, hfirst, hsecond, by decide +kernel, hbuild, hrun⟩
  | ok bytes =>
    rw [hrun] at hfails
    cases hfails

end AvroCodec
