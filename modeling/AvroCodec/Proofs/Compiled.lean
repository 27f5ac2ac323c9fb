import AvroCodec.Proofs.Decode

/-!
# Functions of compiled code

Code that can be compiled calls only functions that exist. With the functions of a routine, every name
that is handed over has a function that serves it.
-/

namespace AvroCodec

open Code Decoder

namespace Code.Encoder

theorem areSound_iff {functions : List String} {es : List Encoder} :
    areSound functions es = true ↔ ∀ e ∈ es, e.isSound functions = true := by
  induction es with
  | nil => simp [areSound]
  | cons e es ih => rw [areSound, Bool.and_eq_true, ih, List.forall_mem_cons]

theorem branchesSound_iff {functions : List String} {bs : List (Branch Encoder)} :
    branchesSound functions bs = true ↔ ∀ b ∈ bs, isLiteral '\'' b.tag = true ∧ b.guard.isSound = true ∧
      b.tagged.isSound functions = true ∧ b.plain.isSound functions = true := by
  induction bs with
  | nil => simp [branchesSound]
  | cons b bs ih =>
    obtain ⟨tag, index, guard, tagged, plain⟩ := b
    simp only [branchesSound, Bool.and_eq_true, ih, List.forall_mem_cons, and_assoc]

theorem isSound_of_filling {functions : List String} {field : Field Form} {p : Place} {e : Encoder}
    (h : (field.filling p e).isSound functions = true) : e.isSound functions = true := by
  unfold Field.filling at h
  split at h
  · exact h
  · rw [isSound, Bool.and_eq_true] at h
    exact h.2

end Code.Encoder

namespace Code.Decoder

theorem areSound_iff {functions : List String} {ds : List Decoder} :
    areSound functions ds = true ↔ ∀ d ∈ ds, d.isSound functions = true := by
  induction ds with
  | nil => simp [areSound]
  | cons d ds ih => rw [areSound, Bool.and_eq_true, ih, List.forall_mem_cons]

theorem casesSound_iff {functions : List String} {cs : List (Json × Decoder)} :
    casesSound functions cs = true ↔ ∀ c ∈ cs, c.2.isSound functions = true := by
  induction cs with
  | nil => simp [casesSound]
  | cons c cs ih => rw [casesSound, Bool.and_eq_true, ih, List.forall_mem_cons]

end Code.Decoder

variable {env : String → Option Form} {known : String → Prop} {functions : List String} {p : Place} {f : Form}
  {table : List (String × Routine)}

/-- The names that are known and have a function. -/
def Callable (known : String → Prop) (functions : List String) (name : String) : Prop :=
  known name ∧ functionSuffix name ∈ functions

theorem Writer.callable {e : Encoder} (h : Writer env known f p e)
    (hs : e.isSound functions = true) : Writer env (Callable known functions) f p e := by
  induction h with
  | null => exact .null
  | basic hb => exact .basic hb
  | defaulted hb => exact .defaulted hb
  | fixed => exact .fixed
  | enum => exact .enum
  | array _ ih =>
    rw [Encoder.isSound, Bool.and_eq_true] at hs
    exact .array (ih hs.2)
  | map _ ih =>
    rw [Encoder.isSound, Bool.and_eq_true] at hs
    exact .map (ih hs.2)
  | record parts hfields hnames hsolid _ ih =>
    rw [Encoder.isSound] at hs
    refine .record parts hfields hnames hsolid fun q hq => ih q hq ?_
    exact Encoder.isSound_of_filling (Encoder.areSound_iff.1 hs _ (List.mem_map.2 ⟨q, hq, rfl⟩))
  | union parts hsubject hmem hindex htag hguard _ _ ihp iht =>
    rw [Encoder.isSound, Bool.and_eq_true] at hs
    have hbranch : ∀ q ∈ parts, q.2.tagged.isSound functions = true ∧ q.2.plain.isSound functions = true :=
      fun q hq => (Encoder.branchesSound_iff.1 hs.2 _ (List.mem_map_of_mem hq)).2.2
    exact .union parts hsubject hmem hindex htag hguard
      (fun q hq => ihp q hq (hbranch q hq).2) fun q hq => iht q hq (hbranch q hq).1
  | named hn _ ih => exact .named hn (ih hs)
  | recur hk =>
    rw [Encoder.isSound, Bool.and_eq_true] at hs
    exact .recur ⟨hk, List.contains_iff_mem.1 hs.2⟩

theorem Reader.callable {g : Bool} {V : String → Prop} {d : Decoder} (h : Reader env known g V f p d)
    (hs : d.isSound functions = true) : Reader env (Callable known functions) g V f p d := by
  induction h with
  | null => exact .null
  | basic => exact .basic
  | fixed h => exact .fixed h
  | enum => exact .enum
  | array hcount hindex hitem hW _ ih =>
    rw [isSound, Bool.and_eq_true] at hs
    exact .array hcount hindex hitem hW (ih hs.2)
  | map hcount hindex hkey hW _ ih =>
    rw [isSound, Bool.and_eq_true] at hs
    exact .map hcount hindex hkey hW (ih hs.2)
  | record parts hfields hnames _ ih =>
    rw [isSound, Bool.and_eq_true] at hs
    exact .record parts hfields hnames fun q hq =>
      ih q hq (areSound_iff.1 hs.2 _ (List.mem_map_of_mem hq))
  | union hindex hW cases hcases _ ih =>
    rw [isSound, Bool.and_eq_true] at hs
    exact .union hindex hW cases hcases fun q hq =>
      ih q hq (casesSound_iff.1 hs.2 _ (List.mem_map_of_mem hq))
  | named hn _ ih => exact .named hn (ih hs)
  | recur hk =>
    rw [isSound, Bool.and_eq_true] at hs
    exact .recur ⟨hk, List.contains_iff_mem.1 hs.2⟩

namespace Code.Routine

variable {table : List (String × Routine)} {name : String} {r : Routine}

theorem mem_of_function? (h : function? table name = some r) : (functionSuffix name, r) ∈ table := by
  obtain ⟨entry, hentry, rfl⟩ := Option.map_eq_some_iff.1 h
  have hname : entry.1 = functionSuffix name := by simpa using List.find?_some hentry
  rw [← hname]
  exact List.mem_reverse.1 (List.mem_of_find?_eq_some hentry)

theorem exists_function? (h : functionSuffix name ∈ table.map (·.1)) :
    ∃ r, function? table name = some r := by
  obtain ⟨entry, hentry, hname⟩ := List.mem_map.1 h
  have hfind : (table.reverse.find? (·.1 == functionSuffix name)).isSome = true := by
    rw [List.find?_isSome]
    exact ⟨entry, List.mem_reverse.2 hentry, by simpa using hname⟩
  obtain ⟨found, hfound⟩ := Option.isSome_iff_exists.1 hfind
  exact ⟨found.2, by rw [function?, hfound]; rfl⟩

end Code.Routine

theorem ServesAll.exists_serves (h : ServesAll env known table)
    (hinj : ∀ a b, known a → known b → functionSuffix a = functionSuffix b → a = b) {name : String}
    (hname : Callable known (table.map (·.1)) name) :
    ∃ routine, Routine.function? table name = some routine ∧
      (functionSuffix name, routine) ∈ table ∧ Serves env known name routine := by
  obtain ⟨routine, hroutine⟩ := Routine.exists_function? hname.2
  have hmem := Routine.mem_of_function? hroutine
  obtain ⟨name', hsuffix, hserves⟩ := h _ hmem
  obtain rfl := hinj name name' hname.1 hserves.1 hsuffix
  exact ⟨routine, hroutine, hmem, hserves⟩

theorem ServesAll.writes_reads (h : ServesAll env known table)
    (hinj : ∀ a b, known a → known b → functionSuffix a = functionSuffix b → a = b)
    (hsound : ∀ e ∈ table, e.2.isSound (table.map (·.1)) = true) :
    WritesKnown env (Callable known (table.map (·.1))) table ∧
      ReadsKnown env (Callable known (table.map (·.1))) table := by
  constructor
  · intro name hname
    obtain ⟨routine, hroutine, hmem, -, fields, V, hfields, hV, hwriter, -⟩ :=
      h.exists_serves hinj hname
    have hs := hsound _ hmem
    rw [Routine.isSound, Bool.and_eq_true] at hs
    exact ⟨fields, routine, hfields, hroutine, hwriter.callable hs.1⟩
  · intro name hname
    obtain ⟨routine, hroutine, hmem, -, fields, V, hfields, hV, -, hreader⟩ :=
      h.exists_serves hinj hname
    have hs := hsound _ hmem
    rw [Routine.isSound, Bool.and_eq_true, isComplete, Bool.and_eq_true] at hs
    exact ⟨_, V, routine, hfields, hV, hroutine, hreader.callable hs.2.1⟩

/-- The names whose definitions the code for a schema is made from: its own, and those that its form leads to. -/
def Store.Involves (store : Store) (identifier name : String) : Prop :=
  name = identifier ∨ ∃ f g, store.form? identifier = some f ∧ Form.Part store.form? f g (.named name)

/-- A codec whose code and functions are code for a form. -/
structure Codec.Implements (codec : Codec) (env : String → Option Form) (known : String → Prop)
    (f : Form) : Prop where
  writer : Writer env known f (.of "data") codec.routine.writer
  reader : ∃ V, ¬ V "data" ∧ Reader env known true V f (.of "data") codec.routine.reader
  writes : WritesKnown env known codec.routine.functions
  reads : ReadsKnown env known codec.routine.functions

namespace Codec

variable {schemata : Schemata} {identifier : String} {codec : Codec} {store : Store}
  {registry : Schema.Registry} {recursive : String → Prop}

theorem exists_store_of_build (h : build schemata identifier = .ok codec) :
    ∃ store registry, Store.build schemata [] = (.ok store, registry) := by
  rcases hstore : Store.build schemata [] with ⟨o, registry⟩
  cases o with
  | error e =>
    rw [build, hstore] at h
    cases h
  | ok store => exact ⟨store, registry, rfl⟩

theorem build_eq_ok (hstore : Store.build schemata [] = (.ok store, registry))
    (h : build schemata identifier = .ok codec) :
    generate store registry identifier = .ok codec.routine ∧ codec.routine.compiles = true := by
  rw [build, hstore] at h
  cases hroutine : generate store registry identifier with
  | error e => simp [hroutine] at h
  | ok routine =>
    simp only [hroutine] at h
    split_ifs at h with hc
    cases h
    exact ⟨rfl, hc⟩

theorem exists_of_fst {α β : Type} {p : α × β} {a : α} (h : p.1 = a) : ∃ b, p = (a, b) := by
  obtain ⟨a', b⟩ := p
  exact ⟨b, by rw [← h]⟩

theorem exists_routine_of_generate {routine : Routine} (h : generate store registry identifier = .ok routine) :
    ∃ x registry' t, store.load identifier identifier registry = (.ok x, registry') ∧
      Gen.routine (.upTo (Generator.reach store x)) x { store } (.new identifier registry') = (.ok routine, t) := by
  obtain ⟨t, hrun⟩ := exists_of_fst h
  obtain ⟨x, _, hload, hrun⟩ := Gen.bind_eq_ok.1 hrun
  obtain ⟨_, _, hr, hmade⟩ := Gen.bind_eq_ok.1 hrun
  cases hr
  obtain ⟨registry', hx, rfl⟩ := Gen.withRegistry_eq_ok hload
  exact ⟨x, registry', t, hx, hmade⟩

theorem generate_eq_ok (hσ : Setting.Holds { store } recursive f) (hu : store.Unambiguous identifier)
    (hf : store.form? identifier = some f) {routine : Routine}
    (h : generate store registry identifier = .ok routine) :
    Writer store.form? recursive f (.of "data") routine.writer ∧
      (∃ V, ¬ V "data" ∧ Reader store.form? recursive true V f (.of "data") routine.reader) ∧
      ServesAll store.form? recursive routine.functions := by
  obtain ⟨schema, registry', t, hloaded, hmade⟩ := exists_routine_of_generate h
  have hschema := hu _ _ _ _ _ hloaded hf
  obtain ⟨hwriter, hreader, hserves, -⟩ :=
    Gen.routine_eq_ok (Recursion.sound_upTo hσ _) .self hschema hmade
  refine ⟨hwriter, hreader, hserves ?_⟩
  intro e he
  cases he

/-- A codec for a schema of the format is code for its form. -/
theorem implements_of_build (hstore : Store.build schemata [] = (.ok store, registry))
    (hbuild : build schemata identifier = .ok codec)
    (hsingle : ∀ name, store.Involves identifier name → Schema.Single schemata name)
    (hf : store.form? identifier = some f) (hformat : store.Format recursive f)
    (hinj : ∀ a b, recursive a → recursive b → functionSuffix a = functionSuffix b → a = b) :
    ∃ known, codec.Implements store.form? known f := by
  obtain ⟨hgenerate, hcompiles⟩ := build_eq_ok hstore hbuild
  have hu : ∀ {name}, store.Involves identifier name → store.Unambiguous name :=
    fun hname => Store.unambiguous_of_single hstore (hsingle _ hname)
  have hσ : Setting.Holds { store } recursive f :=
    ⟨hformat, fun hpart => hu (.inr ⟨_, _, hf, hpart⟩), fun _ => Store.hasDot_of_contains hstore⟩
  obtain ⟨hwriter, ⟨V, hV, hreader⟩, hserves⟩ := generate_eq_ok hσ (hu (.inl rfl)) hf hgenerate
  simp only [Routine.compiles, Routine.isSound, isComplete, Bool.and_eq_true] at hcompiles
  obtain ⟨hwrites, hreads⟩ := hserves.writes_reads hinj (List.all_eq_true.1 hcompiles.2)
  exact ⟨_, hwriter.callable hcompiles.1.1, ⟨V, hV, hreader.callable hcompiles.1.2.1⟩, hwrites, hreads⟩

theorem exists_ok {ε α : Type} {x : Except ε α} (h : x.toBool = true) : ∃ a, x = .ok a := by
  cases x with
  | error e => cases h
  | ok a => exact ⟨a, rfl⟩

theorem exists_store (schemata : Schemata) (P : Store → Prop) [DecidablePred P]
    (h : (match Store.build schemata [] with
      | (.ok store, _) => decide (P store)
      | (.error _, _) => false) = true) :
    ∃ store registry, Store.build schemata [] = (.ok store, registry) ∧ P store := by
  split at h
  next store registry hstore => exact ⟨store, registry, hstore, of_decide_eq_true h⟩
  next => cases h

end Codec

end AvroCodec
