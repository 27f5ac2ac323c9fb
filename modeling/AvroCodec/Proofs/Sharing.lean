import AvroCodec.Proofs.Deeper
import AvroCodec.Proofs.TextTags
import AvroCodec.Proofs.Uniting
import Mathlib.Algebra.Order.BigOperators.Group.List

/-!
# Codecs that share recursive types

Two codecs over one store both have functions for the recursive types that both of them meet. If one codec
meets all types that the other one meets, then its functions do what those of the other do, and it follows
calls at least as far.
-/

namespace AvroCodec

open Code Gen Routine

/-- The functions of recursive types have names of their own. -/
def Store.SuffixesApart (store : Store) : Prop :=
  ∀ a b, store.isCycleStarting a = true → store.isCycleStarting b = true → functionSuffix a = functionSuffix b → a = b

theorem Store.suffixesApart_of_cycles {store : Store} (h : ∀ a ∈ store.cycles, ∀ b ∈ store.cycles,
    functionSuffix a = functionSuffix b → a = b) : store.SuffixesApart :=
  fun a b ha hb => h a (List.contains_iff_mem.1 ha) b (List.contains_iff_mem.1 hb)

/-- What functions have to put in, with the names of the functions. -/
def Code.Routine.weights (table : List (String × Routine)) : List (String × Nat) :=
  table.map fun f => (f.1, f.2.writer.defaultWeight)

namespace Store

variable {store : Store} {extended : Bool} {known known' : String → Prop} {schemata : Schemata}
  {g g' : Schema.Registry} {name : String} {handled handled' : List String} {table table' : List (String × Routine)}
  {d : Json} {mode : Mode}

theorem MadeIn.imp {n : Nat} (h : store.MadeIn extended known mode n d)
    (hle : ∀ name, known name → known' name) : store.MadeIn extended known' mode n d := by
  obtain ⟨x, p, s, t, a, hx, ha, hall⟩ := h
  exact ⟨x, p, s, t, a, hx, ha, fun name hname => hle name (hall name hname)⟩

theorem MadeIn.alike {n : Nat} {d' : Json} (h : store.MadeIn extended known mode n d)
    (halike : d.Alike d') : store.MadeIn extended known mode n d' := by
  obtain ⟨x, p, s, t, a, hx, hrun⟩ := h
  exact ⟨x, p, s, t, a, halike.symm.trans hx, hrun⟩

theorem exists_madeIn {p q : Place} {a : Encoder} {b : Decoder} (ha : Setting.Encodes ⟨store, extended⟩ known d p a)
    (hb : Setting.Decodes ⟨store, extended⟩ known d q b) (mode : Mode) : ∃ n, store.MadeIn extended known mode n d := by
  obtain ⟨x, n, s, t, hx, hrun, hall⟩ := ha
  obtain ⟨y, m, s', t', hy, hrun', hall'⟩ := hb
  cases mode with
  | write => exact ⟨n, x, p, s, t, a, hx, hrun, hall⟩
  | read => exact ⟨m, y, q, s', t', b, hy, hrun', hall'⟩

theorem Tabled.functionSuffix_mem (ht : store.Tabled extended [] handled table) (hname : name ∈ handled) :
    functionSuffix name ∈ table.map (·.1) := by
  rcases ht.made name hname with hpending | ⟨r, hr, -⟩
  · cases hpending
  · exact List.mem_map.2 ⟨_, hr, rfl⟩

theorem Tabled.exists_function (ht : store.Tabled extended [] handled table) (hname : name ∈ handled)
    (hother : ∀ a ∈ handled, functionSuffix a = functionSuffix name → a = name) :
    ∃ r, function? table name = some r ∧ (functionSuffix name, r) ∈ table ∧
      store.Coded extended (· ∈ handled) name r := by
  obtain ⟨r, hr⟩ := exists_function? (ht.functionSuffix_mem hname)
  have hmem := mem_of_function? hr
  obtain ⟨a, ha, hsuffix, hcoded⟩ := ht.coded _ hmem
  cases hother a ha hsuffix
  exact ⟨r, hr, hmem, hcoded⟩

theorem Tabled.apart (ht : store.Tabled extended [] handled table) (hinj : store.SuffixesApart)
    (hname : name ∈ handled) : ∀ a ∈ handled, functionSuffix a = functionSuffix name → a = name :=
  fun a ha => hinj a name (ht.recursive a ha) (ht.recursive name hname)

variable (h : Store.build schemata g = (.ok store, g')) (hc : store.Consistent)
include h hc

theorem knowable_of_tabled (hknown : ∀ name, known name → ∃ handled table, store.Tabled extended [] handled table ∧
    name ∈ handled ∧ ∀ a ∈ handled, known a) : store.Knowable extended known := by
  intro name hname
  obtain ⟨handled, table, ht, hmem, hall⟩ := hknown name hname
  rcases ht.made name hmem with hpending | ⟨r, -, hr⟩
  · cases hpending
  · obtain ⟨d, hd, hwriter, hreader⟩ := hr.exists_definition h hc
    refine ⟨d, hd, fun mode => ?_⟩
    obtain ⟨n, hmade⟩ := exists_madeIn hwriter hreader mode
    exact ⟨n, hmade.imp hall⟩

theorem Coded.copied {r r' : Routine} (hr : store.Coded extended known name r)
    (hr' : store.Coded extended known' name r') : Encoder.Copied (.of "data") (.of "data") r.writer r'.writer := by
  obtain ⟨d, hd, hwriter, -⟩ := hr.exists_definition h hc
  obtain ⟨d', hd', hwriter', -⟩ := hr'.exists_definition h hc
  cases hd.symm.trans hd'
  exact copied_of_encodes h hc hwriter hwriter' (.refl d)

theorem agree_writeCall (ht : store.Tabled extended [] handled table) (ht' : store.Tabled extended [] handled' table')
    (hinj : store.SuffixesApart) (hsub : handled ⊆ handled')
    (htexts : ∀ f ∈ table, f.2.writer.hasTextTags = true) (depth : Nat) :
    ∀ name ∈ handled, AgreeOnTexts (writeCall table depth name) (writeCall table' depth name) := by
  induction depth with
  | zero => exact fun name _ v hv => .same hv (.error .endless)
  | succ depth ih =>
    intro name hname v hv
    obtain ⟨r, hr, hmem, hcoded⟩ := ht.exists_function hname (ht.apart hinj hname)
    obtain ⟨r', hr', -, hcoded'⟩ := ht'.exists_function (hsub hname) (ht'.apart hinj (hsub hname))
    rw [writeCall, writeCall, hr, hr']
    refine Encoder.agree_of_copied (hcoded.copied h hc hcoded') (htexts _ hmem) (fun a ha => ?_) v hv
    exact ih a (hcoded.writer a ha)

theorem subperm_weights (ht : store.Tabled extended [] handled table) (ht' : store.Tabled extended [] handled' table')
    (hinj : store.SuffixesApart) (hsub : handled ⊆ handled') : (weights table).Subperm (weights table') := by
  have hnodup : (weights table).Nodup := by
    refine List.Nodup.of_map Prod.fst ?_
    have hnames : (weights table).map Prod.fst = table.map (·.1) := by
      rw [weights, List.map_map]
      rfl
    have hperm := ht.functions
    rw [List.map_nil, List.append_nil] at hperm
    rw [hnames, hperm.nodup_iff]
    exact ht.nodup.map_on fun a ha b hb hab => ht.apart hinj hb a ha hab
  refine List.subperm_of_subset hnodup ?_
  intro w hw
  obtain ⟨f, hf, rfl⟩ := List.mem_map.1 hw
  obtain ⟨a, ha, hsuffix, hcoded⟩ := ht.coded f hf
  obtain ⟨r, -, hmem, hcoded'⟩ := ht'.exists_function (hsub ha) (ht'.apart hinj (hsub ha))
  refine List.mem_map.2 ⟨_, hmem, ?_⟩
  rw [← hsuffix, ((hcoded.copied h hc hcoded').same rfl).weight]

end Store

namespace Code.Routine

theorem foldr_weight (table : List (String × Routine)) (n : Nat) :
    table.foldr (fun f n => f.2.writer.defaultWeight + n) n = ((weights table).map Prod.snd).sum + n := by
  induction table with
  | nil => exact (Nat.zero_add n).symm
  | cons f table ih =>
    rw [List.foldr_cons, ih, ← Nat.add_assoc]
    rfl

theorem writeBound_le {r r' : Routine} (hfunctions : (weights r.functions).Subperm (weights r'.functions))
    (hwriter : r.writer.defaultWeight ≤ r'.writer.defaultWeight) (v : Value) : r.writeBound v ≤ r'.writeBound v := by
  have hlength : r.functions.length ≤ r'.functions.length := by
    simpa [weights] using hfunctions.length_le
  have hsum : ((weights r.functions).map Prod.snd).sum ≤ ((weights r'.functions).map Prod.snd).sum := by
    obtain ⟨l, hperm, hsublist⟩ := hfunctions
    rw [← (hperm.map Prod.snd).sum_eq]
    exact (hsublist.map Prod.snd).sum_le_sum fun _ _ => Nat.zero_le _
  unfold writeBound
  simp only [foldr_weight]
  exact Nat.succ_le_succ (Nat.mul_le_mul (by omega) (by omega))

end Code.Routine

end AvroCodec
