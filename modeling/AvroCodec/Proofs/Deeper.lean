import AvroCodec.Codec
import AvroCodec.Proofs.Selection

/-!
# Following more calls

Functions that call one another are followed up to a depth. What is written does not depend on the depth,
unless it is the failure of calls that were followed no further.
-/

namespace AvroCodec

open Code

variable {α : Type}

/-- What was left and what was written stay the same, unless calls were followed no further. After another
failure nothing is said of what is left. -/
structure Lasting (a a' : α) (o o' : Except CodecError Effect) : Prop where
  result_eq : o ≠ .error .endless → o' = o
  value_eq : ∀ eff, o = .ok eff → a' = a

def Written.Lasts (w w' : Written) : Prop := Lasting w.value w'.value w.result w'.result

namespace Lasting

variable {a a' : α} {o o' : Except CodecError Effect}

theorem refl (a : α) (o : Except CodecError Effect) : Lasting a a o o := ⟨fun _ => rfl, fun _ _ => rfl⟩

theorem error (a a' : α) (e : CodecError) : Lasting a a' (.error e) (.error e) :=
  ⟨fun _ => rfl, fun _ h => by cases h⟩

theorem map {β : Type} (h : Lasting a a' o o') (g : α → β) (f : Effect → Effect) :
    Lasting (g a) (g a') (o.map f) (o'.map f) := by
  constructor
  · intro hne
    rw [h.result_eq]
    rintro rfl
    exact hne rfl
  · intro eff heff
    cases o with
    | error e => cases heff
    | ok eff' => rw [h.value_eq eff' rfl]

theorem of_endless (h : o = .error .endless) : Lasting a a' o o' :=
  ⟨fun hne => absurd h hne, fun _ heff => by rw [h] at heff; cases heff⟩

theorem cases (h : Lasting a a' o o') : o = .error .endless ∨ o' = o := by
  by_cases he : o = .error .endless
  · exact .inl he
  · exact .inr (h.result_eq he)

end Lasting

namespace Written

variable {w w' : Written} {f f' : Value → Written}

theorem Lasts.andThen (h : w.Lasts w') (hf : ∀ v, (f v).Lasts (f' v)) :
    (w.andThen f).Lasts (w'.andThen f') := by
  rcases h.cases with hendless | hsame
  · refine .of_endless ?_
    simp only [Written.andThen, hendless]
  · unfold Written.andThen
    rw [hsame]
    cases hresult : w.result with
    | error e =>
      change Lasting _ _ w.result w'.result
      rw [hsame, hresult]
      exact .error _ _ e
    | ok front =>
      rw [h.value_eq front hresult]
      exact (hf w.value).map id front.andThen

end Written

namespace Code.Encoder

variable {f f' : Value → Written}

theorem inside_lasts (path : List String) (v : Value) (h : ∀ x, (f x).Lasts (f' x)) :
    (inside path f v).Lasts (inside path f' v) := by
  unfold inside
  cases v.walk path with
  | error e => exact .error _ _ e
  | ok x => exact ⟨(h x).result_eq, fun eff heff => by simp only [(h x).value_eq eff heff]⟩

theorem writeItems_lasting (h : ∀ x, (f x).Lasts (f' x)) (items : List Value) :
    Lasting (writeItems f items).1 (writeItems f' items).1 (writeItems f items).2 (writeItems f' items).2 := by
  induction items with
  | nil => exact .refl _ _
  | cons v items ih =>
    rcases (h v).cases with hendless | hsame
    · refine .of_endless ?_
      simp only [writeItems, hendless]
    · simp only [writeItems, hsame]
      cases hresult : (f v).result with
      | error e => exact .error _ _ e
      | ok front =>
        simp only [(h v).value_eq front hresult]
        exact ih.map (kept v (f v).value :: ·) front.andThen

theorem writeEntries_lasting (h : ∀ x, (f x).Lasts (f' x)) (entries : List (Value × Value)) :
    Lasting (writeEntries f entries).1 (writeEntries f' entries).1 (writeEntries f entries).2
      (writeEntries f' entries).2 := by
  induction entries with
  | nil => exact .refl _ _
  | cons entry entries ih =>
    obtain ⟨k, v⟩ := entry
    cases hkey : Primitive.writeString k with
    | error e =>
      simp only [writeEntries, hkey]
      exact .error _ _ e
    | ok key =>
      rcases (h v).cases with hendless | hsame
      · refine .of_endless ?_
        simp only [writeEntries, hkey, hendless]
      · simp only [writeEntries, hkey, hsame]
        cases hresult : (f v).result with
        | error e => exact .error _ _ e
        | ok front =>
          simp only [(h v).value_eq front hresult]
          exact ih.map ((k, kept v (f v).value) :: ·) _

theorem lasting_writeCounted {α : Type} {a a' : α} {o o' : Except CodecError Effect} (h : Lasting a a' o o')
    (count : Nat) (hempty : count = 0 → a' = a) :
    Lasting a a' (writeCounted count o) (writeCounted count o') := by
  unfold writeCounted
  split_ifs with hcount
  · rw [hempty hcount]
    exact .refl _ _
  · cases Varint.encode count with
    | error e => exact .error _ _ e
    | ok front =>
      rcases h.cases with hendless | hsame
      · rw [hendless]
        exact .of_endless rfl
      · rw [hsame]
        refine ⟨fun _ => rfl, fun eff heff => ?_⟩
        cases ho : o with
        | error e => rw [ho] at heff; cases heff
        | ok body => exact h.value_eq body ho

theorem writeArray_lasts (h : ∀ x, (f x).Lasts (f' x)) (v : Value) : (writeArray f v).Lasts (writeArray f' v) := by
  unfold writeArray
  cases hitems : v.elements? with
  | none => exact .error _ _ _
  | some items =>
    have hall := lasting_writeCounted (writeItems_lasting h items) items.length fun hcount => by
      rw [List.eq_nil_of_length_eq_zero hcount]
      rfl
    exact ⟨hall.result_eq, fun eff heff => congrArg (replaceElements · v) (hall.value_eq eff heff)⟩

theorem writeMap_lasts (h : ∀ x, (f x).Lasts (f' x)) (v : Value) : (writeMap f v).Lasts (writeMap f' v) := by
  unfold writeMap
  split
  next entries =>
    have hall := lasting_writeCounted (writeEntries_lasting h entries) entries.length fun hcount => by
      rw [List.eq_nil_of_length_eq_zero hcount]
      rfl
    exact ⟨hall.result_eq, fun eff heff => congrArg Value.map (hall.value_eq eff heff)⟩
  next => exact .error _ _ _
  next => exact .error _ _ _

theorem writeBranch_lasts (index : Nat) (h : ∀ x, (f x).Lasts (f' x)) (v : Value) :
    (writeBranch index f v).Lasts (writeBranch index f' v) :=
  Written.Lasts.andThen (.refl _ _) h

section Run

variable {tags : List String} {call call' : String → Value → Written}

theorem writePair_lasts {g g' : Value → Value → Written} (h : ∀ tag x, (g tag x).Lasts (g' tag x)) (t : String)
    (items : List Value) : (writePair ⟨tags, call⟩ t g items).Lasts (writePair ⟨tags, call'⟩ t g' items) := by
  unfold writePair
  split
  next tag payload =>
    have hsame : isTag ⟨tags, call⟩ t tag = isTag ⟨tags, call'⟩ t tag := rfl
    rw [hsame]
    split_ifs
    · exact ⟨(h tag payload).result_eq, fun eff heff => by simp only [(h tag payload).value_eq eff heff]⟩
    · exact .error _ _ _
  next => exact .error _ _ _

/-- Code whose calls last. -/
theorem run_lasts (hcall : ∀ name x, (call name x).Lasts (call' name x)) (e : Encoder) (v : Value) :
    (run ⟨tags, call⟩ e v).Lasts (run ⟨tags, call'⟩ e v) := by
  induction e using induct generalizing v with
  | null | primitive | logical | enum => exact .refl _ _
  | fields parts ih =>
    rw [run, run]
    induction parts generalizing v with
    | nil => exact .refl _ _
    | cons e parts ihparts =>
      rw [List.forall_mem_cons] at ih
      rw [runParts, runParts]
      exact (ih.1 v).andThen (ihparts ih.2)
  | filled place default next ih =>
    rw [run, run]
    cases fill place.keys ((Default.value? default).getD .null) v with
    | error e => exact .error _ _ e
    | ok u => exact ih u
  | array place item body ih =>
    rw [run, run]
    exact inside_lasts _ _ (writeArray_lasts ih)
  | map place key value body ih =>
    rw [run, run]
    exact inside_lasts _ _ (writeMap_lasts ih)
  | union subject tag data branches ihtagged ihplain =>
    have htagged : ∀ t x, (runTagged ⟨tags, call⟩ t branches x).Lasts (runTagged ⟨tags, call'⟩ t branches x) :=
      fun t x => runTagged_rel t (.refl _ _) fun b hb => writeBranch_lasts b.index (ihtagged b hb) x
    have hplain : (runPlain ⟨tags, call⟩ subject branches v).Lasts (runPlain ⟨tags, call'⟩ subject branches v) :=
      runPlain_rel rfl (.error _ _) (.refl _ _) fun b hb => writeBranch_lasts b.index (ihplain b hb) v
    rw [run, run]
    cases subject.look v with
    | error e => exact .error _ _ e
    | ok u =>
      cases u with
      | tuple items =>
        have hpair : (writePair ⟨tags, call⟩ tag (fun t x => runTagged ⟨tags, call⟩ t branches x) items).Lasts
            (writePair ⟨tags, call'⟩ tag (fun t x => runTagged ⟨tags, call'⟩ t branches x) items) :=
          writePair_lasts htagged tag items
        exact ⟨hpair.result_eq, fun eff heff => by simp only [hpair.value_eq eff heff]⟩
      | _ => exact hplain
  | recur name place =>
    rw [run, run]
    exact inside_lasts _ _ fun x => (hcall name x).map id Effect.call

end Run

end Code.Encoder

namespace Code.Routine

theorem writeCall_lasts (table : List (String × Routine)) {depth depth' : Nat} (h : depth ≤ depth') (name : String)
    (v : Value) : (writeCall table depth name v).Lasts (writeCall table depth' name v) := by
  induction depth generalizing depth' name v with
  | zero => exact .of_endless rfl
  | succ depth ih =>
    cases depth' with
    | zero => cases h
    | succ depth' =>
      rw [writeCall, writeCall]
      cases function? table name with
      | none => exact .refl _ _
      | some r => exact Encoder.run_lasts (fun name x => ih (Nat.le_of_succ_le_succ h) name x) r.writer v

end Code.Routine

end AvroCodec
