import AvroCodec.Proofs.Generated
import AvroCodec.Proofs.Hygiene

/-!
# The variables of code that reads

A generator never draws a variable twice, so no two loops of code that reads have the same variable.
-/

namespace AvroCodec

open Code

theorem Gen.eq_of_checkHandled {σ : Setting} {s t : Generator} {u : Unit} (h : checkHandled σ s = (.ok u, t)) : t = s :=
  (checkHandled_eq_ok.1 h).1

open Gen

namespace Code.Decoder

/-- What code that reads does about variables: whether it assigns the one that it works on, and whether all its loops
over items assign their own. -/
structure Slots where
  assigns : Bool
  fed : Bool

namespace Slots

def append (s s' : Slots) : Slots := ⟨s.assigns || s'.assigns, s.fed && s'.fed⟩

def leaf (p : Place) : Slots := ⟨p.path.isEmpty, true⟩

end Slots

mutual

def slots : Decoder → Slots
  | .record place parts => (Slots.leaf place).append (slotsParts parts)
  | .array place _ _ _ body => ⟨place.path.isEmpty, (slots body).assigns && (slots body).fed⟩
  | .map place _ _ _ body => (Slots.leaf place).append (slots body)
  | .union _ _ _ cases => slotsCases cases
  | .null place | .primitive _ _ place | .logical _ place | .enum place _ | .recur _ place => .leaf place

def slotsParts : List Decoder → Slots
  | [] => ⟨false, true⟩
  | d :: ds => (slots d).append (slotsParts ds)

def slotsCases : List (Json × Decoder) → Slots
  | [] => ⟨false, true⟩
  | (_, d) :: rest => (slots d).append (slotsCases rest)

end

/-- What code that works on a variable uses and assigns, if its loops have variables that were drawn between two
counts. All that it uses is assigned if and only if every loop assigns its own variable. -/
structure Slots.Drawn (x : String) (i j : Nat) (used assigned : List String) (s : Slots) : Prop where
  le : i ≤ j
  root : s.assigns = true → x ∈ assigned
  used_subset : s.fed = true → used ⊆ x :: assigned
  assigned_cases : ∀ y ∈ assigned, y = x ∧ s.assigns = true ∨ (∃ k, i ≤ k ∧ k < j ∧ y = variableName "val" k) ∨
    ∃ k, y = variableName "key" k
  fed : (∀ k, i ≤ k → x ≠ variableName "val" k) → ∀ {all : List String}, used ⊆ all →
    (∀ k, i ≤ k → k < j → variableName "val" k ∈ all → variableName "val" k ∈ assigned) → s.fed = true

theorem mem_target {p : Place} {y : String} : y ∈ target p ↔ y = p.root ∧ p.path.isEmpty = true := by
  unfold target
  split_ifs with h
  · simp [h]
  · simp [h]

namespace Slots.Drawn

variable {i j k n : Nat} {x : String} {used used' assigned assigned' : List String} {s s' : Slots}

theorem between (h : Drawn x i j used assigned s) (hn : variableName "val" n ∈ assigned)
    (hx : x ≠ variableName "val" n) : i ≤ n ∧ n < j := by
  rcases h.assigned_cases _ hn with ⟨heq, -⟩ | ⟨k, hi, hj, heq⟩ | ⟨k, heq⟩
  · exact absurd heq.symm hx
  · exact (variableName_inj.1 heq).2 ▸ ⟨hi, hj⟩
  · exact absurd (variableName_inj.1 heq).1 (by decide)

theorem mono {i' j' : Nat} (h : Drawn x i' j' used assigned s) (hi : i ≤ i') (hj : j' ≤ j) :
    Drawn x i j used assigned s where
  le := hi.trans (h.le.trans hj)
  root := h.root
  used_subset := h.used_subset
  assigned_cases y hy := (h.assigned_cases y hy).imp_right
    (.imp_left fun ⟨k, hik, hkj, heq⟩ => ⟨k, hi.trans hik, hkj.trans_le hj, heq⟩)
  fed hx _ hused hall := h.fed (fun k hk => hx k (hi.trans hk)) hused
    fun k hik hkj => hall k (hi.trans hik) (hkj.trans_le hj)

theorem none : Drawn x i i [] [] ⟨false, true⟩ :=
  ⟨le_rfl, nofun, fun _ => List.nil_subset _, fun _ h => absurd h List.not_mem_nil, fun _ _ _ _ => rfl⟩

theorem leaf (p : Place) (i : Nat) : Drawn p.root i i [p.root] (target p) (.leaf p) where
  le := le_rfl
  root ha := mem_target.2 ⟨rfl, ha⟩
  used_subset _ := List.cons_subset.2 ⟨List.mem_cons_self, List.nil_subset _⟩
  assigned_cases _ hy := .inl (mem_target.1 hy)
  fed _ _ _ _ := rfl

theorem append (h : Drawn x i j used assigned s) (h' : Drawn x j k used' assigned' s') :
    Drawn x i k (used ++ used') (assigned ++ assigned') (s.append s') where
  le := h.le.trans h'.le
  root ha := by
    rcases Bool.or_eq_true_iff.1 ha with ha | ha
    · exact List.mem_append_left _ (h.root ha)
    · exact List.mem_append_right _ (h'.root ha)
  used_subset hfed := by
    obtain ⟨hfed, hfed'⟩ := Bool.and_eq_true_iff.1 hfed
    refine List.append_subset.2 ⟨List.Subset.trans (h.used_subset hfed) ?_, List.Subset.trans (h'.used_subset hfed') ?_⟩
    · exact List.cons_subset_cons _ (List.subset_append_left _ _)
    · exact List.cons_subset_cons _ (List.subset_append_right _ _)
  assigned_cases y hy := by
    simp only [Slots.append, Bool.or_eq_true]
    rcases List.mem_append.1 hy with hy | hy
    · rcases h.assigned_cases y hy with ⟨rfl, ha⟩ | ⟨n, hi, hj, rfl⟩ | hkey
      · exact .inl ⟨rfl, .inl ha⟩
      · exact .inr (.inl ⟨n, hi, hj.trans_le h'.le, rfl⟩)
      · exact .inr (.inr hkey)
    · rcases h'.assigned_cases y hy with ⟨rfl, ha⟩ | ⟨n, hi, hj, rfl⟩ | hkey
      · exact .inl ⟨rfl, .inr ha⟩
      · exact .inr (.inl ⟨n, h.le.trans hi, hj, rfl⟩)
      · exact .inr (.inr hkey)
  fed hx all hused hall := by
    obtain ⟨hused, hused'⟩ := List.append_subset.1 hused
    refine Bool.and_eq_true_iff.2 ⟨h.fed hx hused fun n hi hj hn => ?_,
      h'.fed (fun n hn => hx n (h.le.trans hn)) hused' fun n hi hj hn => ?_⟩
    · refine (List.mem_append.1 (hall n hi (hj.trans_le h'.le) hn)).resolve_right fun hmem => ?_
      exact absurd (h'.between hmem (hx n hi)).1 (Nat.not_le.2 hj)
    · refine (List.mem_append.1 (hall n (h.le.trans hi) hj hn)).resolve_left fun hmem => ?_
      exact absurd (h.between hmem (hx n (h.le.trans hi))).2 (Nat.not_lt.2 hi)

/-- A loop whose variable was drawn first. -/
theorem loop (p : Place) (h : Drawn (variableName "val" i) (i + 1) j used assigned s) :
    Drawn p.root i j (p.root :: variableName "val" i :: used) (target p ++ assigned)
      ⟨p.path.isEmpty, s.assigns && s.fed⟩ where
  le := Nat.le_of_succ_le h.le
  root ha := List.mem_append_left _ (mem_target.2 ⟨rfl, ha⟩)
  used_subset hfed := by
    obtain ⟨ha, hfed⟩ := Bool.and_eq_true_iff.1 hfed
    have hall : variableName "val" i :: assigned ⊆ p.root :: (target p ++ assigned) :=
      List.cons_subset.2 ⟨List.mem_cons_of_mem _ (List.mem_append_right _ (h.root ha)),
        List.subset_cons_of_subset _ (List.subset_append_right _ _)⟩
    exact List.cons_subset.2 ⟨List.mem_cons_self, List.cons_subset.2 ⟨hall List.mem_cons_self,
      List.Subset.trans (h.used_subset hfed) hall⟩⟩
  assigned_cases y hy := by
    rcases List.mem_append.1 hy with hy | hy
    · exact .inl (mem_target.1 hy)
    · refine .inr ((h.assigned_cases y hy).elim (fun heq => .inl ⟨i, le_rfl, h.le, heq.1⟩) (.imp_left ?_))
      exact fun ⟨k, hi, hj, heq⟩ => ⟨k, Nat.le_of_succ_le hi, hj, heq⟩
  fed hx all hused hall := by
    obtain ⟨hitem, hused⟩ := List.cons_subset.1 (List.cons_subset.1 hused).2
    have hbody : ∀ n, i ≤ n → n < j → variableName "val" n ∈ all → variableName "val" n ∈ assigned :=
      fun n hi hj hn => (List.mem_append.1 (hall n hi hj hn)).resolve_left
        fun hmem => hx n hi (mem_target.1 hmem).1.symm
    refine Bool.and_eq_true_iff.2 ⟨?_, h.fed (fun n hn heq => ?_) hused fun n hi => hbody n (Nat.le_of_succ_le hi)⟩
    · rcases h.assigned_cases _ (hbody i le_rfl h.le hitem) with ⟨-, ha⟩ | ⟨n, hn, -, heq⟩ | ⟨n, heq⟩
      · exact ha
      · exact absurd ((variableName_inj.1 heq).2 ▸ hn) (Nat.not_succ_le_self i)
      · exact absurd (variableName_inj.1 heq).1 (by decide)
    · exact absurd ((variableName_inj.1 heq).2 ▸ hn) (Nat.not_succ_le_self i)

theorem keyed (h : Drawn x i j used assigned s) (n : Nat) :
    Drawn x i j used (variableName "key" n :: assigned) s where
  le := h.le
  root ha := List.mem_cons_of_mem _ (h.root ha)
  used_subset hfed := List.Subset.trans (h.used_subset hfed) (List.cons_subset_cons _ (List.subset_cons_self _ _))
  assigned_cases y hy := by
    rcases List.mem_cons.1 hy with rfl | hy
    · exact .inr (.inr ⟨n, rfl⟩)
    · exact h.assigned_cases y hy
  fed hx _ hused hall := h.fed hx hused fun k hi hj hk =>
    (List.mem_cons.1 (hall k hi hj hk)).resolve_left fun heq =>
      absurd (variableName_inj.1 heq).1 (by decide)

end Slots.Drawn

/-- All that code uses is assigned if and only if a value is read to the variable that is returned and to that of every
loop. -/
theorem assigned_iff {i j : Nat} {d : Decoder} (h : d.slots.Drawn "data" i j d.used d.assigned) :
    "data" :: d.used ⊆ d.assigned ↔ d.slots.assigns = true ∧ d.slots.fed = true := by
  have hdata : ∀ kind n, kind ∈ ["val", "key"] → "data" ≠ variableName kind n := by
    intro kind n hkind heq
    have hlist := congrArg String.toList heq
    simp only [List.mem_cons, List.not_mem_nil, or_false] at hkind
    rcases hkind with rfl | rfl <;> simp [variableName] at hlist
  constructor
  · intro hall
    obtain ⟨hroot, hused⟩ := List.cons_subset.1 hall
    refine ⟨?_, h.fed (fun n _ => hdata _ n (by decide)) hused fun _ _ _ hn => hn⟩
    rcases h.assigned_cases _ hroot with ⟨-, ha⟩ | ⟨n, -, -, heq⟩ | ⟨n, heq⟩
    · exact ha
    · exact absurd heq (hdata _ n (by decide))
    · exact absurd heq (hdata _ n (by decide))
  · rintro ⟨ha, hfed⟩
    exact List.cons_subset.2 ⟨h.root ha, List.Subset.trans (h.used_subset hfed)
      (List.cons_subset.2 ⟨h.root ha, List.Subset.refl _⟩)⟩

theorem isComplete_iff {d : Decoder} {functions : List String} : d.isComplete functions = true ↔
    d.isSound functions = true ∧ "data" :: d.used ⊆ d.assigned := by
  rw [isComplete, Bool.and_eq_true, List.all_eq_true]
  refine and_congr_right fun _ => forall₂_congr fun y _ => ?_
  exact List.contains_iff_mem

end Code.Decoder

namespace Gen

variable {σ : Setting} {p : Place} {w w' : Counters}

abbrev Drawn (p : Place) (w w' : Counters) (a : Decoder) : Prop :=
  a.slots.Drawn p.root w.values w'.values a.used a.assigned

theorem drawn_cases {types types' : List Json} {cs cs' : List (Json × Decoder)} {q : Place}
    (h : Chain (Lockstep.Cases (fun w w' _ _ p _ a _ => Drawn p w w' a) p q) w w' types types' cs cs') :
    (Decoder.slotsCases cs).Drawn p.root w.values w'.values (Decoder.usedCases cs) (Decoder.assignedCases cs) := by
  induction h with
  | nil => exact .none
  | cons _ hc _ ih => exact hc.2.2.2.append ih

theorem drawn_parts {xs ys : List Json} {as bs : List Decoder}
    (h : Chain (fun w w' _ _ a _ => Drawn p w w' a) w w' xs ys as bs) :
    (Decoder.slotsParts as).Drawn p.root w.values w'.values (Decoder.usedParts as) (Decoder.assignedParts as) := by
  induction h with
  | nil => exact .none
  | cons _ ha _ ih => exact Decoder.Slots.Drawn.append ha ih

/-- The rules of code whose loops have different variables. -/
theorem drawing : (tracing σ kept_grows).ReaderRules (· = ·) Eq (fun _ _ => True)
    (fun w w' _ _ p _ a _ => Drawn p w w' a) fun w w' _ _ p _ a _ => Drawn p w w' a where
  mono hw hw₁ h := h.mono (hw "val") (hw₁ "val")
  null _ := .leaf _ _
  primitive _ _ _ _ := .leaf _ _
  fixed _ _ _ _ := .leaf _ _
  basic {_ d _ p _ _} _ _ _ _ := by
    have hroot : (Parallel.ownPlace d p).root = p.root := by
      rw [Parallel.ownPlace]
      split_ifs <;> rfl
    rw [Drawn, ← hroot]
    exact .leaf _ _
  recur _ _ _ hw _ := (Decoder.Slots.Drawn.leaf _ _).mono le_rfl (hw "val")
  loaded _ _ _ h := h
  reference _ _ _ _ _ h := h
  logical _ _ _ _ := .leaf _ _
  record _ _ _ _ _ h := (Decoder.Slots.Drawn.leaf _ _).append (drawn_parts h)
  array _ _ hij hkl hmn _ _ h := by
    obtain ⟨w₁, w₂, hw₁, ⟨rfl, hdrew⟩, hw₂⟩ := hmn
    have hbody := h.mono (hdrew.next.ge.trans (hw₂ "val")) le_rfl
    have hw := (drawn_of_draws hij).1.trans ((drawn_of_draws hkl).1.trans hw₁)
    exact (hbody.loop _).mono ((hw "val").trans hdrew.eq.ge) le_rfl
  enum _ _ _ _ := .leaf _ _
  map {_ _ _ _ _ _ _ p _ i _ _ _ _ _ _ a _} _ _ hij hkl hmn _ _ h := by
    have hw := (drawn_of_draws hij).1.trans ((drawn_of_draws hkl).1.trans (drawn_of_draws hmn).1)
    have hall := ((Decoder.Slots.Drawn.leaf p _).append (h.keyed i)).mono (hw "val") le_rfl
    rw [Drawn, Decoder.assigned, List.append_assoc]
    exact hall
  union _ _ hmn h := (drawn_cases h).mono ((drawn_of_draws hmn).1 "val") le_rfl
  unionField _ _ _ _ hmn h := (drawn_cases h).mono ((drawn_of_draws hmn).1 "val") le_rfl
  nested _ _ _ _ h := h

end Gen

namespace Recursion

variable {store : Store} {extended : Bool}
  (hdotted : ∀ {name}, store.contains name = true → Schema.hasDot name = true) (n : Nat)
include hdotted

theorem hygienic_checked : (checked n).Hygienic ⟨store, extended⟩ :=
  hygienic_visited hdotted eq_of_checkHandled n

/-- The loops of code that reads have different variables. -/
theorem drawn_checked {d : Json} {p : Place} {s t : Generator} {a : Decoder}
    (ha : (checked n).decode d p ⟨store, extended⟩ s = (.ok a, t)) : Gen.Drawn p s.counters t.counters a := by
  induction n generalizing d p s t a with
  | zero => exact (throw_eq_ok.1 ha).elim
  | succ n ih =>
    have hmake : (checked n).Hygienic ⟨store, extended⟩ := hygienic_checked hdotted n
    have hreading : (tracing ⟨store, extended⟩ kept_grows).Reading (· = ·) (fun _ _ => True) (fun _ _ => True)
        (checked n) (checked n) Eq (fun w w' _ _ p _ a _ => Gen.Drawn p w w' a)
          fun w w' _ _ p _ a _ => Gen.Drawn p w w' a :=
      { toPremises := hmake.premises hdotted
        rules := drawing
        decode := by
          rintro w d d' p _ - rfl s t a rfl ha
          exact ⟨hmake.grows .read d p ha, a, ih ha⟩
        value := fun h => h.1 ▸ rfl
        entry := fun hpq h => hpq ▸ h.1 ▸ rfl
        member := fun hpq => hpq ▸ rfl }
    obtain ⟨-, _, hdrawn⟩ := hreading.decodeStep (w := s.counters) (p := p) rfl rfl rfl
      (visiting_eq_ok eq_of_checkHandled ha)
    exact hdrawn

end Recursion

end AvroCodec
