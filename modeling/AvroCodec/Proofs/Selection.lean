import AvroCodec.Proofs.Path

/-!
# Which branch writes

The code of a union runs one of its branches at most. For a value without a tag it is the first whose guard lets the
value pass (`Encoder.choice`), and for a value with a tag the first that has the tag (`Encoder.labelled`).

`Encoder.induct` is induction over code, for the parts of a record and the branches of a union as members of a list.
-/

namespace AvroCodec.Code.Encoder

section Induct

variable {motive : Encoder → Prop} (null : motive .null)
  (primitive : ∀ type place, motive (.primitive type place)) (logical : ∀ type place, motive (.logical type place))
  (fields : ∀ parts, (∀ e ∈ parts, motive e) → motive (.fields parts))
  (filled : ∀ place default next, motive next → motive (.filled place default next))
  (array : ∀ place item body, motive body → motive (.array place item body))
  (enum : ∀ place symbols, motive (.enum place symbols))
  (map : ∀ place key value body, motive body → motive (.map place key value body))
  (union : ∀ subject tag data branches, (∀ b ∈ branches, motive b.tagged) → (∀ b ∈ branches, motive b.plain) →
    motive (.union subject tag data branches))
  (recur : ∀ name place, motive (.recur name place))
include null primitive logical fields filled array enum map union recur

theorem induct : ∀ e, motive e
  | .null => null
  | .primitive type place => primitive type place
  | .logical type place => logical type place
  | .fields parts => fields parts fun e _ => induct e
  | .filled place default next => filled place default next (induct next)
  | .array place item body => array place item body (induct body)
  | .enum place symbols => enum place symbols
  | .map place key value body => map place key value body (induct body)
  | .union subject tag data branches =>
    union subject tag data branches (fun b _ => induct b.tagged) fun b _ => induct b.plain
  | .recur name place => recur name place
termination_by e => sizeOf e
decreasing_by
  all_goals try decreasing_tactic
  all_goals
    have hlt := List.sizeOf_lt_of_mem ‹b ∈ branches›
    cases b
    simp only [Branch.mk.sizeOf_spec, Encoder.union.sizeOf_spec] at hlt ⊢
    omega

end Induct

/-- The branch that is chosen for a value without a tag: the first whose guard lets it pass. -/
def choice (subject : Subject) (v : Value) :
    List (Branch Encoder) → Except CodecError (Option (Branch Encoder))
  | [] => .ok none
  | b :: rest =>
    match b.guard.passes subject v with
    | .error e => .error e
    | .ok true => .ok (some b)
    | .ok false => choice subject v rest

/-- The branch with a tag. -/
def labelled (tag : Value) (branches : List (Branch Encoder)) : Option (Branch Encoder) :=
  branches.find? fun b => Value.equals (.str (literalText b.tag)) tag

variable {s : WriteScope} {subject : Subject} {v u : Value} {branches : List (Branch Encoder)} {b : Branch Encoder}

theorem runPlain_eq (s : WriteScope) (subject : Subject) (branches : List (Branch Encoder)) (v : Value) :
    runPlain s subject branches v = match choice subject v branches with
      | .error e => ⟨v, .error e⟩
      | .ok none => ⟨v, .ok .none⟩
      | .ok (some b) => writeBranch b.index (fun x => run s b.plain x) v := by
  induction branches with
  | nil =>
    rw [runPlain]
    rfl
  | cons c rest ih =>
    rw [runPlain, choice]
    cases c.guard.passes subject v with
    | error e => rfl
    | ok passes =>
      cases passes with
      | true => rfl
      | false => exact ih

theorem runTagged_eq (s : WriteScope) (tag : Value) (branches : List (Branch Encoder)) (v : Value) :
    runTagged s tag branches v = match labelled tag branches with
      | none => ⟨v, .ok .none⟩
      | some b => writeBranch b.index (fun x => run s b.tagged x) v := by
  induction branches with
  | nil =>
    rw [runTagged]
    rfl
  | cons c rest ih =>
    rw [runTagged, labelled, List.find?_cons]
    cases Value.equals (.str (literalText c.tag)) tag with
    | true => rfl
    | false => exact ih

theorem equals_of_labelled {tag : Value} (h : labelled tag branches = some b) :
    Value.equals (.str (literalText b.tag)) tag = true := by
  have hequals := List.find?_some h
  exact hequals

theorem choice_cases (subject : Subject) (v : Value) (branches : List (Branch Encoder)) :
    match choice subject v branches with
      | .error e => ∃ b ∈ branches, b.guard.passes subject v = .error e
      | .ok none => ∀ b ∈ branches, b.guard.passes subject v = .ok false
      | .ok (some b) => b ∈ branches ∧ b.guard.passes subject v = .ok true := by
  induction branches with
  | nil => exact List.forall_mem_nil _
  | cons c rest ih =>
    rw [choice]
    cases hc : c.guard.passes subject v with
    | error e => exact ⟨c, List.mem_cons_self, hc⟩
    | ok passes =>
      cases passes with
      | true => exact ⟨List.mem_cons_self, hc⟩
      | false =>
        simp only
        split at ih
        · obtain ⟨b, hb, hpasses⟩ := ih
          exact ⟨b, List.mem_cons_of_mem _ hb, hpasses⟩
        · exact List.forall_mem_cons.2 ⟨hc, ih⟩
        · exact ⟨List.mem_cons_of_mem _ ih.1, ih.2⟩

theorem mem_of_choice (h : choice subject v branches = .ok (some b)) : b ∈ branches := by
  have hcases := choice_cases subject v branches
  rw [h] at hcases
  exact hcases.1

theorem passes_of_choice (h : choice subject v branches = .ok (some b)) : b.guard.passes subject v = .ok true := by
  have hcases := choice_cases subject v branches
  rw [h] at hcases
  exact hcases.2

theorem choice_congr (h : ∀ g : Guard, g.passes subject v = g.passes subject u) :
    choice subject v branches = choice subject u branches := by
  induction branches with
  | nil => rfl
  | cons c rest ih => rw [choice, choice, h, ih]

section Rel

variable {J : Written → Written → Prop} {s' : WriteScope} {v' : Value}

theorem runPlain_rel (hchoice : choice subject v branches = choice subject v' branches)
    (herror : ∀ e, J ⟨v, .error e⟩ ⟨v', .error e⟩) (hnone : J ⟨v, .ok .none⟩ ⟨v', .ok .none⟩)
    (hsome : ∀ b ∈ branches, J (writeBranch b.index (fun x => run s b.plain x) v)
      (writeBranch b.index (fun x => run s' b.plain x) v')) :
    J (runPlain s subject branches v) (runPlain s' subject branches v') := by
  rw [runPlain_eq, runPlain_eq, ← hchoice]
  cases hb : choice subject v branches with
  | error e => exact herror e
  | ok o =>
    cases o with
    | none => exact hnone
    | some b => exact hsome b (mem_of_choice hb)

theorem runTagged_rel (tag : Value) (hnone : J ⟨v, .ok .none⟩ ⟨v', .ok .none⟩)
    (hsome : ∀ b ∈ branches, J (writeBranch b.index (fun x => run s b.tagged x) v)
      (writeBranch b.index (fun x => run s' b.tagged x) v')) :
    J (runTagged s tag branches v) (runTagged s' tag branches v') := by
  rw [runTagged_eq, runTagged_eq]
  cases hb : labelled tag branches with
  | none => exact hnone
  | some b => exact hsome b (List.mem_of_find?_eq_some hb)

end Rel

end AvroCodec.Code.Encoder
