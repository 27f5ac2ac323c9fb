import AvroCodec.Proofs.Lockstep

/-!
# The walk that looks for cycles

One step of the walk notes the name of an object and goes on to its fields and its type. Names that were
passed stay passed on the way down, and a name that was found to start a cycle stays found.
-/

namespace AvroCodec.Trail

open Json

variable {db : Database} {n : Nat} {t t' : Trail} {d : Json} {members : Members}

def fieldStops (members : Members) : List Json :=
  (((lookup "fields" members).getD (.arr [])).elements?).getD []

def isNamed (members : Members) : Bool := ((lookup "name" members).getD .null).truthy

def noted (members : Members) : List String :=
  match lookup "name" members with
  | some (.str name) => [name]
  | _ => []

/-- Whatever a walk has noted is kept. -/
structure Grows (t t' : Trail) : Prop where
  passed : t.passed ⊆ t'.passed
  cycles : t.cycles ⊆ t'.cycles

theorem Grows.refl (t : Trail) : t.Grows t := ⟨fun _ h => h, fun _ h => h⟩

theorem Grows.trans {t'' : Trail} (h : t.Grows t') (h' : t'.Grows t'') : t.Grows t'' :=
  ⟨fun _ hx => h'.passed (h.passed hx), fun _ hx => h'.cycles (h.cycles hx)⟩

theorem mem_insert {name x : String} {names : List String} :
    x ∈ insert name names ↔ x = name ∨ x ∈ names := by
  unfold insert
  split_ifs with h
  · rw [List.contains_iff_mem] at h
    constructor
    · exact .inr
    · rintro (rfl | hx)
      · exact h
      · exact hx
  · rw [List.mem_append, List.mem_singleton, or_comm]

theorem grows_found (t : Trail) (name : String) : t.Grows (t.found name) :=
  ⟨fun _ h => h, fun _ h => mem_insert.2 (.inr h)⟩

theorem grows_passName (h : t.passName ((lookup "name" members).getD .null) = .ok t') :
    t.Grows t' ∧ noted members ⊆ t'.passed := by
  unfold noted
  unfold passName at h
  split at h
  next name hname =>
    cases h
    refine ⟨⟨fun _ hx => mem_insert.2 (.inr hx), fun _ hx => hx⟩, ?_⟩
    split
    next name' hname' =>
      rw [hname', Option.getD_some, str.injEq] at hname
      rw [hname]
      exact List.forall_mem_singleton.2 (mem_insert.2 (.inl rfl))
    next => exact List.nil_subset _
  next => cases h
  next => cases h
  next hstr _ _ =>
    cases h
    refine ⟨.refl t, ?_⟩
    split
    next name hname => exact absurd (by rw [hname]; rfl) (hstr name)
    next => exact List.nil_subset _

theorem cycles_passName {name : Json} {outer : Trail} (h : t.passName name = .ok outer) : outer.cycles = t.cycles := by
  unfold passName at h
  split at h <;> cases h <;> rfl

theorem passName_ne_endless {name : Json} : t.passName name ≠ .error .endless := by
  unfold passName
  split <;> simp

/-- A walk passes by at an object: it has a name, which is noted, and a type that was not passed before. -/
structure Passes (members : Members) (type : Json) (fields : List Json) (t outer : Trail) : Prop where
  type_eq : lookup "type" members = some type
  new : ∀ s, type = .str s → s ∉ t.passed
  named : isNamed members = true
  fields_eq : ((lookup "fields" members).getD (.arr [])).needElements = .ok fields
  noted : t.passName ((lookup "name" members).getD .null) = .ok outer

/-- A walk can go on at an object: it has a type, and if it has a name, this can be noted and its fields can be gone
through. -/
def Passable (t : Trail) (members : Members) : Prop :=
  (∃ type, lookup "type" members = some type) ∧ (isNamed members = true →
    (∃ outer, t.passName ((lookup "name" members).getD .null) = .ok outer) ∧
      ∃ fields, ((lookup "fields" members).getD (.arr [])).needElements = .ok fields)

/-- What a walk can do at a document: it stops, finds a cycle, passes by and goes on, or fails. -/
inductive Acts (db : Database) (n : Nat) (t : Trail) : Json → Except SchemaError Trail → Prop
  | stops {d : Json} (h : ∀ members, d = .obj members → isNamed members = false) : Acts db n t d (.ok t)
  | finds {d : Json} {name : String} (h : d.Refers name) (hname : name ∈ t.passed) : Acts db n t d (.ok (t.found name))
  | passes {members : Members} {type : Json} {fields : List Json} {outer : Trail}
      {r : Except SchemaError Trail} (h : Passes members type fields t outer)
      (hr : ((fields ++ typeStops db type).foldlM (follow db n) outer).map
        (fun inner => { outer with cycles := inner.cycles }) = r) : Acts db n t (.obj members) r
  | fails {members : Members} {e : SchemaError} (he : e ≠ .endless) (h : ¬t.Passable members) :
      Acts db n t (.obj members) (.error e)

theorem acts_descend {type : Json} (htype : lookup "type" members = some type)
    (hnew : ∀ s, type = .str s → s ∉ t.passed) :
    Acts db n t (.obj members) (descend db (follow db n) members type t) := by
  rw [descend]
  cases hnamed : isNamed members with
  | false =>
    rw [if_pos (by rw [← isNamed, hnamed]; rfl)]
    exact .stops fun _ heq => obj.inj heq ▸ hnamed
  | true =>
    rw [if_neg (by rw [← isNamed, hnamed]; exact Bool.false_ne_true)]
    cases hname : t.passName ((lookup "name" members).getD .null) with
    | error e =>
      refine .fails (fun he => passName_ne_endless (he ▸ hname)) fun ⟨_, h⟩ => ?_
      obtain ⟨⟨outer, houter⟩, -⟩ := h hnamed
      cases hname.symm.trans houter
    | ok outer =>
      cases hfields : ((lookup "fields" members).getD (.arr [])).needElements with
      | error e =>
        refine .fails (fun he => Parallel.needElements_ne_endless (he ▸ hfields)) fun ⟨_, h⟩ => ?_
        obtain ⟨-, fields, helements⟩ := h hnamed
        cases hfields.symm.trans helements
      | ok fields =>
        refine .passes ⟨htype, hnew, hnamed, hfields, hname⟩ ?_
        change _ = ((fields ++ typeStops db type).foldlM (follow db n) outer >>= fun inner => _)
        cases (fields ++ typeStops db type).foldlM (follow db n) outer <;> rfl

theorem acts_follow (db : Database) (n : Nat) (t : Trail) (d : Json) : Acts db n t d (follow db (n + 1) t d) := by
  cases d with
  | str name =>
    rw [follow]
    split_ifs with hname
    · exact .finds (.inl rfl) (List.contains_iff_mem.1 hname)
    · exact .stops nofun
  | obj members =>
    cases hneed : (obj members).need "type" with
    | error e =>
      rw [follow, hneed]
      refine .fails (fun he => Parallel.need_ne_endless (he ▸ hneed)) fun ⟨⟨type, htype⟩, _⟩ => ?_
      cases hneed.symm.trans (Schema.need_eq_ok.2 htype)
    | ok type =>
      have htype := Schema.need_eq_ok.1 hneed
      rw [follow, hneed]
      cases type with
      | str s =>
        change Acts db n t _ (if t.passed.contains s = true then _ else _)
        split_ifs with hs
        · exact .finds (.inr htype) (List.contains_iff_mem.1 hs)
        · refine acts_descend htype ?_
          rintro _ ⟨⟩
          exact mt List.contains_iff_mem.2 hs
      | _ => exact acts_descend htype nofun
  | _ => exact .stops nofun

theorem exists_acts (h : follow db n t d = .ok t') : ∃ k, n = k + 1 ∧ Acts db k t d (.ok t') := by
  cases n with
  | zero => cases h
  | succ k => exact ⟨k, rfl, h ▸ acts_follow db k t d⟩

end AvroCodec.Trail
