import AvroCodec.Codec.Execute
import AvroCodec.Proofs.Storing

/-!
# Code that keeps to its variables

What code does with its variables is what it does to the value of one of them, if each piece of it works on
that variable, or on variables of its own that nothing around it has.
-/

namespace AvroCodec

open Code

namespace Code

/-- A place inside a variable, with no other variable in it. -/
structure Place.IsIn (p : Place) (x : String) : Prop where
  root : p.root = x
  plain : Variables.keyVariables p.path = []

theorem Place.keys_of_plain {vars : Variables} {p : Place} (h : Variables.keyVariables p.path = []) :
    vars.keys p.path = .ok p.keys := by
  obtain ⟨root, path⟩ := p
  unfold Place.keys
  dsimp only at h ⊢
  induction path with
  | nil => rfl
  | cons s path ih =>
    cases s with
    | member name =>
      rw [Variables.keys, ih h]
      rfl
    | bound key => cases h

/-- Code that works on a variable, with variables of its own. What stands inside a loop or under a tag works on the
variable of the loop or of the tagged value. -/
inductive Encoder.Scoped : (String → Prop) → String → Encoder → Prop
  | null {V x} : Scoped V x .null
  | primitive {V x p} (type : String) (hp : p.IsIn x) : Scoped V x (.primitive type p)
  | logical {V x p} (type : Logical) (hp : p.IsIn x) : Scoped V x (.logical type p)
  | fields {V x parts} (h : ∀ e ∈ parts, Scoped V x e) : Scoped V x (.fields parts)
  | filled {V x p next} (default : Json) (hp : p.IsIn x) (h : Scoped V x next) : Scoped V x (.filled p default next)
  | array {V W x p item body} (hp : p.IsIn x) (hitem : V item) (hW : ∀ y, W y → V y ∧ y ≠ item)
      (h : Scoped W item body) : Scoped V x (.array p item body)
  | enum {V x p} (symbols : Json) (hp : p.IsIn x) : Scoped V x (.enum p symbols)
  | map {V W x p key value body} (hp : p.IsIn x) (hdatum : V "datum") (hkey : V key) (hvalue : V value)
      (hne : key ≠ value) (hW : ∀ y, W y → V y ∧ y ≠ value) (h : Scoped W value body) :
      Scoped V x (.map p key value body)
  | union {V W x subject tag data branches} (hp : subject.place.IsIn x) (htag : V tag) (hdata : V data)
      (hne : tag ≠ data) (hW : ∀ y, W y → V y ∧ y ≠ data) (htagged : ∀ b ∈ branches, Scoped W data b.tagged)
      (hplain : ∀ b ∈ branches, Scoped V x b.plain) : Scoped V x (.union subject tag data branches)
  | recur {V x p} (name : String) (hp : p.IsIn x) : Scoped V x (.recur name p)

theorem Encoder.Scoped.mono {V V' : String → Prop} {x : String} {e : Encoder} (h : e.Scoped V x)
    (hV : ∀ y, V y → V' y) : e.Scoped V' x := by
  induction h generalizing V' with
  | null => exact .null
  | primitive type hp => exact .primitive type hp
  | logical type hp => exact .logical type hp
  | fields _ ih => exact .fields fun e he => ih e he hV
  | filled default hp _ ih => exact .filled default hp (ih hV)
  | array hp hitem hW h => exact .array hp (hV _ hitem) (fun y hy => (hW y hy).imp_left (hV y)) h
  | enum symbols hp => exact .enum symbols hp
  | map hp hdatum hkey hvalue hne hW h =>
    exact .map hp (hV _ hdatum) (hV _ hkey) (hV _ hvalue) hne (fun y hy => (hW y hy).imp_left (hV y)) h
  | union hp htag hdata hne hW htagged _ _ ih =>
    exact .union hp (hV _ htag) (hV _ hdata) hne (fun y hy => (hW y hy).imp_left (hV y)) htagged
      fun b hb => ih b hb hV
  | recur name hp => exact .recur name hp

end Code

namespace Variables

variable {V W : String → Prop} {vars vars' vars'' : Variables} {x y : String} {v w : Value}

theorem lookup_assign_self (vars : Variables) (x : String) (v : Value) : lookup x (vars.assign x v) = some v := by
  simp [assign, lookup]

theorem lookup_assign_of_ne (h : y ≠ x) (vars : Variables) (v : Value) :
    lookup y (vars.assign x v) = lookup y vars := by
  simp [assign, lookup, Ne.symm h]

theorem assignments_assign_of_ne (h : y ≠ x) (vars : Variables) (v : Value) :
    assignments y (vars.assign x v) = assignments y vars := by
  simp [assign, assignments, Ne.symm h]

theorem lookup_change_self (h : lookup x vars = some v) : lookup x (change x w vars) = some w := by
  fun_induction change x w vars with
  | case1 => cases h
  | case2 u others => simp [lookup]
  | case3 n u others hn ih =>
    rw [lookup, if_neg hn] at h ⊢
    exact ih h

theorem lookup_change_of_ne (h : y ≠ x) (vars : Variables) : lookup y (change x w vars) = lookup y vars := by
  fun_induction change x w vars with
  | case1 => rfl
  | case2 u others => simp [lookup, Ne.symm h]
  | case3 n u others hn ih => rw [lookup, lookup, ih]

theorem assignments_change (vars : Variables) : assignments y (change x w vars) = assignments y vars := by
  fun_induction change x w vars with
  | case1 => rfl
  | case2 u others => rw [assignments, assignments, List.countP_cons, List.countP_cons]
  | case3 n u others hn ih =>
    rw [assignments, assignments] at ih
    rw [assignments, assignments, List.countP_cons, List.countP_cons, ih]

/-- The variables are the same but for some, and were not assigned. -/
def SameBut (V : String → Prop) (vars vars' : Variables) : Prop :=
  ∀ y, ¬ V y → lookup y vars' = lookup y vars ∧ assignments y vars' = assignments y vars

namespace SameBut

theorem refl (V : String → Prop) (vars : Variables) : SameBut V vars vars := fun _ _ => ⟨rfl, rfl⟩

theorem trans (h : SameBut V vars vars') (h' : SameBut V vars' vars'') : SameBut V vars vars'' :=
  fun y hy => ⟨(h' y hy).1.trans (h y hy).1, (h' y hy).2.trans (h y hy).2⟩

theorem mono (h : SameBut W vars vars') (hWV : ∀ y, W y → V y) : SameBut V vars vars' :=
  fun y hy => h y fun hW => hy (hWV y hW)

theorem assign (h : SameBut V vars vars') (hx : V x) (v : Value) : SameBut V vars (vars'.assign x v) := by
  intro y hy
  have hne : y ≠ x := by
    rintro rfl
    exact hy hx
  rw [lookup_assign_of_ne hne, assignments_assign_of_ne hne]
  exact h y hy

theorem change (h : SameBut V vars vars') (hx : V x) (v : Value) : SameBut V vars (Variables.change x v vars') := by
  intro y hy
  have hne : y ≠ x := by
    rintro rfl
    exact hy hx
  rw [lookup_change_of_ne hne, assignments_change]
  exact h y hy

theorem changeSince_eq (h : SameBut V vars vars') (hx : ¬ V x) (v : Value) :
    vars.changeSince vars' x v = Variables.change x v vars' := by
  rw [changeSince, if_pos (h x hx).2]

end SameBut

end Variables

/-- What code does to the variables agrees with what is done to the value of one of them. -/
structure Executed.Agrees (V : String → Prop) (x : String) (vars : Variables) (r : Executed) (w : Written) : Prop where
  result : r.result = w.result
  value : Variables.lookup x r.vars = some w.value
  others : Variables.SameBut (fun y => V y ∨ y = x) vars r.vars

/-- Code that works on the variables as something does on the value of one of them. -/
def WorksOn (V : String → Prop) (x : String) (f : Variables → Executed) (g : Value → Written) : Prop :=
  ∀ vars v, Variables.lookup x vars = some v → (f vars).Agrees V x vars (g v)

namespace Code.Encoder

variable {V W : String → Prop} {x : String} {vars : Variables} {v : Value} {p : Place} {scope : WriteScope}
  {body : Variables → Executed} {g : Value → Written}

theorem withVariable_eq (hp : p.IsIn x) (hv : Variables.lookup x vars = some v)
    (f : Value → List String → Executed) : withVariable p f vars = f v p.keys := by
  unfold withVariable
  rw [hp.root, Variables.get_eq_ok.2 hv, Place.keys_of_plain hp.plain]

theorem agrees_error (hv : Variables.lookup x vars = some v) (e : CodecError) :
    Executed.Agrees V x vars ⟨vars, .error e⟩ ⟨v, .error e⟩ :=
  ⟨rfl, hv, .refl _ _⟩

theorem worksOn_none : WorksOn V x (fun vars => ⟨vars, .ok .none⟩) (fun v => ⟨v, .ok .none⟩) :=
  fun _ _ hv => ⟨rfl, hv, .refl _ _⟩

theorem worksOn_atPlace (hx : ¬ V x) (hp : p.IsIn x) {f : Value → Variables → Written × Variables}
    (hf : ∀ u vars, (f u vars).1 = g u ∧ Variables.SameBut V vars (f u vars).2) :
    WorksOn V x (atPlace p f) (inside p.keys g) := by
  intro vars v hv
  rw [atPlace, withVariable_eq hp hv, inside]
  cases hwalk : v.walk p.keys with
  | error e => exact agrees_error hv e
  | ok u =>
    obtain ⟨hfst, hsnd⟩ := hf u vars
    dsimp only
    rw [hp.root, hfst, hsnd.changeSince_eq hx]
    exact ⟨rfl, Variables.lookup_change_self ((hsnd x hx).1.trans hv), (hsnd.mono fun _ => .inl).change (.inr rfl) _⟩

theorem worksOn_leaf (hx : ¬ V x) (hp : p.IsIn x) (g : Value → Written) :
    WorksOn V x (atPlace p fun u vars => (g u, vars)) (inside p.keys g) :=
  worksOn_atPlace hx hp fun _ vars => ⟨rfl, .refl V vars⟩

theorem agrees_andThen {r : Executed} {w : Written} {f : Variables → Executed} (h : r.Agrees V x vars w)
    (hf : WorksOn V x f g) : (r.andThen f).Agrees V x vars (w.andThen g) := by
  unfold Executed.andThen Written.andThen
  rw [h.result]
  cases hw : w.result with
  | error e => exact h
  | ok front =>
    obtain ⟨hresult, hvalue, hothers⟩ := hf _ _ h.value
    exact ⟨congrArg (Except.map front.andThen) hresult, hvalue, h.others.trans hothers⟩

theorem worksOn_branch (index : Nat) (h : WorksOn V x body g) :
    WorksOn V x (executeBranch index body) (writeBranch index g) :=
  fun _ _ hv => agrees_andThen ⟨rfl, hv, .refl _ _⟩ h

theorem kept_eq {r : Executed} {w : Written} (h : r.Agrees V x vars w) (v : Value) : r.kept x v = kept v w.value := by
  rw [Executed.kept, h.value, Option.getD_some]

section Inner

variable {y : String} (hbody : WorksOn W y body g) (hW : ∀ z, W z → V z ∧ z ≠ y) (hy : V y)
include hbody hW hy

theorem agrees_inner (h : Variables.lookup y vars = some v) :
    (body vars).Agrees W y vars (g v) ∧ Variables.SameBut V vars (body vars).vars := by
  have hagrees := hbody vars v h
  exact ⟨hagrees, hagrees.others.mono fun z hz => hz.elim (fun hz => (hW z hz).1) fun hz => hz ▸ hy⟩

theorem eachItem_eq (items : List Value) (vars : Variables) :
    (eachItem y body items vars).1 = writeItems g items ∧ Variables.SameBut V vars (eachItem y body items vars).2 := by
  induction items generalizing vars with
  | nil => exact ⟨rfl, .refl V vars⟩
  | cons v rest ih =>
    obtain ⟨hagrees, hsame⟩ := agrees_inner hbody hW hy (Variables.lookup_assign_self vars y v)
    have hset := ((Variables.SameBut.refl V vars).assign hy v).trans hsame
    obtain ⟨hrest, hsame'⟩ := ih (body (vars.assign y v)).vars
    rw [eachItem, writeItems, kept_eq hagrees, hagrees.result]
    cases (g v).result with
    | error e => exact ⟨rfl, hset⟩
    | ok front =>
      dsimp only
      rw [← hrest]
      exact ⟨rfl, hset.trans hsame'⟩

theorem eachEntry_eq {key : String} (hkey : V key) (hne : key ≠ y) (entries : List (Value × Value))
    (vars : Variables) : (eachEntry key y body entries vars).1 = writeEntries g entries ∧
      Variables.SameBut V vars (eachEntry key y body entries vars).2 := by
  induction entries generalizing vars with
  | nil => exact ⟨rfl, .refl V vars⟩
  | cons e rest ih =>
    obtain ⟨k, v⟩ := e
    have hboth : Variables.SameBut V vars ((vars.assign key k).assign y v) :=
      ((Variables.SameBut.refl V vars).assign hkey k).assign hy v
    have hk : Variables.lookup key ((vars.assign key k).assign y v) = some k := by
      rw [Variables.lookup_assign_of_ne hne, Variables.lookup_assign_self]
    obtain ⟨hagrees, hsame⟩ := agrees_inner hbody hW hy (Variables.lookup_assign_self (vars.assign key k) y v)
    obtain ⟨hrest, hsame'⟩ := ih (body ((vars.assign key k).assign y v)).vars
    rw [eachEntry, writeEntries, hk, Option.getD_some]
    cases Primitive.writeString k with
    | error e => exact ⟨rfl, hboth⟩
    | ok bytes =>
      dsimp only
      rw [kept_eq hagrees, hagrees.result]
      cases (g v).result with
      | error e => exact ⟨rfl, hboth.trans hsame⟩
      | ok front =>
        dsimp only
        rw [← hrest]
        exact ⟨rfl, (hboth.trans hsame).trans hsame'⟩

theorem executeArray_eq (u : Value) (vars : Variables) : (executeArray y body u vars).1 = writeArray g u ∧
    Variables.SameBut V vars (executeArray y body u vars).2 := by
  unfold executeArray writeArray
  cases u.elements? with
  | none => exact ⟨rfl, .refl V vars⟩
  | some items =>
    obtain ⟨heq, hsame⟩ := eachItem_eq hbody hW hy items vars
    dsimp only
    rw [← heq]
    exact ⟨rfl, hsame⟩

theorem executeMap_eq {key : String} (hdatum : V "datum") (hkey : V key) (hne : key ≠ y) (u : Value)
    (vars : Variables) : (executeMap key y body u vars).1 = writeMap g u ∧
      Variables.SameBut V vars (executeMap key y body u vars).2 := by
  have hset : Variables.SameBut V vars (vars.assign "datum" u) := (Variables.SameBut.refl V vars).assign hdatum u
  unfold executeMap writeMap
  cases u with
  | map entries =>
    obtain ⟨heq, hsame⟩ := eachEntry_eq hbody hW hy hkey hne entries (vars.assign "datum" (.map entries))
    dsimp only
    rw [← heq]
    exact ⟨rfl, hset.trans hsame⟩
  | _ => exact ⟨rfl, hset⟩

end Inner

variable (scope) in
theorem executePair_eq {tag data : String} {f : Value → Value → Written} (htag : V tag) (hdata : V data)
    (hne : tag ≠ data) (hW : ∀ z, W z → V z ∧ z ≠ data) (hbody : ∀ {vars t payload},
      Variables.lookup tag vars = some t → Variables.lookup data vars = some payload →
      (body vars).Agrees W data vars (f t payload)) (vars : Variables) (items : List Value) :
    (executePair scope tag data body vars items).1 = writePair scope tag f items ∧
      Variables.SameBut V vars (executePair scope tag data body vars items).2 := by
  rcases items with - | ⟨t, - | ⟨payload, - | ⟨_, _⟩⟩⟩
  case cons.cons.nil =>
    rw [executePair, writePair]
    split_ifs
    · have hboth : Variables.SameBut V vars ((vars.assign tag t).assign data payload) :=
        ((Variables.SameBut.refl V vars).assign htag t).assign hdata payload
      have ht : Variables.lookup tag ((vars.assign tag t).assign data payload) = some t := by
        rw [Variables.lookup_assign_of_ne hne, Variables.lookup_assign_self]
      have hagrees := hbody ht (Variables.lookup_assign_self ..)
      dsimp only
      rw [kept_eq hagrees, hagrees.result]
      refine ⟨rfl, hboth.trans (hagrees.others.mono fun z hz => ?_)⟩
      exact hz.elim (fun hz => (hW z hz).1) fun hz => hz ▸ hdata
    · exact ⟨rfl, .refl V vars⟩
  all_goals exact ⟨rfl, .refl V vars⟩

section Branches

variable {branches : List (Branch Encoder)}

theorem agrees_tagged {tag data : String} {t payload : Value}
    (h : ∀ b ∈ branches, WorksOn W data (execute scope b.tagged) (run scope b.tagged))
    (ht : Variables.lookup tag vars = some t) (hpayload : Variables.lookup data vars = some payload) :
    (executeTagged scope tag branches vars).Agrees W data vars (runTagged scope t branches payload) := by
  induction branches with
  | nil =>
    rw [executeTagged, runTagged]
    exact worksOn_none vars payload hpayload
  | cons b rest ih =>
    obtain ⟨name, index, guard, tagged, plain⟩ := b
    rw [executeTagged, runTagged, ht, Option.getD_some]
    split_ifs
    · exact worksOn_branch index (h _ List.mem_cons_self) vars payload hpayload
    · exact ih fun b hb => h b (List.mem_cons_of_mem _ hb)

theorem worksOn_plain {subject : Subject} (hp : subject.place.IsIn x)
    (h : ∀ b ∈ branches, WorksOn V x (execute scope b.plain) (run scope b.plain)) :
    WorksOn V x (executePlain scope subject branches) (runPlain scope subject branches) := by
  intro vars v hv
  induction branches with
  | nil =>
    rw [executePlain, runPlain]
    exact worksOn_none vars v hv
  | cons b rest ih =>
    obtain ⟨name, index, guard, tagged, plain⟩ := b
    rw [executePlain, runPlain, withVariable_eq hp hv]
    cases guard.passes subject v with
    | error e => exact agrees_error hv e
    | ok passes =>
      cases passes with
      | true => exact worksOn_branch index (h _ List.mem_cons_self) vars v hv
      | false => exact ih fun b hb => h b (List.mem_cons_of_mem _ hb)

end Branches

theorem worksOn_parts {parts : List Encoder} (h : ∀ e ∈ parts, WorksOn V x (execute scope e) (run scope e)) :
    WorksOn V x (executeParts scope parts) (runParts scope parts) := by
  intro vars v hv
  induction parts generalizing vars v with
  | nil =>
    rw [executeParts, runParts]
    exact worksOn_none vars v hv
  | cons e parts ih =>
    rw [executeParts, runParts]
    exact agrees_andThen (h e List.mem_cons_self vars v hv) (ih fun e he => h e (List.mem_cons_of_mem _ he))

/-- Code that keeps to its variables does to them what it does to the value of one. -/
theorem Scoped.worksOn {e : Encoder} (h : e.Scoped V x) (hx : ¬ V x) (scope : WriteScope) :
    WorksOn V x (execute scope e) (run scope e) := by
  induction h with
  | null =>
    intro vars v hv
    rw [execute, run]
    exact worksOn_none vars v hv
  | primitive type hp =>
    intro vars v hv
    rw [execute, run]
    exact worksOn_leaf hx hp _ vars v hv
  | logical type hp =>
    intro vars v hv
    rw [execute, run]
    exact worksOn_leaf hx hp _ vars v hv
  | fields _ ih =>
    intro vars v hv
    rw [execute, run]
    exact worksOn_parts (fun e he => ih e he hx) vars v hv
  | @filled V x p next default hp _ ih =>
    intro vars v hv
    rw [execute, run, withVariable_eq hp hv]
    cases fill p.keys ((Default.value? default).getD .null) v with
    | error e => exact agrees_error hv e
    | ok v' =>
      dsimp only
      rw [hp.root]
      generalize hvars : (if p.keys.isEmpty then vars.assign x v' else Variables.change x v' vars) = vars'
      have hv' : Variables.lookup x vars' = some v' ∧ Variables.SameBut (fun y => V y ∨ y = x) vars vars' := by
        rw [← hvars]
        split_ifs
        · exact ⟨Variables.lookup_assign_self .., (Variables.SameBut.refl _ vars).assign (.inr rfl) v'⟩
        · exact ⟨Variables.lookup_change_self hv, (Variables.SameBut.refl _ vars).change (.inr rfl) v'⟩
      obtain ⟨hresult, hvalue, hothers⟩ := ih hx vars' v' hv'.1
      exact ⟨hresult, hvalue, hv'.2.trans hothers⟩
  | array hp hitem hW _ ih =>
    intro vars v hv
    rw [execute, run]
    exact worksOn_atPlace hx hp (executeArray_eq (ih fun hy => (hW _ hy).2 rfl) hW hitem) vars v hv
  | enum symbols hp =>
    intro vars v hv
    rw [execute, run]
    exact worksOn_leaf hx hp _ vars v hv
  | map hp hdatum hkey hvalue hne hW _ ih =>
    intro vars v hv
    rw [execute, run]
    exact worksOn_atPlace hx hp (executeMap_eq (ih fun hy => (hW _ hy).2 rfl) hW hvalue hdatum hkey hne) vars v hv
  | @union V W x subject tag data branches hp htag hdata hne hW _ _ htagged hplain =>
    intro vars v hv
    rw [execute, run, withVariable_eq hp hv]
    cases subject.look v with
    | error e => exact agrees_error hv e
    | ok u =>
      cases u with
      | tuple items =>
        have htagged : ∀ b ∈ branches, WorksOn W data (execute scope b.tagged) (run scope b.tagged) :=
          fun b hb => htagged b hb fun hy => (hW data hy).2 rfl
        obtain ⟨heq, hsame⟩ := executePair_eq scope htag hdata hne hW (agrees_tagged htagged) vars items
        dsimp only
        rw [heq, hp.root, hsame.changeSince_eq hx]
        exact ⟨rfl, Variables.lookup_change_self ((hsame x hx).1.trans hv),
          (hsame.mono fun _ => .inl).change (.inr rfl) _⟩
      | _ => exact worksOn_plain hp (fun b hb => hplain b hb hx) vars v hv
  | recur name hp =>
    intro vars v hv
    rw [execute, run]
    exact worksOn_leaf hx hp _ vars v hv

theorem Scoped.applied_eq {e : Encoder} (h : e.Scoped V "data") (hdata : ¬ V "data") (scope : WriteScope) :
    applied scope e = run scope e := by
  funext v
  have hagrees := h.worksOn hdata scope [("data", v)] v rfl
  rw [applied, hagrees.value, hagrees.result]
  rfl

end Code.Encoder

end AvroCodec
