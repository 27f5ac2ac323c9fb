import AvroCodec.Proofs.Bare
import AvroCodec.Proofs.Comparing
import AvroCodec.Proofs.Reference
import Mathlib.Data.List.Dedup
import Mathlib.Tactic.LinearCombination

/-!
# What a parser meets

A parser meets references to names and definitions of names on its way through a schema. `Schema.ahead` are
the names that are referred to before they are defined, and so the only ones that an attempt can fail at.

An attempt looks into the registry for nothing but whether a name is known. So two attempts at the same
schema, with two registries, end alike, unless one of them meets a name that its registry does not know. It
changes what is recorded of the names that the schema defines, and of no others. If it succeeds, then what it
leaves of these does not depend on what was recorded of them before.
-/

namespace AvroCodec

open Json

/-- Whether a failure stays when more names are known. -/
def SchemaError.isSettled : SchemaError → Bool
  | .unknownType _ | .endless => false
  | _ => true

namespace Json

variable {a b k m n : Json} {x : Int × Nat}

theorem same_of_number? (h : a.number? = some x) :
    a.same b = match b.number? with
      | some y => sameNumber x y
      | none => false := by
  cases a with
  | bool c | int c =>
    cases h
    cases b <;> simp [same, number?]
  | fraction m p =>
    cases h
    cases b <;> simp [same, number?]
  | _ => cases h

theorem sameNumber_comm (x y : Int × Nat) : sameNumber x y = sameNumber y x := by
  rw [sameNumber, sameNumber, Bool.beq_comm]

theorem sameNumber_congr {y z : Int × Nat} (h : sameNumber x y = true) : sameNumber x z = sameNumber y z := by
  have hpow : ∀ k : Nat, ((Nat.pow 10 k : Nat) : Int) ≠ 0 := fun k => by
    exact_mod_cast (Nat.pow_pos (by decide)).ne'
  obtain ⟨m, p⟩ := x
  obtain ⟨n, q⟩ := y
  obtain ⟨k, r⟩ := z
  simp only [sameNumber, beq_iff_eq] at h
  rw [Bool.eq_iff_iff]
  simp only [sameNumber, beq_iff_eq]
  have hp := hpow p
  have hq := hpow q
  generalize ((Nat.pow 10 p : Nat) : Int) = P at *
  generalize ((Nat.pow 10 q : Nat) : Int) = Q at *
  constructor
  · intro hz
    refine mul_right_cancel₀ hp ?_
    linear_combination (-((Nat.pow 10 r : Nat) : Int)) * h + Q * hz
  · intro hz
    refine mul_right_cancel₀ hq ?_
    linear_combination ((Nat.pow 10 r : Nat) : Int) * h + P * hz

theorem number?_of_isScalar (h : n.isScalar = true) : n = .null ∨ (∃ s, n = .str s) ∨ ∃ x, n.number? = some x := by
  cases n with
  | null => exact .inl rfl
  | str s => exact .inr (.inl ⟨s, rfl⟩)
  | arr | obj => cases h
  | _ => exact .inr (.inr ⟨_, rfl⟩)

theorem same_null_iff : k.same .null = true ↔ k = .null := by
  cases k <;> simp [same, number?]

theorem same_eq_false_of_number? (ha : a.number? = none) (hb : b.number? = some x) : a.same b = false := by
  cases b <;> cases a <;> simp_all [same, number?]

theorem same_congr (hn : n.isScalar = true) (h : k.same n = true) : k.same m = n.same m := by
  rcases number?_of_isScalar hn with rfl | ⟨s, rfl⟩ | ⟨x, hx⟩
  · rw [same_null_iff.1 h]
  · rw [same_str_iff.1 h]
  · cases hk : k.number? with
    | none => rw [same_eq_false_of_number? hk hx] at h; cases h
    | some y =>
      rw [same_of_number? hk, hx] at h
      rw [same_of_number? hk, same_of_number? hx]
      cases m.number? with
      | none => rfl
      | some z => exact sameNumber_congr h

theorem same_symm (hn : n.isScalar = true) (h : n.same m = true) : m.isScalar = true ∧ m.same n = true := by
  rcases number?_of_isScalar hn with rfl | ⟨s, rfl⟩ | ⟨x, hx⟩
  · cases m <;> simp_all [same, number?, isScalar]
  · cases m <;> simp_all [same, number?, isScalar]
  · cases hm : m.number? with
    | none => simp [same_of_number? hx, hm] at h
    | some y =>
      have hscalar : m.isScalar = true := by cases m <;> first | rfl | cases hm
      refine ⟨hscalar, ?_⟩
      rw [same_of_number? hx, hm] at h
      rw [same_of_number? hm, hx]
      exact (sameNumber_comm y x).trans h

end Json

namespace Schema

namespace Registry

theorem find?_record {n : Json} (hn : n.isScalar = true) (r : Registry) (d m : Json) :
    (r.record n d).find? m = if n.same m then some d else r.find? m := by
  induction r with
  | nil => rfl
  | cons entry rest ih =>
    obtain ⟨k, e⟩ := entry
    rw [record]
    split_ifs with hk hm hm
    · rw [find?, same_congr hn hk, if_pos hm]
    · rw [find?, find?, same_congr hn hk, if_neg hm, if_neg hm]
    · have hkm : k.same m = false := by
        rw [← Bool.not_eq_true]
        intro hkm
        obtain ⟨hscalar, hsymm⟩ := same_symm hn hm
        exact hk ((same_congr hscalar hkm).trans hsymm)
      rw [find?, hkm, ih, if_pos hm]
      rfl
    · rw [find?, find?, ih, if_neg hm]

theorem knows_record {r : Registry} {name : Json} {m : String} (hname : name.isScalar = true) (d : Json)
    (h : r.knows m = true) : (r.record name d).knows m = true := by
  rw [knows, find?_record hname]
  split_ifs
  · rfl
  · exact h

theorem knows_record_self (r : Registry) (name : String) (d : Json) :
    (r.record (.str name) d).knows name = true := by
  rw [knows, find?_record rfl, if_pos (same_str_iff.2 rfl)]
  rfl

end Registry

section Settled

variable {e : SchemaError} {d space schema : Json} {members : Members} {reference name : String}

theorem isSettled_of_need {key : String} (h : d.need key = .error e) : e.isSettled = true := by
  unfold need at h
  split at h
  · split at h <;> cases h
    rfl
  · cases h
    rfl

theorem isSettled_of_needElements (h : d.needElements = .error e) : e.isSettled = true := by
  unfold needElements at h
  split at h <;> cases h
  rfl

theorem isSettled_of_fullName (h : fullName schema space = .error e) : e.isSettled = true := by
  unfold fullName at h
  split at h
  · split at h <;> cases h
    rfl
  · cases h
    rfl

theorem isSettled_of_checkDecimal (h : checkDecimal members = .error e) : e.isSettled = true := by
  unfold checkDecimal at h
  dsimp only at h
  split_ifs at h <;> cases h <;> rfl

theorem isSettled_of_resolve (h : resolve space reference = .error e) : e.isSettled = true := by
  unfold resolve at h
  split_ifs at h
  split at h <;> cases h
  rfl

theorem claim_run (name : Json) (s : Parsing) : claim name s =
    if !name.isScalar then (.error .wrongShape, s)
    else if s.named.any (·.same name) then (.error (.redefined name), s)
    else (.ok (), { s with named := s.named ++ [name] }) := by
  change (if !name.isScalar then throw .wrongShape
    else if s.named.any (·.same name) then throw (.redefined name)
    else set { s with named := s.named ++ [name] } : Parse Unit) s = _
  split_ifs <;> rfl

end Settled

/-- The names that are referred to before they are defined. -/
def ahead : List Mention → List String
  | [] => []
  | .reference name :: rest => name :: ahead rest
  | .definition name :: rest => (ahead rest).filter fun n => name ≠ .str n

theorem mem_ahead_append {n : String} {ms ms' : List Mention} :
    n ∈ ahead (ms ++ ms') ↔ n ∈ ahead ms ∨ n ∈ ahead ms' ∧ .definition (.str n) ∉ ms := by
  induction ms with
  | nil => simp [ahead]
  | cons m ms ih =>
    cases m with
    | reference name => simp [ahead, ih, or_assoc]
    | definition name =>
      simp only [List.cons_append, ahead, List.mem_filter, ih, decide_eq_true_eq, List.mem_cons,
        Mention.definition.injEq]
      tauto

theorem reference_mem_of_mem_ahead {n : String} {ms : List Mention} (h : n ∈ ahead ms) :
    .reference n ∈ ms := by
  induction ms with
  | nil => cases h
  | cons m ms ih =>
    cases m with
    | reference name =>
      rcases List.mem_cons.1 h with rfl | h
      · exact List.mem_cons_self
      · exact List.mem_cons_of_mem _ (ih h)
    | definition name => exact List.mem_cons_of_mem _ (ih (List.mem_of_mem_filter h))

/-- What a parser has recorded, and the names that it has taken. -/
structure Ledger (σ : Type) where
  registry : σ → Registry
  named : σ → List Json

namespace Ledger

abbrev parsing : Ledger Parsing := ⟨Parsing.registry, Parsing.named⟩

abbrev plain : Ledger Registry := ⟨id, fun _ => []⟩

end Ledger

section Meeting

variable {σ α β γ : Type} {U : SchemaError → Prop} {L : Ledger σ} {ms ms' : List Mention} {x : Action σ α}
  {f : α → Action σ β}

/-- A name that is defined among what a parser meets. -/
def Introduces (ms : List Mention) (name : Json) : Prop :=
  ∃ d, .definition d ∈ ms ∧ d.same name = true

/-- Two attempts fail alike, or one of them fails at one of some names, which it does not know. -/
def missTerms (L : Ledger σ) (N : String → Prop) : Terms σ where
  first e t := ∃ n, e = .unknownType n ∧ N n ∧ (L.registry t).knows n = false
  second e t := ∃ n, e = .unknownType n ∧ N n ∧ (L.registry t).knows n = false
  both e _ e' _ := e = e'

/-- What an action of the parser that meets the given mentions does to the registry, and what it can fail
at. The failures in `U` have another reason than that a name is not known, and do not stay. -/
structure Meets (U : SchemaError → Prop) (L : Ledger σ) (ms : List Mention) (x : Action σ α) : Prop where
  frame : ∀ s m, ¬ Introduces ms m → (L.registry (x s).2).find? m = (L.registry s).find? m
  keeps : ∀ s m, ((L.registry s).find? m).isSome → ((L.registry (x s).2).find? m).isSome
  fails : ∀ s e t, x s = (.error e, t) →
    e.isSettled = true ∨ U e ∨ ∃ n, e = .unknownType n ∧ n ∈ ahead ms ∧ (L.registry t).knows n = false
  defines : ∀ s a t, x s = (.ok a, t) → ∀ m, Introduces ms m → ((L.registry t).find? m).isSome
  refers : ∀ s a t, x s = (.ok a, t) → ∀ n, .reference n ∈ ms → (L.registry t).knows n = true
  /-- Two runs that have taken the same names end alike, unless one of them misses a name. -/
  alike : ∀ N : String → Prop, (∀ n, .reference n ∈ ms → N n) →
    Blind (missTerms L N) (fun s s' => L.named s = L.named s') x
  /-- Two runs that succeed leave the same of the names that are defined. -/
  settles : ∀ (A : Json → Prop) s s' a a' t t',
    (∀ m, A m → (L.registry s).find? m = (L.registry s').find? m) → x s = (.ok a, t) → x s' = (.ok a', t') →
      a = a' ∧ ∀ m, A m ∨ Introduces ms m → (L.registry t).find? m = (L.registry t').find? m

theorem introduces_append {m : Json} : Introduces (ms ++ ms') m ↔ Introduces ms m ∨ Introduces ms' m := by
  simp only [Introduces, List.mem_append, or_and_right, exists_or]

theorem not_introduces_nil {m : Json} : ¬ Introduces [] m := by
  rintro ⟨d, hd, -⟩
  cases hd

namespace Meets

theorem unknown (h : Meets U L ms x) {s t : σ} {n : String} (hx : x s = (.error (.unknownType n), t)) :
    U (.unknownType n) ∨ n ∈ ahead ms ∧ (L.registry t).knows n = false := by
  rcases h.fails s _ t hx with hsettled | hU | ⟨_, ⟨⟩, hmiss⟩
  · cases hsettled
  · exact .inl hU
  · exact .inr hmiss

theorem mono (h : Meets U L ms x) (hintroduces : ∀ m, Introduces ms m ↔ Introduces ms' m)
    (hahead : ∀ n ∈ ahead ms, n ∈ ahead ms') (hrefers : ∀ n, .reference n ∈ ms' ↔ .reference n ∈ ms) :
    Meets U L ms' x where
  frame s m hm := h.frame s m fun hd => hm ((hintroduces m).1 hd)
  keeps := h.keeps
  fails s e t hx := by
    refine (h.fails s e t hx).imp_right (.imp_right ?_)
    rintro ⟨n, he, hn, hknown⟩
    exact ⟨n, he, hahead n hn, hknown⟩
  defines s a t hx m hm := h.defines s a t hx m ((hintroduces m).2 hm)
  refers s a t hx n hn := h.refers s a t hx n ((hrefers n).1 hn)
  alike N hN := h.alike N fun n hn => hN n ((hrefers n).2 hn)
  settles A s s' a a' t t' hA hx hx' := by
    obtain ⟨ha, hsame⟩ := h.settles A s s' a a' t t' hA hx hx'
    exact ⟨ha, fun m hm => hsame m (hm.imp_right (hintroduces m).2)⟩

theorem pure (a : α) : Meets U L [] (Pure.pure a : Action σ α) where
  frame _ _ _ := rfl
  keeps _ _ hm := hm
  fails s e t hx := by cases hx
  defines _ _ _ _ m hm := (not_introduces_nil hm).elim
  refers _ _ _ _ n hn := by cases hn
  alike N _ := Blind.pure a
  settles A s s' b b' t t' hA hx hx' := by
    obtain ⟨rfl, rfl⟩ := pure_eq_ok.1 hx
    obtain ⟨rfl, rfl⟩ := pure_eq_ok.1 hx'
    exact ⟨rfl, fun m hm => hA m (hm.resolve_right not_introduces_nil)⟩

theorem throw {e : SchemaError} (h : e.isSettled = true ∨ U e) :
    Meets U L ms (MonadExcept.throw e : Action σ α) where
  frame _ _ _ := rfl
  keeps _ _ hm := hm
  fails s e t hx := by
    cases hx
    exact h.imp_right .inl
  defines _ _ _ hx := (throw_eq_ok.1 hx).elim
  refers _ _ _ hx := (throw_eq_ok.1 hx).elim
  alike N _ := Blind.throw fun _ _ _ => rfl
  settles _ _ _ _ _ _ _ _ hx := (throw_eq_ok.1 hx).elim

theorem bind (hx : Meets U L ms x) (hf : ∀ a, Meets U L ms' (f a)) : Meets U L (ms ++ ms') (x >>= f) where
  frame s m hm := by
    rw [introduces_append, not_or] at hm
    have hfirst := hx.frame s m hm.1
    rw [Action.bind_run]
    rcases hrun : x s with ⟨e | a, t⟩ <;> rw [hrun] at hfirst
    · exact hfirst
    · exact ((hf a).frame t m hm.2).trans hfirst
  keeps s m hm := by
    have hfirst := hx.keeps s m hm
    rw [Action.bind_run]
    rcases hrun : x s with ⟨e | a, t⟩ <;> rw [hrun] at hfirst
    · exact hfirst
    · exact (hf a).keeps t m hfirst
  fails s e t hrun := by
    rw [Action.bind_run] at hrun
    rcases hfirst : x s with ⟨e' | a, u⟩ <;> rw [hfirst] at hrun
    · cases hrun
      refine (hx.fails s e t hfirst).imp_right (.imp_right ?_)
      rintro ⟨n, he, hahead, hknown⟩
      exact ⟨n, he, mem_ahead_append.2 (.inl hahead), hknown⟩
    · refine ((hf a).fails u e t hrun).imp_right (.imp_right ?_)
      rintro ⟨n, he, hahead, hknown⟩
      refine ⟨n, he, mem_ahead_append.2 (.inr ⟨hahead, fun hdefined => ?_⟩), hknown⟩
      -- A name that has been defined before would be known.
      have hsome := hx.defines s a u hfirst (.str n) ⟨_, hdefined, same_str_iff.2 rfl⟩
      have hkept := (hf a).keeps u (.str n) hsome
      simp only [hrun] at hkept
      rw [Registry.knows, hkept] at hknown
      cases hknown
  defines s b t hrun m hm := by
    obtain ⟨a, u, ha, hb⟩ := bind_eq_ok.1 hrun
    rcases introduces_append.1 hm with hm | hm
    · have hkept := (hf a).keeps u m (hx.defines s a u ha m hm)
      rwa [hb] at hkept
    · exact (hf a).defines u b t hb m hm
  refers s b t hrun n hn := by
    obtain ⟨a, u, ha, hb⟩ := bind_eq_ok.1 hrun
    rcases List.mem_append.1 hn with hn | hn
    · have hkept := (hf a).keeps u (.str n) (hx.refers s a u ha n hn)
      rwa [hb] at hkept
    · exact (hf a).refers u b t hb n hn
  alike N hN := by
    simp only [List.mem_append] at hN
    exact (hx.alike N fun n hn => hN n (.inl hn)).bind fun a => (hf a).alike N fun n hn => hN n (.inr hn)
  settles A s s' b b' t t' hA hrun hrun' := by
    obtain ⟨a, u, ha, hb⟩ := bind_eq_ok.1 hrun
    obtain ⟨a', u', ha', hb'⟩ := bind_eq_ok.1 hrun'
    obtain ⟨rfl, hsame⟩ := hx.settles A s s' a a' u u' hA ha ha'
    obtain ⟨rfl, hsame'⟩ := (hf a).settles _ u u' b b' t t' hsame hb hb'
    refine ⟨rfl, fun m hm => hsame' m ?_⟩
    rw [introduces_append] at hm
    tauto

theorem bind_of_nil (hx : Meets U L [] x) (hf : ∀ a, Meets U L ms' (f a)) : Meets U L ms' (x >>= f) :=
  hx.bind hf

theorem bind_nil (hx : Meets U L ms x) (hf : ∀ a, Meets U L [] (f a)) : Meets U L ms (x >>= f) := by
  have h := hx.bind hf
  rwa [List.append_nil] at h

theorem bind_lift {o : Except SchemaError α} (he : ∀ e, o = .error e → e.isSettled = true)
    (hf : ∀ a, o = .ok a → Meets U L ms (f a)) : Meets U L ms (liftM o >>= f) := by
  cases o with
  | ok a => exact hf a rfl
  | error e => exact Meets.throw (.inl (he e rfl))

theorem mapM {g : γ → Action σ α} {M : γ → List Mention} {xs : List γ}
    (h : ∀ c ∈ xs, Meets U L (M c) (g c)) : Meets U L (xs.flatMap M) (xs.mapM g) := by
  induction xs with
  | nil => exact Meets.pure []
  | cons c xs ih =>
    rw [List.mapM_cons, List.flatMap_cons]
    refine (h c List.mem_cons_self).bind fun a => ?_
    exact (ih fun d hd => h d (List.mem_cons_of_mem _ hd)).bind_nil fun as => Meets.pure _

end Meets

end Meeting

section Parse

variable {U : SchemaError → Prop} {ms : List Mention} {α : Type} {members kept : Members}
  {name space schema : Json} {hint : Bool} {depth : Nat} {type : String}

theorem introduces_cons {d m : Json} :
    Introduces (.definition d :: ms) m ↔ d.same m = true ∨ Introduces ms m := by
  simp only [Introduces, List.mem_cons, Mention.definition.injEq, or_and_right, exists_or, exists_eq_left]

theorem meets_claim_bind {f : PUnit → Parse α} (h : name.isScalar = true → Meets U .parsing ms (f ⟨⟩)) :
    Meets U .parsing ms (claim name >>= f) := by
  by_cases hscalar : name.isScalar = true
  · refine Meets.bind_of_nil ?_ fun _ => h hscalar
    exact
      { frame s m _ := by rw [claim_run]; split_ifs <;> rfl
        keeps s m hm := by rw [claim_run]; split_ifs <;> exact hm
        fails s e t hrun := by
          rw [claim_run] at hrun
          split_ifs at hrun <;> cases hrun <;> exact .inl rfl
        defines _ _ _ _ m hm := (not_introduces_nil hm).elim
        refers _ _ _ _ n hn := by cases hn
        alike N _ s s' hs := by
          have hnamed : s.named = s'.named := hs
          rw [claim_run, claim_run, hnamed]
          split_ifs
          · exact .inr (.inr rfl)
          · exact .inr (.inr rfl)
          · exact ⟨rfl, rfl⟩
        settles A s s' a a' t t' hA hrun hrun' := by
          rw [claim_run] at hrun hrun'
          split_ifs at hrun hrun' <;> cases hrun <;> cases hrun'
          exact ⟨rfl, fun m hm => hA m (hm.resolve_right not_introduces_nil)⟩ }
  · have hthrow : (claim name >>= f) = (throw .wrongShape : Parse α) := by
      funext s
      rw [Action.bind_run, claim_run, if_pos (by simpa using hscalar)]
      rfl
    rw [hthrow]
    exact Meets.throw (.inl rfl)

theorem meets_record (hname : name.isScalar = true) :
    Meets U .parsing [.definition name] (record name members) where
  frame s m hm := by
    rw [introduces_cons, not_or] at hm
    exact (Registry.find?_record hname _ _ m).trans (if_neg hm.1)
  keeps s m hm := by
    change (Registry.find? m (s.registry.record name (.obj members))).isSome = true
    rw [Registry.find?_record hname]
    split_ifs
    · rfl
    · exact hm
  fails s e t hrun := by cases hrun
  defines s a t hrun m hm := by
    rw [introduces_cons, or_iff_left not_introduces_nil] at hm
    rw [modify_eq_ok.1 hrun, Registry.find?_record hname, if_pos hm]
    rfl
  refers _ _ _ _ n hn := by simp at hn
  alike N _ := Blind.modify fun _ _ hs => hs
  settles A s s' a a' t t' hA hrun hrun' := by
    rw [modify_eq_ok.1 hrun, modify_eq_ok.1 hrun']
    refine ⟨rfl, fun m hm => ?_⟩
    rw [introduces_cons, or_iff_left not_introduces_nil] at hm
    rw [Registry.find?_record hname, Registry.find?_record hname]
    split_ifs with hsame
    · rfl
    · exact hA m (hm.resolve_right hsame)

/-- A reference is the only place where the registry is looked into. -/
theorem meets_parseReference {reference : String} :
    Meets U .parsing (if primitives.contains reference then [] else [.reference (normalName space reference)])
      (parseReference false space reference) := by
  by_cases hp : primitives.contains reference = true
  · unfold parseReference
    rw [if_pos hp, if_pos hp]
    exact Meets.pure _
  · rw [if_neg hp]
    rw [Bool.not_eq_true] at hp
    cases hname : resolve space reference with
    | error e =>
      unfold parseReference
      rw [if_neg (by rw [hp]; exact Bool.false_ne_true), hname]
      exact Meets.throw (.inl (isSettled_of_resolve hname))
    | ok name =>
      have hrun := parseReference_run hp hname
      rw [normalName_of_resolve hp hname]
      have hnone : ∀ m, ¬ Introduces [.reference name] m := by
        rintro m ⟨d, hd, -⟩
        simp at hd
      have hsucceeds : ∀ {s a t}, parseReference false space reference s = (.ok a, t) →
          a = .str name ∧ t = s ∧ s.registry.knows name = true := by
        intro s a t h
        rw [hrun] at h
        split_ifs at h with hknown <;> cases h
        exact ⟨rfl, rfl, hknown⟩
      exact
        { frame s m _ := by rw [hrun]; split_ifs <;> rfl
          keeps s m hm := by rw [hrun]; split_ifs <;> exact hm
          fails s e t h := by
            rw [hrun] at h
            split_ifs at h with hknown <;> cases h
            exact .inr (.inr ⟨name, rfl, List.mem_singleton_self _, Bool.eq_false_iff.2 hknown⟩)
          defines _ _ _ _ m hm := (hnone m hm).elim
          refers s a t h n hn := by
            obtain ⟨-, rfl, hknown⟩ := hsucceeds h
            cases List.mem_singleton.1 hn
            exact hknown
          alike N hN s s' hs := by
            have hN := hN name (List.mem_singleton_self _)
            rw [hrun, hrun]
            split_ifs with hknown hknown' hknown'
            · exact ⟨rfl, hs⟩
            · exact ⟨name, rfl, hN, Bool.eq_false_iff.2 hknown'⟩
            · exact ⟨name, rfl, hN, Bool.eq_false_iff.2 hknown⟩
            · exact .inr (.inr rfl)
          settles A s s' a a' t t' hA h h' := by
            obtain ⟨rfl, rfl, -⟩ := hsucceeds h
            obtain ⟨rfl, rfl, -⟩ := hsucceeds h'
            exact ⟨rfl, fun m hm => hA m (hm.resolve_right (hnone m))⟩ }

theorem meets_parseLeaf {key : String} :
    Meets U .parsing [.definition (definedName space members)] (parseLeaf (.obj members) space kept key) := by
  unfold parseLeaf
  refine Meets.bind_lift (fun e => isSettled_of_fullName) fun ⟨inner, name⟩ hfull => ?_
  obtain ⟨rfl, hname⟩ := fullName_eq hfull
  obtain rfl : name = definedName space members := hname
  generalize definedName space members = name
  refine meets_claim_bind fun hscalar => ?_
  refine Meets.mono (?_ : Meets U _ ([.definition name] ++ [.definition name]) _) (fun m => ?_)
    (fun n hn => ?_) fun n => ?_
  · refine (meets_record hscalar).bind fun _ => ?_
    refine Meets.bind_lift (fun e => isSettled_of_need) fun value _ => ?_
    exact (meets_record hscalar).bind_nil fun _ => Meets.pure _
  · rw [introduces_append, or_self]
  · simp [ahead] at hn
  · simp

theorem meets_parseFieldWith {parseType : Json → Json → Parse Json} {field : Json}
    (h : Meets U .parsing ms (parseType space ((field.get? "type").getD .null))) :
    Meets U .parsing ms (parseFieldWith parseType space field) := by
  cases field with
  | obj members =>
    unfold parseFieldWith
    dsimp only
    split_ifs
    · exact Meets.throw (.inl rfl)
    · refine Meets.bind_lift (fun e => isSettled_of_need) fun name _ => ?_
      refine Meets.bind_lift (fun e => isSettled_of_need) fun type htype => ?_
      rw [get?, need_eq_ok.1 htype, Option.getD_some] at h
      exact h.bind_nil fun _ => Meets.pure _
  | _ => exact Meets.throw (.inl rfl)

theorem meets_parseRecord {parseField : Json → Json → Parse Json} {M : Json → List Mention}
    (h : ∀ field ∈ fieldList members, Meets U .parsing (M ((field.get? "type").getD .null))
      (parseField (normalSpace space members) field)) :
    Meets U .parsing (.definition (definedName space members) :: (fieldTypes members).flatMap M)
      (parseRecord parseField hint (.obj members) space kept) := by
  unfold parseRecord
  refine Meets.bind_lift (fun e => isSettled_of_fullName) fun ⟨inner, name⟩ hfull => ?_
  obtain ⟨rfl, hname⟩ := fullName_eq hfull
  obtain rfl : name = definedName space members := hname
  generalize definedName space members = name
  refine meets_claim_bind fun hscalar => ?_
  -- The definition is recorded once more after the fields, which is no second mention of it.
  refine Meets.mono (?_ : Meets U _ ([.definition name] ++ ((fieldTypes members).flatMap M ++
    [.definition name])) _) (fun m => ?_) (fun n hn => ?_) fun n => ?_
  · refine (meets_record hscalar).bind fun _ => ?_
    refine Meets.bind_lift (fun e => isSettled_of_needElements) fun fields hfields => ?_
    rw [fieldTypes, List.flatMap_map]
    rw [fieldList_of_needElements hfields] at h ⊢
    refine (Meets.mapM h).bind fun parsed => ?_
    exact (meets_record hscalar).bind_nil fun _ => Meets.pure _
  · rw [introduces_append, introduces_append, introduces_cons, introduces_cons]
    have := @not_introduces_nil m
    tauto
  · simpa [mem_ahead_append, ahead] using hn
  · simp

/-- An attempt at a schema meets its mentions. It reports an object without a type that there is by its text. -/
theorem meets_parseIn (hr : Recognised schema ∨ ∀ members, U (.unknownType (obj members).literal))
    (hd : schema.depth < depth ∨ U .endless) :
    Meets U .parsing (mentions depth space schema) (parseIn depth false hint space schema) := by
  induction depth generalizing hint space schema with
  | zero => exact Meets.throw (.inr (hd.resolve_left (Nat.not_lt_zero _)))
  | succ depth ih =>
    cases schema with
    | arr branches =>
      refine (Meets.mapM fun branch hbranch => ih ?_ ?_).bind_nil fun _ => Meets.pure _
      · exact hr.imp_left fun hr => hr.branch hbranch
      · exact hd.imp_left fun hd =>
          Nat.lt_of_le_of_lt (depth_le_of_mem_items hbranch) (Nat.lt_of_succ_lt_succ hd)
    | str reference => exact meets_parseReference
    | obj members =>
      have hinner : ∀ {x : Json}, x.depth ≤ depthMembers members → x.depth < depth ∨ U .endless :=
        fun hx => hd.imp_left fun hd => Nat.lt_of_le_of_lt hx (Nat.lt_of_succ_lt_succ hd)
      rw [parseIn_obj, mentions_obj]
      refine Meets.bind_lift (fun e => isSettled_of_need) fun type htype => ?_
      refine Meets.bind_lift (fun e => isSettled_of_checkDecimal) fun _ _ => ?_
      cases hshape : shapeOf members with
      | container key =>
        refine Meets.bind_lift (fun e => isSettled_of_need) fun x hx => ?_
        replace hx := need_eq_ok.1 hx
        dsimp only
        rw [hx]
        exact (ih (hr.imp_left fun hr => hr.inner.1 key hshape hx)
          (hinner (depth_le_of_lookup hx))).bind_nil fun _ => Meets.pure _
      | leaf key => exact meets_parseLeaf
      | record =>
        refine meets_parseRecord fun field hfield => meets_parseFieldWith (ih ?_ ?_)
        · exact hr.imp_left fun hr => hr.inner.2.1 hshape (mem_fieldTypes hfield)
        · exact hinner (depth_le_of_mem_fieldTypes (mem_fieldTypes hfield))
      | plain =>
        rw [parseMembers]
        split_ifs with hprimitive
        · exact Meets.pure _
        · refine Meets.throw (.inr (hr.elim (fun hr => ?_) fun hU => hU members))
          exact absurd ((hr.inner (x := .null)).2.2 hshape) hprimitive
        · exact Meets.throw (.inl rfl)
    | _ => exact Meets.throw (.inl rfl)

theorem meets_parseFresh (hr : Recognised schema ∨ ∀ members, U (.unknownType (obj members).literal)) :
    Meets U .plain (mentions (schema.depth + 1) (.str "") schema) (parseFresh false hint schema) := by
  have h : Meets U .parsing _ (parseIn (schema.depth + 1) false hint (.str "") schema) :=
    meets_parseIn hr (.inl (Nat.lt_succ_self _))
  exact
    { frame r m := h.frame ⟨r, []⟩ m
      keeps r m := h.keeps ⟨r, []⟩ m
      fails r e t hfresh := by
        obtain ⟨s, hs, rfl⟩ := parseFresh_eq_iff.1 hfresh
        exact h.fails _ e s hs
      defines r d t hfresh := by
        obtain ⟨s, hs, rfl⟩ := parseFresh_eq_iff.1 hfresh
        exact h.defines _ d s hs
      refers r d t hfresh := by
        obtain ⟨s, hs, rfl⟩ := parseFresh_eq_iff.1 hfresh
        exact h.refers _ d s hs
      alike N hN r r' _ := by
        have hrun := h.alike N hN ⟨r, []⟩ ⟨r', []⟩ rfl
        unfold parseFresh parseWith
        rcases hx : parseIn (schema.depth + 1) false hint (.str "") schema ⟨r, []⟩ with ⟨e | d, t⟩ <;>
          rcases hy : parseIn (schema.depth + 1) false hint (.str "") schema ⟨r', []⟩ with ⟨e' | d', t'⟩ <;>
          simp only [hx, hy] at hrun ⊢
        · exact hrun
        · exact hrun
        · exact hrun
        · exact ⟨hrun.1, trivial⟩
      settles A r r' d d' t t' hA hfresh hfresh' := by
        obtain ⟨s, hs, rfl⟩ := parseFresh_eq_iff.1 hfresh
        obtain ⟨s', hs', rfl⟩ := parseFresh_eq_iff.1 hfresh'
        exact h.settles A ⟨r, []⟩ ⟨r', []⟩ d d' s s' hA hs hs' }

theorem meets_parseTop (hr : Recognised schema ∨ ∀ members, U (.unknownType (obj members).literal))
    (hd : schema.depth < depth ∨ U .endless) :
    Meets U .plain (topMentions depth schema) (parseTop depth {} schema) := by
  induction depth generalizing schema with
  | zero => exact Meets.throw (.inr (hd.resolve_left (Nat.not_lt_zero _)))
  | succ depth ih =>
    cases schema with
    | obj members =>
      rw [topMentions, parseTop]
      simp only [Bool.or_self, Bool.false_eq_true, if_false]
      split_ifs
      · exact Meets.pure _
      · exact meets_parseFresh hr
    | arr branches =>
      refine (Meets.mapM fun branch hbranch => ih ?_ ?_).bind_nil fun _ => Meets.pure _
      · exact hr.imp_left fun hr => hr.branch hbranch
      · exact hd.imp_left fun hd =>
          Nat.lt_of_le_of_lt (depth_le_of_mem_items hbranch) (Nat.lt_of_succ_lt_succ hd)
    | _ =>
      simp only [topMentions, parseTop, Bool.or_self, Bool.false_eq_true, if_false]
      exact meets_parseFresh hr

theorem meets_parse (hr : Recognised schema) :
    Meets (fun _ => False) .plain (topMentions (schema.depth + 1) schema) (parse schema) :=
  meets_parseTop (.inl hr) (.inl (Nat.lt_succ_self _))

end Parse

end Schema

end AvroCodec
