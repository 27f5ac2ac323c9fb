import AvroCodec.Proofs.Drawing

/-!
# Compiling code again

If code can be compiled, then so can any other code that was generated for the same schema, with functions
for the recursive types that it calls. For code that writes this is so because of what copies have in
common. Code that reads has different variables for its loops, and a value is read to each of them or not.
-/

namespace AvroCodec

open Code Gen

namespace Code.Encoder

/-- What code and its copies have in common. -/
structure Same (a b : Encoder) : Prop where
  blank : a.isBlank = b.isBlank
  calls : a.calls = b.calls
  defaults : a.defaults = b.defaults
  weight : a.defaultWeight = b.defaultWeight
  sound : ∀ {functions functions'}, a.isSound functions = true → (∀ name ∈ b.calls, functionSuffix name ∈ functions') →
    b.isSound functions' = true

theorem same_fields {parts : List (Encoder × Encoder)} (h : ∀ e ∈ parts, Same e.1 e.2) :
    Same (.fields (parts.map (·.1))) (.fields (parts.map (·.2))) := by
  induction parts with
  | nil => exact ⟨rfl, rfl, rfl, rfl, fun _ _ => rfl⟩
  | cons e parts ih =>
    have hhead := h e List.mem_cons_self
    have htail := ih fun e he => h e (List.mem_cons_of_mem _ he)
    constructor
    · exact congrArg₂ (· && ·) hhead.blank htail.blank
    · exact congrArg₂ (· ++ ·) hhead.calls htail.calls
    · exact congrArg₂ (· ++ ·) hhead.defaults htail.defaults
    · exact congrArg₂ (· + ·) hhead.weight htail.weight
    · intro functions functions' hs hcalls
      obtain ⟨hs, hss⟩ := Bool.and_eq_true_iff.1 hs
      exact Bool.and_eq_true_iff.2 ⟨hhead.sound hs fun name hname => hcalls name (List.mem_append_left _ hname),
        htail.sound hss fun name hname => hcalls name (List.mem_append_right _ hname)⟩

theorem same_union {s s' : Subject} {t t' x y : String} {branches : List (Branch Encoder × Branch Encoder)}
    (hsubject : s.isSound = s'.isSound) (hbranch : ∀ b ∈ branches, b.1.tag = b.2.tag ∧ b.1.guard = b.2.guard)
    (hplain : ∀ b ∈ branches, Same b.1.plain b.2.plain) (htagged : ∀ b ∈ branches, Same b.1.tagged b.2.tagged) :
    Same (.union s t x (branches.map (·.1))) (.union s' t' y (branches.map (·.2))) := by
  have hall : callsBranches (branches.map (·.1)) = callsBranches (branches.map (·.2)) ∧
      defaultsBranches (branches.map (·.1)) = defaultsBranches (branches.map (·.2)) ∧
      branchWeights (branches.map (·.1)) = branchWeights (branches.map (·.2)) ∧
      ∀ {functions functions'}, branchesSound functions (branches.map (·.1)) = true →
        (∀ name ∈ callsBranches (branches.map (·.2)), functionSuffix name ∈ functions') →
        branchesSound functions' (branches.map (·.2)) = true := by
    induction branches with
    | nil => exact ⟨rfl, rfl, rfl, fun _ _ => rfl⟩
    | cons b branches ih =>
      obtain ⟨htag, hguard⟩ := hbranch b List.mem_cons_self
      have hp := hplain b List.mem_cons_self
      have ht := htagged b List.mem_cons_self
      obtain ⟨hcalls, hdefaults, hweight, hsound⟩ := ih (fun b hb => hbranch b (List.mem_cons_of_mem _ hb))
        (fun b hb => hplain b (List.mem_cons_of_mem _ hb)) fun b hb => htagged b (List.mem_cons_of_mem _ hb)
      refine ⟨?_, ?_, ?_, fun hs hknown => ?_⟩
      · simp only [List.map_cons, callsBranches, hp.calls, ht.calls, hcalls]
      · simp only [List.map_cons, defaultsBranches, hp.defaults, ht.defaults, hdefaults]
      · simp only [List.map_cons, branchWeights, hp.weight, ht.weight, hweight]
      · simp only [List.map_cons, branchesSound, Bool.and_eq_true] at hs ⊢
        simp only [List.map_cons, callsBranches, List.mem_append, or_imp, forall_and] at hknown
        exact ⟨⟨⟨htag ▸ hguard ▸ hs.1.1.1, ht.sound hs.1.1.2 hknown.1.1⟩, hp.sound hs.1.2 hknown.1.2⟩,
          hsound hs.2 hknown.2⟩
  obtain ⟨hcalls, hdefaults, hweight, hsound⟩ := hall
  refine ⟨rfl, hcalls, hdefaults, hweight, fun hs hknown => ?_⟩
  simp only [isSound, Bool.and_eq_true, List.isEmpty_map] at hs ⊢
  exact ⟨⟨hsubject ▸ hs.1.1, hs.1.2⟩, hsound hs.2 hknown⟩

/-- Copies at places with the same subscripts. -/
theorem Copies.same {T : String → String → Prop} {p q : Place} {a b : Encoder} (h : Copies T p q a b)
    (hpath : p.path = q.path) : Same a b := by
  have hsound : ∀ {p q : Place}, p.path = q.path → ∀ path, (p.reach path).isSound = (q.reach path).isSound := by
    intro p q hpath path
    simp only [Place.reach, Place.isSound, hpath]
  have hsplit : ∀ {p q : Place}, p.path = q.path → ∀ path, (p.reach path).isSplit = (q.reach path).isSplit := by
    intro p q hpath path
    simp only [Place.reach, Place.isSplit, hpath]
  induction h with
  | null => exact ⟨rfl, rfl, rfl, rfl, fun _ _ => rfl⟩
  | primitive type path =>
    exact ⟨rfl, rfl, rfl, rfl, fun hs _ => by rwa [isSound, hsound hpath] at hs⟩
  | logical type path =>
    exact ⟨rfl, rfl, rfl, rfl, fun hs _ => by rwa [isSound, hsound hpath] at hs⟩
  | fields parts _ ih => exact same_fields fun e he => ih e he hpath
  | filled path default _ ih =>
    have hnext := ih hpath
    refine ⟨rfl, hnext.calls, congrArg (default :: ·) hnext.defaults, congrArg (_ + ·) hnext.weight,
      fun hs hcalls => ?_⟩
    rw [isSound, hsound hpath, hsplit hpath, Bool.and_eq_true] at hs
    rw [isSound, Bool.and_eq_true]
    exact ⟨hs.1, hnext.sound hs.2 hcalls⟩
  | array path _ ih =>
    have hbody := ih rfl
    refine ⟨rfl, hbody.calls, hbody.defaults, hbody.weight, fun hs hcalls => ?_⟩
    rw [isSound, hsound hpath, hbody.blank, Bool.and_eq_true] at hs
    rw [isSound, Bool.and_eq_true]
    exact ⟨hs.1, hbody.sound hs.2 hcalls⟩
  | enum path symbols =>
    exact ⟨rfl, rfl, rfl, rfl, fun hs _ => by rwa [isSound, hsound hpath] at hs⟩
  | map path _ ih =>
    have hbody := ih rfl
    refine ⟨rfl, hbody.calls, hbody.defaults, hbody.weight, fun hs hcalls => ?_⟩
    rw [isSound, hsound hpath, Bool.and_eq_true] at hs
    rw [isSound, Bool.and_eq_true]
    exact ⟨hs.1, hbody.sound hs.2 hcalls⟩
  | union branches hsubject _ hbranch _ _ _ ihplain ihtagged _ =>
    refine same_union ?_ (fun b hb => ⟨(hbranch b hb).1, (hbranch b hb).2.2⟩) (fun b hb => ihplain b hb hpath)
      fun b hb => ihtagged b hb rfl
    cases hsubject with
    | value => exact hsound hpath _
    | member path key => rw [Subject.isSound, Subject.isSound, hsound hpath]
  | recur name path =>
    refine ⟨rfl, rfl, rfl, rfl, fun hs hcalls => ?_⟩
    rw [isSound, hsound hpath, Bool.and_eq_true] at hs
    rw [isSound, Bool.and_eq_true, List.contains_iff_mem]
    exact ⟨hs.1, hcalls name (List.mem_singleton_self name)⟩

end Code.Encoder

/-! ### Code that reads -/

/-- Places that do not tell codes apart. -/
structure Code.Place.Like (p q : Place) : Prop where
  sound : p.isSound = q.isSound
  isEmpty : p.path.isEmpty = q.path.isEmpty

namespace Code.Place.Like

variable {p q : Place} (h : p.Like q)
include h

theorem member (name : Json) : (p.member name).Like (q.member name) where
  sound := by simp only [isSound, Place.member, List.all_append, show p.path.all _ = q.path.all _ from h.sound]
  isEmpty := Bool.eq_iff_iff.2 (by simp [Place.member])

theorem entry (key key' : String) : (p.entry key).Like (q.entry key') where
  sound := by
    simp only [isSound, Place.entry, List.all_append, show p.path.all _ = q.path.all _ from h.sound]
    rfl
  isEmpty := Bool.eq_iff_iff.2 (by simp [Place.entry])

theorem own (d : Json) : (Parallel.ownPlace d p).Like (Parallel.ownPlace d q) := by
  unfold Parallel.ownPlace
  split_ifs
  · exact h.member _
  · exact h

end Code.Place.Like

namespace Code.Decoder

structure Same (a b : Decoder) : Prop where
  slots : a.slots = b.slots
  sound : ∀ {functions functions'}, a.isSound functions = true → (∀ name ∈ b.calls, functionSuffix name ∈ functions') →
    b.isSound functions' = true

def SameAt (p q : Place) (a b : Decoder) : Prop := p.Like q → Same a b

theorem same_parts {as bs : List Decoder} (h : List.Forall₂ Same as bs) : slotsParts as = slotsParts bs ∧
    ∀ {functions functions'}, areSound functions as = true →
      (∀ name ∈ callsParts bs, functionSuffix name ∈ functions') → areSound functions' bs = true := by
  induction h with
  | nil => exact ⟨rfl, fun _ _ => rfl⟩
  | cons hab _ ih =>
    refine ⟨by rw [slotsParts, slotsParts, hab.slots, ih.1], fun hs hcalls => ?_⟩
    simp only [areSound, callsParts, Bool.and_eq_true, List.mem_append, or_imp, forall_and] at hs hcalls ⊢
    exact ⟨hab.sound hs.1 hcalls.1, ih.2 hs.2 hcalls.2⟩

theorem same_cases {cs cs' : List (Json × Decoder)} (h : List.Forall₂ (fun c c' => Same c.2 c'.2) cs cs') :
    slotsCases cs = slotsCases cs' ∧ ∀ {functions functions'}, casesSound functions cs = true →
      (∀ name ∈ callsCases cs', functionSuffix name ∈ functions') → casesSound functions' cs' = true := by
  induction h with
  | nil => exact ⟨rfl, fun _ _ => rfl⟩
  | cons hab _ ih =>
    refine ⟨by rw [slotsCases, slotsCases, hab.slots, ih.1], fun hs hcalls => ?_⟩
    simp only [casesSound, callsCases, Bool.and_eq_true, List.mem_append, or_imp, forall_and] at hs hcalls ⊢
    exact ⟨hab.sound hs.1 hcalls.1, ih.2 hs.2 hcalls.2⟩

theorem same_leaf {a b : Decoder} {p q : Place} (hpq : p.Like q) (ha : a.slots = .leaf p) (hb : b.slots = .leaf q)
    (hsound : ∀ {functions functions'}, a.isSound functions = true →
      (∀ name ∈ b.calls, functionSuffix name ∈ functions') → b.isSound functions' = true) : Same a b :=
  ⟨by rw [ha, hb, Slots.leaf, Slots.leaf, hpq.isEmpty], hsound⟩

theorem same_union {p q : Place} {x y : String} {extended : Bool} {cs cs' : List (Json × Decoder)} (hpq : p.Like q)
    (h : List.Forall₂ (fun c c' => Same c.2 c'.2) cs cs') :
    Same (.union p x extended cs) (.union q y extended cs') := by
  refine ⟨(same_cases h).1, fun hs hcalls => ?_⟩
  rw [isSound, hpq.sound, Bool.and_eq_true] at hs
  rw [isSound, Bool.and_eq_true]
  exact ⟨hs.1, (same_cases h).2 hs.2 hcalls⟩

end Code.Decoder

namespace Store

variable {schemata : Schemata} {store : Store} {g g' : Schema.Registry} {extended : Bool}

variable (h : Store.build schemata g = (.ok store, g')) (hc : store.Consistent)

variable {d d' : Json} {known known' : String → Prop} {functions functions' : List String} {name : String}
include h hc

open Decoder in
theorem pairs_decode (n m : Nat) (p q : Place) (halike : d.Alike d') :
    Pairs ⟨store, extended⟩ ((Recursion.checked n).decode d p) ((Recursion.checked m).decode d' q) (SameAt p q) := by
  induction n generalizing m d d' p q with
  | zero => exact Pairs.throw _
  | succ n ih =>
    cases m with
    | zero => exact Pairs.throw_right _
    | succ m =>
      have hreading : (pairing ⟨store, extended⟩).Reading Json.Alike Json.Alike (fun _ _ => True)
        (.checked n) (.checked m)
          (fun _ _ => True) (fun _ _ _ _ => SameAt) fun _ _ _ _ => SameAt :=
        { toPremises := pairs_premises h hc _ _
          decode := fun hd _ => ih m _ _ hd
          value := fun _ => trivial
          entry := fun _ _ => trivial
          member := fun _ => trivial
          rules :=
            { mono := fun _ _ h => h
              null := fun _ hpq => same_leaf hpq rfl rfl fun hs _ => by rwa [isSound, hpq.sound] at hs
              primitive := fun _ _ _ _ hpq => same_leaf hpq rfl rfl fun hs _ => by rwa [isSound, hpq.sound] at hs
              fixed := fun _ _ _ _ hpq => same_leaf hpq rfl rfl fun hs _ => by rwa [isSound, hpq.sound] at hs
              basic := fun {_ d _ _ _ _} _ _ _ _ hpq =>
                same_leaf (hpq.own d) rfl rfl fun hs _ => by rwa [isSound, (hpq.own d).sound] at hs
              recur := fun {_ _ _ _ _ _ name} _ _ _ _ _ hpq => same_leaf hpq rfl rfl fun hs hcalls => by
                rw [isSound, hpq.sound, Bool.and_eq_true] at hs
                rw [isSound, Bool.and_eq_true, List.contains_iff_mem]
                exact ⟨hs.1, hcalls name (List.mem_singleton_self name)⟩
              loaded := fun _ _ _ hab => hab
              reference := fun _ _ _ _ _ hab hpq => hab (hpq.member _)
              logical := fun _ _ _ _ hpq => same_leaf hpq rfl rfl fun hs _ => by rwa [isSound, hpq.sound] at hs
              record := fun _ _ _ _ _ hab hpq => by
                obtain ⟨hslots, hsound⟩ := same_parts ((hab.rows fun _ _ => id).results fun hab => hab hpq)
                refine ⟨by rw [slots, slots, hslots, Slots.leaf, hpq.isEmpty, Slots.leaf], fun hs hcalls => ?_⟩
                rw [isSound, hpq.sound, Bool.and_eq_true] at hs
                rw [isSound, Bool.and_eq_true]
                exact ⟨hs.1, hsound hs.2 hcalls⟩
              array := fun _ _ _ _ _ _ _ hab hpq => by
                obtain ⟨hslots, hsound⟩ := hab ⟨rfl, rfl⟩
                refine ⟨by rw [slots, slots, hslots, hpq.isEmpty], fun hs hcalls => ?_⟩
                rw [isSound, hpq.sound, Bool.and_eq_true] at hs
                rw [isSound, Bool.and_eq_true]
                exact ⟨hs.1, hsound hs.2 hcalls⟩
              enum := fun _ _ _ _ hpq => same_leaf hpq rfl rfl fun hs _ => by rwa [isSound, hpq.sound] at hs
              map := fun _ _ _ _ _ _ _ hab hpq => by
                obtain ⟨hslots, hsound⟩ := hab (hpq.entry _ _)
                refine ⟨by rw [slots, slots, hslots, Slots.leaf, hpq.isEmpty, Slots.leaf], fun hs hcalls => ?_⟩
                rw [isSound, hpq.sound, Bool.and_eq_true] at hs
                rw [isSound, Bool.and_eq_true]
                exact ⟨hs.1, hsound hs.2 hcalls⟩
              union := fun _ _ _ hcs hpq =>
                same_union hpq ((hcs.rows fun _ _ => id).results fun hc => hc.2.2.2 hpq)
              unionField := fun _ _ _ _ _ hcs hpq =>
                same_union (hpq.member _) ((hcs.rows fun _ _ => id).results fun hc => hc.2.2.2 (hpq.member _))
              nested := fun _ _ _ _ hab hpq => hab (hpq.member _) } }
      exact Pairs.visiting (hreading.decodeStep (w := ()) halike trivial)

theorem isComplete_of_decodes {a b : Decoder} (ha : Setting.Decodes ⟨store, extended⟩ known d (.of "data") a)
    (hb : Setting.Decodes ⟨store, extended⟩ known' d' (.of "data") b) (halike : d.Alike d')
    (hcomplete : a.isComplete functions = true)
    (hcalls : ∀ name ∈ b.calls, functionSuffix name ∈ functions') : b.isComplete functions' = true := by
  obtain ⟨x, n, s, t, hx, hrun, -⟩ := ha
  obtain ⟨y, m, s', t', hy, hrun', -⟩ := hb
  obtain ⟨hslots, hsound'⟩ := pairs_decode h hc n m _ _ (hx.symm.trans (halike.trans hy)) hrun hrun' ⟨rfl, rfl⟩
  have hdrawn := Recursion.drawn_checked (hasDot_of_contains h) n hrun
  have hdrawn' := Recursion.drawn_checked (hasDot_of_contains h) m hrun'
  obtain ⟨hsound, hassigned⟩ := Decoder.isComplete_iff.1 hcomplete
  refine Decoder.isComplete_iff.2 ⟨hsound' hsound hcalls, (Decoder.assigned_iff hdrawn').2 ?_⟩
  rw [← hslots]
  exact (Decoder.assigned_iff hdrawn).1 hassigned

theorem isSound_of_encodes {x y : String} {a b : Encoder} (ha : Setting.Encodes ⟨store, extended⟩ known d (.of x) a)
    (hb : Setting.Encodes ⟨store, extended⟩ known' d' (.of y) b) (halike : d.Alike d')
    (hsound : a.isSound functions = true)
    (hcalls : ∀ name ∈ b.calls, functionSuffix name ∈ functions') : b.isSound functions' = true := by
  exact ((copied_of_encodes h hc ha hb halike).same rfl).sound hsound hcalls

theorem Coded.exists_definition {r : Routine}
    (hr : store.Coded extended known name r) : ∃ d, Json.lookup name store.database = some d ∧
      Setting.Encodes ⟨store, extended⟩ known d (.of "data") r.writer ∧
      Setting.Decodes ⟨store, extended⟩ known d (.of "data") r.reader := by
  obtain ⟨x, hx, ⟨y, n, s, t, hy, hwriter⟩, ⟨z, m, s', t', hz, hreader⟩⟩ := hr.exists_schema
  obtain ⟨d, hd, halike⟩ := hx.exists_lookup h hc
  obtain ⟨w, registry, hparse, hw⟩ := ((hc.parsed hd).alike halike).exists_parseOpen []
  have hnormal : d.Alike (Schema.normal x) := Schema.parseOpen_eq hparse ▸ halike.trans hw.symm
  exact ⟨d, hd, ⟨y, n, s, t, hnormal.trans hy, hwriter⟩, ⟨z, m, s', t', hnormal.trans hz, hreader⟩⟩

theorem Coded.isSound {r r' : Routine} (hr : store.Coded extended known name r)
    (hr' : store.Coded extended known' name r') (hsound : r.isSound functions = true)
    (hknown : ∀ name, known' name → functionSuffix name ∈ functions') : r'.isSound functions' = true := by
  obtain ⟨d, hd, hwriter, hreader⟩ := hr.exists_definition h hc
  obtain ⟨d', hd', hwriter', hreader'⟩ := hr'.exists_definition h hc
  cases hd.symm.trans hd'
  rw [Routine.isSound, Bool.and_eq_true] at hsound ⊢
  exact ⟨isSound_of_encodes h hc hwriter hwriter' (.refl d) hsound.1 fun name hname =>
    hknown name (hr'.writer name hname),
    isComplete_of_decodes h hc hreader hreader' (.refl d) hsound.2 fun name hname =>
      hknown name (hr'.reader name hname)⟩

end Store

end AvroCodec
