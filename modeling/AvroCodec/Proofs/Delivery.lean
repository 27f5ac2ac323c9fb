import AvroCodec.Proofs.Choice

/-!
# Records and whole codes that succeed

The fields of a record are written one after the other, each from what the ones before have left alone.
With this all code for a form is known to add nothing that cannot be read, at any depth of calls.
-/

namespace AvroCodec

open Code Form Encoder

variable {env : String → Option Form} {f : Form} {host : Value} {scope : WriteScope} {p : Place} {e : Encoder}
  {name : String}

theorem Field.sends_filling (field : Field Form) (h : ∀ host, Sends env field.type p.keys host (e.run scope host))
    {eff : Effect} (hrun : ((field.filling p e).run scope host).result = .ok eff)
    (hfit : ¬ Misfit env field.type (field.given (host.peek p.keys))) :
    Sent env field.type eff ∧ Value.Frame p.keys host ((field.filling p e).run scope host).value := by
  unfold Field.filling at hrun ⊢
  unfold Field.given at hfit
  cases hdefault : field.default with
  | none =>
    simp only [hdefault] at hrun hfit ⊢
    exact h host eff hrun hfit
  | some default =>
    simp only [hdefault, run] at hrun hfit ⊢
    cases hfill : fill p.keys ((Default.value? default).getD .null) host with
    | error e => simp [hfill] at hrun
    | ok host' =>
      simp only [hfill] at hrun ⊢
      obtain ⟨hframe, hpeek⟩ := fill_eq_ok hfill
      rw [← hpeek] at hfit
      obtain ⟨hsent, hframe'⟩ := h host' eff hrun hfit
      exact ⟨hsent, hframe.trans hframe'⟩

namespace Code.Encoder

/-- The fields of a record whose code succeeds. -/
theorem exists_parts_of_runParts (parts : List (Field Form × Encoder))
    (hnames : ∀ q ∈ parts, isFieldName q.1.name = true) (hnodup : (parts.map (·.1.name)).Nodup)
    (h : ∀ q ∈ parts, ∀ host,
      Sends env q.1.type (p.member (.str q.1.name)).keys host (run scope q.2 host)) {eff : Effect}
    (hrun : (runParts scope (parts.map fun q => q.1.filling (p.member (.str q.1.name)) q.2) host).result =
      .ok eff)
    (hfit : ∀ q ∈ parts, ¬ Misfit env q.1.type (q.1.given (host.peek (p.keys ++ [q.1.name])))) :
    (∃ sent : List (Field Form × Value × List UInt8), sent.map (·.1) = parts.map (·.1) ∧
      eff.Emits (sent.flatMap (·.2.2)) ∧ ∀ q ∈ sent, Decodes env q.1.type q.2.2 q.2.1) ∧
    Value.Frame p.keys host
      (runParts scope (parts.map fun q => q.1.filling (p.member (.str q.1.name)) q.2) host).value := by
  induction parts generalizing host eff with
  | nil =>
    simp only [List.map_nil, runParts] at hrun ⊢
    cases hrun
    exact ⟨⟨[], rfl, Effect.emits_none, by simp⟩, .refl _ _⟩
  | cons q parts ih =>
    simp only [List.map_cons, runParts, Written.andThen] at hrun ⊢
    cases hq : (run scope (q.1.filling (p.member (.str q.1.name)) q.2) host).result with
    | error e => simp [hq] at hrun
    | ok front =>
      simp only [hq] at hrun ⊢
      obtain ⟨rest, hrest, rfl⟩ := except_map_eq_ok.1 hrun
      have hkeys := Place.keys_member (hnames q List.mem_cons_self) p
      obtain ⟨⟨bytes, x, hemits, hdecodes⟩, hframe⟩ := q.1.sends_filling (h q List.mem_cons_self) hq
        (by rw [hkeys]; exact hfit q List.mem_cons_self)
      rw [hkeys] at hframe
      rw [List.map_cons, List.nodup_cons] at hnodup
      -- later fields are at paths that part from this one's
      have hlater : ∀ q' ∈ parts, ¬ Misfit env q'.1.type (q'.1.given
          ((run scope (q.1.filling (p.member (.str q.1.name)) q.2) host).value.peek
            (p.keys ++ [q'.1.name]))) := by
        intro q' hq'
        have hne : q'.1.name ≠ q.1.name := by
          intro he
          exact hnodup.1 (he ▸ List.mem_map_of_mem hq')
        rw [hframe.peek_eq (Value.apart_concat p.keys hne)]
        exact hfit q' (List.mem_cons_of_mem _ hq')
      obtain ⟨⟨sent, hsent, hall, hdecodes'⟩, hframe'⟩ :=
        ih (fun q hq => hnames q (List.mem_cons_of_mem _ hq)) hnodup.2
          (fun q hq => h q (List.mem_cons_of_mem _ hq)) hrest hlater
      exact ⟨⟨(q.1, x, bytes) :: sent, by rw [List.map_cons, hsent], hemits.andThen hall,
        List.forall_mem_cons.2 ⟨hdecodes, hdecodes'⟩⟩, hframe.of_concat.trans hframe'⟩

theorem sends_record (parts : List (Field Form × Encoder))
    (hnames : ∀ q ∈ parts, isFieldName q.1.name = true) (hnodup : (parts.map (·.1.name)).Nodup)
    (h : ∀ q ∈ parts, ∀ host,
      Sends env q.1.type (p.member (.str q.1.name)).keys host (run scope q.2 host)) :
    Sends env (.record (parts.map (·.1))) p.keys host
      (run scope (.fields (parts.map fun q => q.1.filling (p.member (.str q.1.name)) q.2)) host) := by
  intro eff hrun hfit
  rw [run] at hrun ⊢
  obtain ⟨⟨sent, hsent, hemits, hdecodes⟩, hframe⟩ := exists_parts_of_runParts parts hnames hnodup h hrun
    fun q hq hmisfit => hfit (.field (List.mem_map_of_mem hq) (by rwa [← Value.peek_concat]))
  rw [← hsent]
  exact ⟨⟨_, _, hemits, .record sent hdecodes⟩, hframe⟩

end Code.Encoder

theorem Form.Sends.named {path : List String} {w : Written} (hn : env name = some f)
    (h : Sends env f path host w) : Sends env (.named name) path host w := by
  intro eff hrun hfit
  obtain ⟨⟨bytes, x, hemits, hdecodes⟩, hframe⟩ := h eff hrun fun hmisfit => hfit (.named hn hmisfit)
  exact ⟨⟨bytes, x, hemits, .named hn hdecodes⟩, hframe⟩

theorem Code.Encoder.sends_recur (h : ∀ x, Sends env f [] x (scope.call name x)) :
    Sends env f p.keys host (run scope (.recur name p) host) := by
  rw [run]
  refine sends_inside fun x eff hx hfit => ?_
  obtain ⟨body, hbody, rfl⟩ := except_map_eq_ok.1 hx
  obtain ⟨⟨bytes, y, hemits, hdecodes⟩, -⟩ := h x body hbody hfit
  exact ⟨bytes, y, hemits.call, hdecodes⟩

/-- Code for a form that succeeds on a value without misfit adds what stands for a value of the form. -/
theorem Writer.sends {known : String → Prop} {table : List (String × Routine)} {root : Form}
    (htable : WritesKnown env known table) (hnames : NamesApart env root) {K : Nat} {tags : List String} {g : Bool}
    (h : Writer env known f p e) (hpart : Part env root g f) (host : Value) :
    Sends env f p.keys host (e.run ⟨tags, Routine.writeCall table K⟩ host) := by
  -- on the depth of calls, and inside on the code of one function
  induction K using Nat.strong_induction_on generalizing f p tags g e host with
  | _ K ihK =>
  induction h generalizing g host with
  | null =>
    intro eff hrun _
    rw [run] at hrun ⊢
    cases hrun
    exact ⟨⟨[], .null, Effect.emits_none, .null⟩, .refl _ _⟩
  | basic hb =>
    rw [run]
    exact sends_primitive hb
  | @defaulted p type default hb =>
    intro eff hrun _
    refine Field.sends_filling ⟨"", some default, .basic type⟩ (e := .primitive type p)
      (fun host => ?_) hrun (fun hmisfit => by cases hmisfit)
    rw [run]
    exact sends_primitive hb
  | fixed =>
    rw [run]
    exact sends_fixed
  | enum =>
    rw [run]
    exact sends_enum
  | array _ ih =>
    rw [run]
    exact sends_array fun x eff hx hfit => (ih hpart.items x eff hx hfit).1
  | map _ ih =>
    rw [run]
    exact sends_map fun x eff hx hfit => (ih hpart.values x eff hx hfit).1
  | record parts hfields hplain _ _ ih =>
    subst hfields
    have hnodup := hnames _ _ hpart
    rw [List.map_map] at hnodup
    exact sends_record parts hplain hnodup fun q hq =>
      ih q hq (hpart.field (List.mem_map_of_mem hq))
  | union parts hsubject hmem hindex htag hguard _ _ ihPlain ihTagged =>
    have hbranch : ∀ q ∈ parts, Part env root _ q.1 := fun q hq =>
      hpart.branch ((hmem _).2 (List.mem_map_of_mem hq))
    exact sends_union hmem hindex hsubject htag hguard
      (fun q hq => ihPlain q hq (hbranch q hq)) (fun q hq => ihTagged q hq (hbranch q hq))
  | named hn _ ih => exact (ih (hpart.definition hn) host).named hn
  | recur hk =>
    obtain ⟨fields, routine, hn, hroutine, hwriter⟩ := htable _ hk
    refine sends_recur fun x => .named hn ?_
    cases K with
    | zero =>
      intro eff hrun
      cases hrun
    | succ K =>
      simp only [Routine.writeCall, hroutine]
      exact ihK K (Nat.lt_succ_self K) hwriter (hpart.definition hn) x

end AvroCodec
