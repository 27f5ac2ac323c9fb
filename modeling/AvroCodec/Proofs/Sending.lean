import AvroCodec.Proofs.Misfit

/-!
# Code that succeeds

What code for a form adds when it succeeds, one lemma for each construct. The value is arbitrary, except
that it has no misfit.
-/

namespace AvroCodec

open Code Form

variable {env : String → Option Form} {f : Form} {path : List String} {host : Value}

theorem Form.sends_inside {F : Value → Written}
    (h : ∀ x eff, (F x).result = .ok eff → ¬ Misfit env f x → Sent env f eff) :
    Sends env f path host (Encoder.inside path F host) := by
  intro eff hresult hfit
  obtain ⟨x, hwalk, hx, hframe⟩ := Encoder.exists_of_inside hresult
  rw [Value.peek_of_walk hwalk] at hfit
  exact ⟨h x eff hx hfit, hframe⟩

namespace Code.Encoder

variable {F : Value → Written} {eff : Effect}

theorem exists_of_only {F : Value → Except CodecError (List UInt8)} {v : Value}
    (h : (only F v).result = .ok eff) : ∃ bytes, F v = .ok bytes ∧ eff.Emits bytes := by
  obtain ⟨bytes, hbytes, rfl⟩ := except_map_eq_ok.1 h
  exact ⟨bytes, hbytes, Effect.emits_put bytes⟩

theorem sends_primitive {type : String} (hb : Gen.isBasic type = true) :
    Sends env (.basic type) path host (inside path (only (Primitive.write type)) host) := by
  refine sends_inside fun x eff hx _ => ?_
  obtain ⟨bytes, hbytes, hemits⟩ := exists_of_only hx
  obtain ⟨y, hy⟩ := Primitive.exists_reads_of_write hb hbytes
  exact ⟨bytes, y, hemits, .basic hy⟩

theorem sends_fixed {size : Nat} :
    Sends env (.fixed size) path host (inside path (only (Primitive.write "fixed")) host) := by
  refine sends_inside fun x eff hx hfit => ?_
  obtain ⟨bytes, hbytes, hemits⟩ := exists_of_only hx
  have hsize : bytes.length = size := by
    by_contra hne
    cases x with
    | bytes data =>
      cases hbytes
      exact hfit (.size hne)
    | buffer data =>
      cases hbytes
      exact hfit (.bufferSize hne)
    | _ => cases hbytes
  exact ⟨bytes, .bytes bytes, hemits, hsize ▸ .fixed bytes⟩

theorem sends_enum {symbols : List String} :
    Sends env (.enum symbols) path host
      (inside path (only (writeSymbol (.arr (symbols.map .str)))) host) := by
  refine sends_inside fun x eff hx _ => ?_
  obtain ⟨bytes, hbytes, hemits⟩ := exists_of_only hx
  unfold writeSymbol at hbytes
  cases hi : (symbols.map Json.str).findIdx? (Value.equals · x) with
  | none => simp [hi] at hbytes
  | some i =>
    simp only [hi] at hbytes
    have hlt : i < symbols.length := by
      simpa using (List.findIdx?_eq_some_iff_getElem.1 hi).1
    obtain ⟨-, rfl⟩ := Varint.eq_bytesOf_of_encode hbytes
    exact ⟨_, _, hemits, .enum (List.getElem?_eq_getElem hlt) (Varint.lt_limit_of_encode hbytes)⟩

theorem exists_of_writeCounted {count : Nat} {parts : Except CodecError Effect}
    (h : writeCounted count parts = .ok eff) (hzero : count = 0 → ∃ body, parts = .ok body) :
    count < Varint.limit ∧ ∃ body, parts = .ok body ∧
      ∀ bytes, body.Emits bytes → eff.Emits (counted count bytes) := by
  unfold writeCounted at h
  unfold counted
  by_cases hcount : count = 0
  · obtain ⟨body, hbody⟩ := hzero hcount
    rw [if_pos hcount, Varint.encode_zero] at h
    cases h
    simp only [if_pos hcount]
    exact ⟨by rw [hcount]; decide, body, hbody, fun _ _ => Effect.emits_put _⟩
  · rw [if_neg hcount, except_bind_eq_ok] at h
    obtain ⟨front, hfront, h⟩ := h
    obtain ⟨body, hbody, h⟩ := except_bind_eq_ok.1 h
    rw [Varint.encode_zero] at h
    cases h
    simp only [if_neg hcount]
    rw [(Varint.eq_bytesOf_of_encode hfront).2]
    exact ⟨Varint.lt_limit_of_encode hfront, body, hbody, fun bytes hbytes =>
      ((Effect.emits_put _).andThen hbytes).andThen (Effect.emits_put _)⟩

theorem exists_parts_of_writeItems {items : List Value}
    (h : ∀ x ∈ items, ∀ eff, (F x).result = .ok eff → Sent env f eff)
    (hrun : (writeItems F items).2 = .ok eff) :
    ∃ parts : List (Value × List UInt8), parts.length = items.length ∧
      eff.Emits (parts.flatMap (·.2)) ∧ ∀ q ∈ parts, Decodes env f q.2 q.1 := by
  induction items generalizing eff with
  | nil =>
    cases hrun
    exact ⟨[], rfl, Effect.emits_none, by simp⟩
  | cons x items ih =>
    rw [writeItems] at hrun
    cases hx : (F x).result with
    | error e => simp [hx] at hrun
    | ok front =>
      simp only [hx] at hrun
      obtain ⟨rest, hrest, rfl⟩ := except_map_eq_ok.1 hrun
      obtain ⟨bytes, y, hemits, hdecodes⟩ := h x List.mem_cons_self front hx
      obtain ⟨parts, hlen, hparts, hall⟩ := ih (fun x hx => h x (List.mem_cons_of_mem _ hx)) hrest
      exact ⟨(y, bytes) :: parts, by simp [hlen], hemits.andThen hparts,
        List.forall_mem_cons.2 ⟨hdecodes, hall⟩⟩

theorem sends_array
    (h : ∀ x eff, (F x).result = .ok eff → ¬ Misfit env f x → Sent env f eff) :
    Sends env (.array f) path host (inside path (writeArray F) host) := by
  refine sends_inside fun x eff hx hfit => ?_
  unfold writeArray at hx
  cases hitems : x.elements? with
  | none => simp [hitems] at hx
  | some items =>
    simp only [hitems] at hx
    have hitem : ∀ y ∈ items, ∀ eff, (F y).result = .ok eff → Sent env f eff :=
      fun y hy eff hrun => h y eff hrun fun hmisfit => hfit (.item hitems hy hmisfit)
    obtain ⟨hlen, body, hbody, hcounted⟩ := exists_of_writeCounted hx fun hzero => by
      rw [List.length_eq_zero_iff.1 hzero]
      exact ⟨.none, rfl⟩
    obtain ⟨parts, hlength, hemits, hparts⟩ := exists_parts_of_writeItems hitem hbody
    rw [← hlength] at hlen hcounted
    exact ⟨_, _, hcounted _ hemits, .countedItems parts hlen hparts⟩

/-- The entries of a loop that succeeds. -/
theorem exists_parts_of_writeEntries {entries : List (Value × Value)}
    (h : ∀ e ∈ entries, ∀ eff, (F e.2).result = .ok eff → Sent env f eff)
    (hrun : (writeEntries F entries).2 = .ok eff) :
    ∃ parts : List (String × Value × List UInt8), parts.length = entries.length ∧
      eff.Emits (parts.flatMap fun q => Primitive.textOf q.1 ++ q.2.2) ∧
      (∀ q ∈ parts, q.1.toUTF8.toList.length < Varint.limit) ∧
      ∀ q ∈ parts, Decodes env f q.2.2 q.2.1 := by
  induction entries generalizing eff with
  | nil =>
    cases hrun
    exact ⟨[], rfl, Effect.emits_none, by simp, by simp⟩
  | cons e entries ih =>
    obtain ⟨k, x⟩ := e
    rw [writeEntries] at hrun
    cases hk : Primitive.writeString k with
    | error e => simp [hk] at hrun
    | ok key =>
      simp only [hk] at hrun
      cases hx : (F x).result with
      | error e => simp [hx] at hrun
      | ok front =>
        simp only [hx] at hrun
        obtain ⟨rest, hrest, rfl⟩ := except_map_eq_ok.1 hrun
        obtain ⟨bytes, y, hemits, hdecodes⟩ := h (k, x) List.mem_cons_self front hx
        obtain ⟨parts, hlen, hparts, htext, hall⟩ :=
          ih (fun x hx => h x (List.mem_cons_of_mem _ hx)) hrest
        cases k with
        | str s =>
          obtain ⟨hs, rfl⟩ := Primitive.writeBlock_eq_ok_iff.1 hk
          exact ⟨(s, y, bytes) :: parts, by simp [hlen],
            ((Effect.emits_put _).andThen hemits).andThen hparts,
            List.forall_mem_cons.2 ⟨hs, htext⟩, List.forall_mem_cons.2 ⟨hdecodes, hall⟩⟩
        | _ => cases hk

theorem sends_map
    (h : ∀ x eff, (F x).result = .ok eff → ¬ Misfit env f x → Sent env f eff) :
    Sends env (.map f) path host (inside path (writeMap F) host) := by
  refine sends_inside fun x eff hx hfit => ?_
  cases x with
  | map entries =>
    have hentry : ∀ e ∈ entries, ∀ eff, (F e.2).result = .ok eff → Sent env f eff :=
      fun e he eff hrun => h e.2 eff hrun fun hmisfit => hfit (.entry he hmisfit)
    obtain ⟨hlen, body, hbody, hcounted⟩ := exists_of_writeCounted hx fun hzero => by
      rw [List.length_eq_zero_iff.1 hzero]
      exact ⟨.none, rfl⟩
    obtain ⟨parts, hlength, hemits, htext, hparts⟩ := exists_parts_of_writeEntries hentry hbody
    rw [← hlength] at hlen hcounted
    exact ⟨_, _, hcounted _ hemits, .countedEntries parts hlen htext hparts⟩
  | _ => cases hx

end Code.Encoder

end AvroCodec
