import AvroCodec.Proofs.Encoding
import AvroCodec.Proofs.Selection

/-!
# Code that emits bytes

What an effect adds to all that has been written so far, whether it stands in the output or still in the
buffer. `Encoder.Writes` says that code adds some bytes and leaves the value of its variable as it is.
There is one lemma for each construct of the code.
-/

namespace AvroCodec

open Code Varint

def Sink.written (s : Sink) : List UInt8 := s.output ++ s.buffer

/-- An effect adds these bytes to what has been written. -/
def Effect.Emits (eff : Effect) (bytes : List UInt8) : Prop :=
  ∀ s, (eff s).written = s.written ++ bytes

namespace Effect

variable {bytes : List UInt8} {body : Effect}

theorem emits_none : Emits none [] := fun s => (List.append_nil s.written).symm

theorem emits_put (bytes : List UInt8) : Emits (put bytes) bytes :=
  fun _ => (List.append_assoc ..).symm

theorem Emits.andThen {eff eff' : Effect} {bytes' : List UInt8} (h : eff.Emits bytes)
    (h' : eff'.Emits bytes') : (eff.andThen eff').Emits (bytes ++ bytes') := by
  intro s
  rw [Effect.andThen, h', h, List.append_assoc]

theorem Emits.outputAfter (h : body.Emits bytes) (output : List UInt8) : body.outputAfter output = output ++ bytes := by
  have hbody := h ⟨output, []⟩
  simp only [Sink.written, List.append_nil] at hbody
  exact hbody

theorem Emits.call (h : body.Emits bytes) : body.call.Emits bytes := by
  intro s
  simp only [Effect.call, h.outputAfter, Sink.written, flush, List.append_nil]

end Effect

namespace Code

theorem Place.keys_member {name : String} (h : Form.isFieldName name = true) (p : Place) :
    (p.member (.str name)).keys = p.keys ++ [name] := by
  simp [Place.member, Place.keys, Json.pasted, literalText_of_isFieldName h]

namespace Encoder

variable {f : Value → Written} {i : Nat}

/-- Code adds these bytes and leaves the value of its variable as it is. -/
def Writes (scope : WriteScope) (e : Encoder) (host : Value) (bytes : List UInt8) : Prop :=
  ∃ eff : Effect, e.run scope host = ⟨host, .ok eff⟩ ∧ eff.Emits bytes

variable {scope : WriteScope} {p : Place} {host x : Value} {bytes : List UInt8} {eff : Effect} {body e : Encoder}
  {branches : List (Branch Encoder)} {parts : List (String × Value × List UInt8)} {path symbols : List String}
  {s : String} {subject : Subject}

theorem kept_self (x : Value) : kept x x = x := by
  unfold kept
  split_ifs <;> rfl

theorem inside_eq {result : Except CodecError Effect} (hwalk : host.walk path = .ok x)
    (h : f x = ⟨x, result⟩) : inside path f host = ⟨host, result⟩ := by
  simp only [inside, hwalk, h, kept_self, Value.store_of_walk hwalk]
  rfl

theorem writes_null : Writes scope .null host [] := ⟨.none, by rw [run], Effect.emits_none⟩

theorem writes_primitive {type : String} (hwalk : host.walk p.keys = .ok x)
    (h : Primitive.write type x = .ok bytes) : Writes scope (.primitive type p) host bytes := by
  refine ⟨.put bytes, ?_, Effect.emits_put bytes⟩
  rw [run]
  refine inside_eq hwalk ?_
  rw [only, h]
  rfl

theorem equals_str_eq (s t : String) : Value.equals (.str s) (.str t) = (s == t) := by
  simp [Value.equals]

theorem writeSymbol_eq (hi : symbols.findIdx? (· == s) = some i) (hlim : i < limit) :
    writeSymbol (.arr (symbols.map .str)) (.str s) = .ok (bytesOf i) := by
  have hfind : (symbols.map Json.str).findIdx? (Value.equals · (.str s)) = some i := by
    rw [List.findIdx?_map]
    simpa only [Function.comp_def, equals_str_eq] using hi
  rw [writeSymbol, hfind]
  exact encode_natCast hlim

theorem writes_enum (hwalk : host.walk p.keys = .ok (.str s)) (hi : symbols.findIdx? (· == s) = some i)
    (hlim : i < limit) : Writes scope (.enum p (.arr (symbols.map .str))) host (bytesOf i) := by
  refine ⟨.put (bytesOf i), ?_, Effect.emits_put _⟩
  rw [run]
  refine inside_eq hwalk ?_
  rw [only, writeSymbol_eq hi hlim]
  rfl

theorem writes_recur {name : String} (hwalk : host.walk p.keys = .ok x) (h : scope.call name x = ⟨x, .ok eff⟩)
    (hemits : eff.Emits bytes) : Writes scope (.recur name p) host bytes := by
  refine ⟨eff.call, ?_, hemits.call⟩
  rw [run]
  refine inside_eq hwalk ?_
  rw [h]
  rfl

theorem fill_eq (default : Value) (hwalk : host.walk path = .ok x)
    (hx : x.isNull = false) : fill path default host = .ok host := by
  rcases List.eq_nil_or_concat path with rfl | ⟨parent, key, rfl⟩
  · cases hwalk
    simp [fill, hx]
  · rw [List.concat_eq_append] at hwalk ⊢
    obtain ⟨entries, hparent, hentry⟩ := Value.walk_concat_eq_ok hwalk
    simp only [fill, List.getLast?_concat, List.dropLast_concat, hparent, bind, Except.bind, hentry,
      Option.getD_some, hx]
    rfl

theorem writes_filled {default : Json} (hwalk : host.walk p.keys = .ok x) (hx : x.isNull = false)
    (h : Writes scope e host bytes) : Writes scope (.filled p default e) host bytes := by
  obtain ⟨eff, hrun, hemits⟩ := h
  refine ⟨eff, ?_, hemits⟩
  rw [run, fill_eq _ hwalk hx]
  exact hrun

theorem writes_fields (parts : List (Encoder × List UInt8))
    (h : ∀ q ∈ parts, Writes scope q.1 host q.2) :
    Writes scope (.fields (parts.map (·.1))) host (parts.flatMap (·.2)) := by
  suffices hparts : ∃ eff, runParts scope (parts.map (·.1)) host = ⟨host, .ok eff⟩ ∧
      eff.Emits (parts.flatMap (·.2)) by
    simpa only [Writes, run] using hparts
  induction parts with
  | nil => exact ⟨.none, by rw [List.map_nil, runParts], Effect.emits_none⟩
  | cons q parts ih =>
    obtain ⟨eff, hrun, hemits⟩ := h q List.mem_cons_self
    obtain ⟨eff', hrun', hemits'⟩ := ih fun q hq => h q (List.mem_cons_of_mem _ hq)
    refine ⟨eff.andThen eff', ?_, hemits.andThen hemits'⟩
    simp only [List.map_cons, runParts, hrun, Written.andThen, hrun']
    rfl

theorem andThen_assoc (w : Written) (f g : Value → Written) :
    (w.andThen f).andThen g = w.andThen fun v => (f v).andThen g := by
  cases hw : w.result with
  | error e => simp only [Written.andThen, hw]
  | ok front =>
    cases hf : (f w.value).result <;> simp only [Written.andThen, hw, hf, Except.map]
    cases (g (f w.value).value).result <;> rfl

theorem runParts_append (front back : List Encoder) (v : Value) :
    runParts scope (front ++ back) v = (runParts scope front v).andThen (runParts scope back) := by
  induction front generalizing v with
  | nil =>
    rw [List.nil_append, runParts, Written.andThen]
    cases hback : runParts scope back v with
    | mk value result => cases result <;> rfl
  | cons e front ih =>
    rw [List.cons_append, runParts, runParts, andThen_assoc]
    simp only [ih]

theorem writes_fields_append {front back : List Encoder} {bytes' : List UInt8}
    (h : Writes scope (.fields front) host bytes) (h' : Writes scope (.fields back) host bytes') :
    Writes scope (.fields (front ++ back)) host (bytes ++ bytes') := by
  obtain ⟨eff, hrun, hemits⟩ := h
  obtain ⟨eff', hrun', hemits'⟩ := h'
  rw [run] at hrun hrun'
  refine ⟨eff.andThen eff', ?_, hemits.andThen hemits'⟩
  rw [run, runParts_append, hrun]
  simp only [Written.andThen, hrun']
  rfl

theorem exists_writeCounted {count : Nat} (hlen : count < limit) (h : eff.Emits bytes) :
    ∃ eff', writeCounted count (.ok eff) = .ok eff' ∧ eff'.Emits (counted count bytes) := by
  unfold writeCounted counted
  by_cases hzero : count = 0
  · rw [if_pos hzero, if_pos hzero, encode_zero]
    exact ⟨_, rfl, Effect.emits_put _⟩
  · rw [if_neg hzero, if_neg hzero, encode_natCast hlen, encode_zero]
    exact ⟨_, rfl, ((Effect.emits_put _).andThen h).andThen (Effect.emits_put _)⟩

theorem exists_writeItems {parts : List (Value × List UInt8)}
    (h : ∀ q ∈ parts, ∃ eff : Effect, f q.1 = ⟨q.1, .ok eff⟩ ∧ eff.Emits q.2) :
    ∃ eff, writeItems f (parts.map (·.1)) = (parts.map (·.1), .ok eff) ∧
      eff.Emits (parts.flatMap (·.2)) := by
  induction parts with
  | nil => exact ⟨.none, rfl, Effect.emits_none⟩
  | cons q parts ih =>
    obtain ⟨eff, hrun, hemits⟩ := h q List.mem_cons_self
    obtain ⟨eff', hrun', hemits'⟩ := ih fun q hq => h q (List.mem_cons_of_mem _ hq)
    refine ⟨eff.andThen eff', ?_, hemits.andThen hemits'⟩
    simp only [List.map_cons, writeItems, hrun, hrun', kept_self]
    rfl

theorem writes_array {item : String} {parts : List (Value × List UInt8)}
    (hwalk : host.walk p.keys = .ok (.list (parts.map (·.1)))) (hlen : parts.length < limit)
    (h : ∀ q ∈ parts, Writes scope body q.1 q.2) :
    Writes scope (.array p item body) host (counted parts.length (parts.flatMap (·.2))) := by
  obtain ⟨eff, hitems, hemits⟩ := exists_writeItems h
  obtain ⟨eff', hcounted, hemits'⟩ := exists_writeCounted hlen hemits
  refine ⟨eff', ?_, hemits'⟩
  rw [run]
  refine inside_eq hwalk ?_
  simp only [writeArray, Value.elements?, hitems, List.length_map, hcounted, replaceElements]

theorem exists_writeEntries (htext : ∀ q ∈ parts, q.1.toUTF8.toList.length < limit)
    (h : ∀ q ∈ parts, ∃ eff : Effect, f q.2.1 = ⟨q.2.1, .ok eff⟩ ∧ eff.Emits q.2.2) :
    ∃ eff, writeEntries f (parts.map fun q => (.str q.1, q.2.1)) =
        (parts.map fun q => (.str q.1, q.2.1), .ok eff) ∧
      eff.Emits (parts.flatMap fun q => Primitive.textOf q.1 ++ q.2.2) := by
  induction parts with
  | nil => exact ⟨.none, rfl, Effect.emits_none⟩
  | cons q parts ih =>
    obtain ⟨eff, hrun, hemits⟩ := h q List.mem_cons_self
    obtain ⟨eff', hrun', hemits'⟩ := ih (fun q hq => htext q (List.mem_cons_of_mem _ hq))
      fun q hq => h q (List.mem_cons_of_mem _ hq)
    have hkey : Primitive.writeString (.str q.1) = .ok (Primitive.textOf q.1) :=
      Primitive.writeBlock_eq_ok_iff.2 ⟨htext q List.mem_cons_self, rfl⟩
    refine ⟨_, ?_, ((Effect.emits_put _).andThen hemits).andThen hemits'⟩
    simp only [List.map_cons, writeEntries, hkey, hrun, hrun', kept_self]
    rfl

theorem writes_map {key value : String} (hwalk : host.walk p.keys = .ok (.dict (parts.map fun q => (q.1, q.2.1))))
    (hlen : parts.length < limit) (htext : ∀ q ∈ parts, q.1.toUTF8.toList.length < limit)
    (h : ∀ q ∈ parts, Writes scope body q.2.1 q.2.2) :
    Writes scope (.map p key value body) host
      (counted parts.length (parts.flatMap fun q => Primitive.textOf q.1 ++ q.2.2)) := by
  obtain ⟨eff, hentries, hemits⟩ := exists_writeEntries htext h
  obtain ⟨eff', hcounted, hemits'⟩ := exists_writeCounted hlen hemits
  refine ⟨eff', ?_, hemits'⟩
  rw [run]
  refine inside_eq hwalk ?_
  simp only [Value.dict, List.map_map, Function.comp_def, writeMap, hentries, List.length_map,
    hcounted]

theorem writes_branch (hlim : i < limit) (h : Writes scope e host bytes) :
    ∃ eff : Effect, writeBranch i (fun v => run scope e v) host = ⟨host, .ok eff⟩ ∧
      eff.Emits (bytesOf i ++ bytes) := by
  obtain ⟨eff, hrun, hemits⟩ := h
  refine ⟨_, ?_, (Effect.emits_put (bytesOf i)).andThen hemits⟩
  simp only [writeBranch, encode_natCast hlim, Except.map, Written.andThen, hrun]

theorem writes_union {tag data : String} (hlook : subject.look host = .ok x) (hx : ∀ items, x ≠ .tuple items)
    (hlim : i < limit) (hpasses : ∀ b ∈ branches, b.guard.passes subject host = .ok (b.guard.accepts x))
    (hsome : ∃ b ∈ branches, b.guard.accepts x = true)
    (h : ∀ b ∈ branches, b.guard.accepts x = true → b.index = i ∧ Writes scope b.plain host bytes) :
    Writes scope (.union subject tag data branches) host (bytesOf i ++ bytes) := by
  have hplain : ∃ eff : Effect, runPlain scope subject branches host = ⟨host, .ok eff⟩ ∧
      eff.Emits (bytesOf i ++ bytes) := by
    have hcases := choice_cases subject host branches
    rw [runPlain_eq]
    split at hcases
    next =>
      obtain ⟨b, hb, herror⟩ := hcases
      cases (hpasses b hb).symm.trans herror
    next =>
      obtain ⟨b, hb, hbx⟩ := hsome
      cases hbx.symm.trans (Except.ok.inj ((hpasses b hb).symm.trans (hcases b hb)))
    next b _ =>
      obtain ⟨rfl, hwrites⟩ := h b hcases.1 (Except.ok.inj ((hpasses b hcases.1).symm.trans hcases.2))
      exact writes_branch hlim hwrites
  obtain ⟨eff, hrun, hemits⟩ := hplain
  refine ⟨eff, ?_, hemits⟩
  rw [run, hlook]
  cases x with
  | tuple items => exact absurd rfl (hx items)
  | _ => exact hrun

end Encoder

end Code

end AvroCodec
