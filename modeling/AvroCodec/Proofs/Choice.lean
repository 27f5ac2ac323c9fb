import AvroCodec.Proofs.Sending

/-!
# Unions that succeed

The code of a union runs the first branch whose guard lets the value pass, or, for a tagged value, the
first branch with the tag. It also succeeds if there is none, but then the value is a misfit.
-/

namespace AvroCodec

open Code Form

variable {env : String → Option Form} {host x y : Value} {scope : WriteScope} {p : Place}
  {subject : Subject}

theorem Form.HasGuard.unique {f : Form} {g g' : Guard} (h : HasGuard env f g) (h' : HasGuard env f g') :
    g = g' := by
  induction h with
  | basic hb hname =>
    cases h' with
    | basic _ hname' => rw [Option.some.inj (hname.symm.trans hname')]
  | named hn _ ih =>
    cases h' with
    | named hn' h' =>
      cases hn.symm.trans hn'
      exact ih h'
  | _ =>
    cases h'
    rfl

theorem Code.Subject.peek_of_look (h : subject.look host = .ok x) : host.peek subject.keys = x := by
  cases subject with
  | value place => exact Value.peek_of_walk h
  | member place key =>
    obtain ⟨y, hy, h⟩ := except_bind_eq_ok.1 h
    rw [keys, Value.peek_concat, Value.peek_of_walk hy]
    cases y with
    | map entries => exact Except.ok.inj h
    | _ => cases h

theorem Form.HasGuard.accepts_of_passes {f : Form} {g : Guard} {b : Bool} (h : HasGuard env f g)
    (hlook : subject.look host = .ok x) (hpasses : g.passes subject host = .ok b) :
    g.accepts x = b := by
  have hwalk : ∀ y, host.walk subject.keys = .ok y → y = x := fun y hy =>
    (Value.peek_of_walk hy).symm.trans (Subject.peek_of_look hlook)
  induction h with
  | null =>
    rw [Guard.passes, hlook] at hpasses
    exact Except.ok.inj hpasses
  | named _ _ ih => exact ih hpasses
  | _ =>
    obtain ⟨y, hy, hpasses⟩ := except_bind_eq_ok.1 hpasses
    rw [← hwalk y hy]
    exact Except.ok.inj hpasses

namespace Code.Encoder

variable {eff : Effect} {branches : List (Branch Encoder)} {data tag : String} {items : List Value}

theorem exists_of_writeBranch {branches : List Form} {f f' : Form} {index : Nat} {F : Value → Written}
    (hindex : branches[index]? = some f') (hbare : f'.bare = f.bare) (h : (writeBranch index F host).result = .ok eff) :
    ∃ body, (F host).result = .ok body ∧ (writeBranch index F host).value = (F host).value ∧
      (Sent env f body → Sent env (.union branches) eff) := by
  unfold writeBranch Written.andThen at h ⊢
  cases hfront : Varint.encode (index : Int) with
  | error e => simp [hfront, Except.map] at h
  | ok front =>
    simp only [hfront, Except.map] at h ⊢
    obtain ⟨body, hbody, rfl⟩ := except_map_eq_ok.1 h
    refine ⟨body, hbody, trivial, ?_⟩
    rintro ⟨bytes, y, hemits, hdecodes⟩
    obtain ⟨-, rfl⟩ := Varint.eq_bytesOf_of_encode hfront
    exact ⟨_, y, (Effect.emits_put _).andThen hemits,
      .union hindex (Varint.lt_limit_of_encode hfront) (hdecodes.of_bare hbare)⟩

theorem run_union_of_tuple (h : subject.look host = .ok (.tuple items)) :
    let w := writePair scope tag (fun t payload => runTagged scope t branches payload) items
    run scope (.union subject tag data branches) host =
      ⟨((Value.store w.value subject.keys host).toOption).getD host, w.result⟩ := by
  simp only [run, h]

theorem run_union_of_ne_tuple (h : subject.look host = .ok x) (hx : ∀ items, x ≠ .tuple items) :
    run scope (.union subject tag data branches) host = runPlain scope subject branches host := by
  rw [run, h]
  cases x with
  | tuple items => exact absurd rfl (hx items)
  | _ => rfl

theorem exists_of_writePair {F : Value → Value → Written} (h : (writePair scope tag F items).result = .ok eff) :
    ∃ t payload, items = [t, payload] ∧ (F t payload).result = .ok eff := by
  unfold writePair at h
  split at h
  · rename_i t payload
    split_ifs at h
    exact ⟨t, payload, rfl, h⟩
  · cases h

section Union

variable {branches : List Form} {parts : List (Form × Branch Encoder)} {eff : Effect}
  (hmem : ∀ f, f ∈ branches ↔ f ∈ parts.map (·.1))
  (hindex : ∀ q ∈ parts, ∃ f, branches[q.2.index]? = some f ∧ f.bare = q.1.bare)

include hmem hindex

theorem sent_of_runTagged {tag payload : Value}
    (htag : ∀ q ∈ parts, ∀ t, q.1.tag? = some t → literalText q.2.tag = t)
    (htagged : ∀ q ∈ parts, Sends env q.1 [] payload (run scope q.2.tagged payload))
    (hrun : (runTagged scope tag (parts.map (·.2)) payload).result = .ok eff)
    (hfit : ¬ Misfit env (.union branches) (.tuple [tag, payload])) : Sent env (.union branches) eff := by
  rw [runTagged_eq] at hrun
  cases hb : labelled tag (parts.map (·.2)) with
  | some b =>
    obtain ⟨q, hq, rfl⟩ := List.mem_map.1 (List.mem_of_find?_eq_some hb)
    obtain ⟨f', hf', hbare⟩ := hindex q hq
    rw [hb] at hrun
    obtain ⟨body, hbody, -, hsent⟩ := exists_of_writeBranch hf' hbare hrun
    refine hsent (htagged q hq body hbody fun hmisfit => hfit ?_).1
    exact .tagged ((hmem _).2 (List.mem_map_of_mem hq)) (fun t ht => htag q hq t ht ▸ equals_of_labelled hb) hmisfit
  | none =>
    refine absurd (Misfit.untagged fun f hf t ht => ?_) hfit
    obtain ⟨q, hq, rfl⟩ := List.mem_map.1 ((hmem f).1 hf)
    rw [← htag q hq t ht]
    exact Bool.eq_false_iff.2 (List.find?_eq_none.1 hb q.2 (List.mem_map_of_mem hq))

theorem sent_of_runPlain (hlook : subject.look host = .ok x) (hx : ∀ items, x ≠ .tuple items)
    (hguard : ∀ q ∈ parts, HasGuard env q.1 q.2.guard)
    (hplain : ∀ q ∈ parts, Sends env q.1 subject.keys host (run scope q.2.plain host))
    (hrun : (runPlain scope subject (parts.map (·.2)) host).result = .ok eff)
    (hfit : ¬ Misfit env (.union branches) x) : Sent env (.union branches) eff ∧
      Value.Frame subject.keys host (runPlain scope subject (parts.map (·.2)) host).value := by
  have hcases := choice_cases subject host (parts.map (·.2))
  rw [runPlain_eq] at hrun ⊢
  split at hcases
  next hchoice =>
    rw [hchoice] at hrun
    cases hrun
  next =>
    refine absurd (Misfit.unmatched hx fun f hf k hk => ?_) hfit
    obtain ⟨q, hq, rfl⟩ := List.mem_map.1 ((hmem f).1 hf)
    rw [hk.unique (hguard q hq)]
    exact (hguard q hq).accepts_of_passes hlook (hcases q.2 (List.mem_map_of_mem hq))
  next b hchoice =>
    rw [hchoice] at hrun
    obtain ⟨q, hq, rfl⟩ := List.mem_map.1 hcases.1
    obtain ⟨f', hf', hbare⟩ := hindex q hq
    have haccepts := (hguard q hq).accepts_of_passes hlook hcases.2
    obtain ⟨body, hbody, hvalue, hsent⟩ := exists_of_writeBranch hf' hbare hrun
    have hfit' : ¬ Misfit env q.1 (host.peek subject.keys) := by
      rw [Subject.peek_of_look hlook]
      intro hmisfit
      exact hfit (.branch ((hmem _).2 (List.mem_map_of_mem hq)) (hguard q hq) haccepts hmisfit)
    obtain ⟨hbodySent, hframe⟩ := hplain q hq body hbody hfit'
    rw [hvalue]
    exact ⟨hsent hbodySent, hframe⟩

theorem sends_union (hsubject : subject.At p) (htag : ∀ q ∈ parts, ∀ t, q.1.tag? = some t → literalText q.2.tag = t)
    (hguard : ∀ q ∈ parts, HasGuard env q.1 q.2.guard)
    (hplain : ∀ q ∈ parts, ∀ host, Sends env q.1 p.keys host (run scope q.2.plain host))
    (htagged : ∀ q ∈ parts, ∀ host, Sends env q.1 [] host (run scope q.2.tagged host)) :
    Sends env (.union branches) p.keys host
      (run scope (.union subject tag data (parts.map (·.2))) host) := by
  rw [← hsubject.keys_eq] at hplain ⊢
  intro eff hrun hfit
  cases hlook : subject.look host with
  | error e => simp [run, hlook] at hrun
  | ok x =>
    rw [Subject.peek_of_look hlook] at hfit
    by_cases hx : ∃ items, x = .tuple items
    · obtain ⟨items, rfl⟩ := hx
      rw [run_union_of_tuple hlook] at hrun ⊢
      obtain ⟨t, payload, rfl, hpair⟩ := exists_of_writePair hrun
      exact ⟨sent_of_runTagged hmem hindex htag (fun q hq => htagged q hq payload) hpair hfit,
        Value.frame_store_getD _ _ _⟩
    · have hx' : ∀ items, x ≠ .tuple items := fun items h => hx ⟨items, h⟩
      rw [run_union_of_ne_tuple hlook hx'] at hrun ⊢
      exact sent_of_runPlain hmem hindex hlook hx' hguard (fun q hq => hplain q hq host) hrun hfit

end Union

end Code.Encoder

end AvroCodec
