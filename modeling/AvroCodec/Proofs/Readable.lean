import AvroCodec.Proofs.Delivery
import AvroCodec.Proofs.RoundTrip

/-!
# What is written can be read

A codec does not look for all faults of a value. Those it does not see are the misfits. Whatever it writes
from another value, even from one that is not of its schema, can be read.
-/

namespace AvroCodec

open Code

namespace Codec

variable {codec : Codec} {env : String → Option Form} {known : String → Prop} {f : Form} {v : Value}
  {bytes : List UInt8} {schemata : Schemata} {identifier : String} {store : Store}
  {registry : Schema.Registry} {recursive : String → Prop}

theorem Implements.exists_decodes (h : codec.Implements env known f) (hnames : f.NamesApart env)
    (hfit : ¬ f.Misfit env v) (hrun : (codec.serialize v).result = .ok bytes) :
    ∃ x, Form.Decodes env f bytes x := by
  obtain ⟨eff, heff, rfl⟩ := except_map_eq_ok.1 hrun
  obtain ⟨⟨bytes, x, hemits, hdecodes⟩, -⟩ := h.writer.sends h.writes hnames .self v eff heff hfit
  rw [hemits.outputAfter, List.nil_append]
  exact ⟨x, hdecodes⟩

theorem exists_codec (schemata : Schemata) (identifier : String) (P : Codec → Prop)
    [DecidablePred P]
    (h : (match build schemata identifier with
      | .ok codec => decide (P codec)
      | .error _ => false) = true) : ∃ codec, build schemata identifier = .ok codec ∧ P codec := by
  split at h
  next codec hbuild => exact ⟨codec, hbuild, of_decide_eq_true h⟩
  next => cases h

theorem eq_ok_of_toOption {ε α : Type} {x : Except ε α} {a : α} (h : x.toOption = some a) :
    x = .ok a := by
  cases x with
  | error e => cases h
  | ok b => exact congrArg Except.ok (Option.some.inj h)

end Codec

end AvroCodec
