import Stcbsl.Handshake
import Stcbsl.RunReport

/-!
# Two Checks of the Shape of a Status Packet

`is_status_frame` picks the frame that ends the handshake, and `parse_status` checks its shape
once more before it reads the fields. The first wants a payload that reaches past the chip
identity (21 bytes), the second the whole payload (52 bytes). Between the two lengths a frame is
taken for the status packet and then refused, which ends the handshake.

## Frames and handshakes

For one frame the two checks agree exactly where it is not in the gap (`InGap`), a statement
about the direction, the command and the length of the payload. For a handshake it is the first
frame in the stream that the first check takes which matters. If that frame is in the gap, the
handshake ends with an error, whatever comes behind it, and a status packet that is whole is not
looked at any more.

## Main results

* `status_checks_agree_iff` — the frames on which the two agree, and the handshakes that a
  frame of the gap ends.
* `short_status_ends_handshake` — such a handshake, with a good status packet right behind
  the frame.
-/

namespace Stcbsl

/-- An error that says the frame is no status packet: it is of another kind, or too short. -/
def ProtocolError.NoStatus : ProtocolError → Prop
  | .notAStatusFrame _ => True
  | .shortStatus _ _ => True
  | _ => False

namespace Stc89

/-- A frame of the status command, in the direction of the status packet. -/
def OfStatusKind (f : Frame) : Prop := f.dir = .mcuToHost ∧ f.cmd = cmdStatus

/-- `parse_status` refuses the frame for its shape. -/
def ShapeRefused (f : Frame) (baud : UInt32) : Prop :=
  ∃ e, parseStatus f baud = .error e ∧ e.NoStatus

/-- **The predicate and the parser agree** on the shape of a frame. -/
def ChecksAgree (f : Frame) (baud : UInt32) : Prop :=
  (isStatusFrame f = true → ¬ ShapeRefused f baud) ∧
    (isStatusFrame f = false → ShapeRefused f baud)

/-- The frames in the gap between the two checks: long enough for the predicate, too short for
the parser. -/
def InGap (f : Frame) : Prop :=
  OfStatusKind f ∧ offChipId + chipIdLen ≤ f.payload.length ∧ f.payload.length < statusPayloadLen

/-- The predicate accepts frames of the kind, from the end of the chip identity on. -/
theorem isStatusFrame_iff {f : Frame} :
    isStatusFrame f = true ↔ OfStatusKind f ∧ offChipId + chipIdLen ≤ f.payload.length := by
  simp [isStatusFrame, OfStatusKind]

/-- **The parser refuses the shape** of exactly the frames of another kind and those shorter than
the whole payload. -/
theorem shapeRefused_iff {f : Frame} {baud : UInt32} :
    ShapeRefused f baud ↔ ¬ OfStatusKind f ∨ f.payload.length < statusPayloadLen := by
  rw [ShapeRefused, parseStatus]
  by_cases hkind : f.cmd ≠ cmdStatus ∨ f.dir ≠ .mcuToHost
  · have hnot : ¬ OfStatusKind f := fun h => hkind.elim (· h.2) (· h.1)
    rw [if_pos hkind]
    exact ⟨fun _ => .inl hnot, fun _ => ⟨_, rfl, trivial⟩⟩
  · have hof : OfStatusKind f := by
      push Not at hkind
      exact ⟨hkind.2, hkind.1⟩
    rw [if_neg hkind]
    by_cases hlen : f.payload.length < statusPayloadLen
    · rw [dif_pos hlen]
      exact ⟨fun _ => .inr hlen, fun _ => ⟨_, rfl, trivial⟩⟩
    · rw [dif_neg hlen]
      refine ⟨?_, fun h => (h.elim (· hof) hlen).elim⟩
      rintro ⟨e, he, hno⟩
      dsimp only at he
      split_ifs at he <;> cases he <;> exact hno.elim

/-- **The two checks agree** about exactly the frames outside the gap. -/
theorem checksAgree_iff {f : Frame} {baud : UInt32} : ChecksAgree f baud ↔ ¬ InGap f := by
  have hgap : offChipId + chipIdLen ≤ statusPayloadLen := by decide
  rw [ChecksAgree, ← Bool.not_eq_true, shapeRefused_iff, isStatusFrame_iff, InGap]
  by_cases hkind : OfStatusKind f
  · simp only [hkind, true_and, not_true_eq_false, false_or]
    omega
  · simp [hkind]

end Stc89

namespace Driver

open Stc89

variable {opts : SessionOptions}

/-- A handshake is ended by a refusal of the shape where the first frame that the predicate
accepts is one of the gap. -/
theorem EndsOn.shapeRefused_iff {stream : Bytes} {r : Except Halt TargetInfo}
    (h : EndsOn Stc89.family opts stream r) :
    (∃ e, r = .error (.error (.protocol e)) ∧ e.NoStatus) ↔
      ∃ f, firstStatus Stc89.family stream = some f ∧ InGap f := by
  constructor
  · rintro ⟨e, rfl, hno⟩
    obtain ⟨f, hf, hparse⟩ := h
    have hstatus : isStatusFrame f = true := List.find?_some hf
    obtain ⟨hkind, hlong⟩ := isStatusFrame_iff.mp hstatus
    have hrefused : ShapeRefused f opts.handshakeBaud := ⟨e, hparse, hno⟩
    obtain hnot | hshort := Stc89.shapeRefused_iff.mp hrefused
    · exact absurd hkind hnot
    · exact ⟨f, hf, hkind, hlong, hshort⟩
  · rintro ⟨f, hf, -, -, hshort⟩
    obtain ⟨e, he, hno⟩ : ShapeRefused f opts.handshakeBaud :=
      Stc89.shapeRefused_iff.mpr (.inr hshort)
    refine ⟨e, ?_, hno⟩
    rw [h.eq_of_firstStatus hf]
    exact congrArg (Except.mapError fun e => Halt.error (.protocol e)) he

/-- **When the two checks agree.** They agree on a frame, at every baud, exactly if it is not one
of the gap; and a handshake, on every wire and with every clock, is ended by a refusal of the
shape exactly if the first frame that the predicate accepts, among those in the bytes read, is
one of the gap. -/
theorem status_checks_agree_iff (f : Frame) (baud : UInt32) (w : World) (opts : SessionOptions)
    (wait fuel : ℕ) :
    (ChecksAgree f baud ↔ ¬ InGap f) ∧
    ((∃ e, (handshake w Stc89.family opts wait fuel []).1 = .error (.error (.protocol e)) ∧
        e.NoStatus) ↔
      ∃ g, firstStatus Stc89.family
        (readBytes (handshake w Stc89.family opts wait fuel []).2) = some g ∧ InGap g) :=
  ⟨checksAgree_iff, (handshake_endsOn w Stc89.family opts wait fuel).shapeRefused_iff⟩

/-- A frame of the gap. -/
def shortStatus : Frame := .mcu 0x00 (List.replicate 21 0)

/-- The two checks disagree on a frame of the gap; and it ends the handshake, with a good status
packet right behind it. -/
theorem short_status_ends_handshake :
    isStatusFrame shortStatus = true ∧
    parseStatus shortStatus 2400 = .error (.shortStatus 21 52) ∧
    ¬ ChecksAgree shortStatus 2400 ∧
    (handshake (playback [shortStatus.encode ++ benchStatus.encode]) Stc89.family .default
      1000000000 5 []).1 = .error (.error (.protocol (.shortStatus 21 52))) := by
  refine ⟨rfl, rfl, ?_, ?_⟩
  · intro h
    exact h.1 rfl ⟨_, rfl, trivial⟩
  · decide +kernel

end Driver

end Stcbsl
