import Stcbsl.OneChange
import Stcbsl.Stream

/-!
# One Corrupted Byte

What becomes of a frame when one byte of its wire image is changed on the way. The checksum
is a sum that covers everything between the preamble and itself, so that no two wire images
of one length differ in a single byte: `decode` rejects every such change. On a stream, the
receiver reports the change once at most, throws the corrupted bytes away and delivers the
frame behind them.

## Where the change is

A wire image is the preamble, the body that the checksum covers, the checksum and the terminator.
A change in the body makes another sum; a change in any of the other parts is one that the body
does not explain. `LEN` is part of the body, so a changed `LEN` is rejected when the bytes are
taken for a frame of the length they have. On a stream it is different: a changed `LEN` asks for
other bytes, which is why it is left out there.

## Main results

* `Frame.encode_not_changedAt` — no two wire images differ in one byte.
* `Frame.decode_error_of_changedAt` — every corruption of one byte is detected.
* `corrupted_frame_costs_itself` — what a receiver makes of it on a stream.
* `Frame.isEchoOf_iff_bytes` — an echo, byte by byte: two bytes are changed, and the change of
  the second is the one the checksum makes of the first.
-/

namespace Stcbsl

open OneChange Resync

/-! ### The checksum -/

/-- The checksum of a longer string, by its first byte. -/
theorem checksum_cons (b : UInt8) (l : Bytes) : checksum (b :: l) = b + checksum l := by
  rw [checksum, checksum, foldl_wrapping_add, foldl_wrapping_add, List.map_cons, List.sum_cons,
    UInt8.ofNat_add, UInt8.ofNat_toNat]

/-- **The checksum notices one changed byte.** -/
theorem checksum_ne_of_changedAt {i : ℕ} {l l' : Bytes} (h : ChangedAt i l l') :
    checksum l' ≠ checksum l :=
  h.foldl_ne (fun a _ _ heq => (UInt8.add_right_inj a).mp heq)
    (fun a _ _ heq => (UInt8.add_left_inj a).mp heq) 0

namespace Frame

/-- A wire image is the preamble, what the checksum covers, and the two bytes behind it. -/
theorem encode_parts (f : Frame) :
    f.encode = [magic0, magic1] ++ (f.body ++ [checksum f.body, terminator]) := by
  rw [encode_eq]
  rfl

/-- **No two wire images of one length differ in a single byte.** -/
theorem encode_not_changedAt {f g : Frame} {i : ℕ} : ¬ ChangedAt i f.encode g.encode := by
  intro h
  have hbody : g.body.length = f.body.length := by
    have := h.length_eq
    simpa [encode_parts] using this
  rw [encode_parts, encode_parts, changedAt_append_iff rfl] at h
  rcases h with ⟨h, -⟩ | ⟨k, -, -, h⟩
  · exact absurd h ChangedAt.irrefl
  rcases (changedAt_append_iff hbody).mp h with ⟨hchange, htail⟩ | ⟨j, -, heq, hchange⟩
  · exact checksum_ne_of_changedAt hchange (List.cons.inj htail).1.symm
  · rw [heq] at hchange
    exact absurd hchange ChangedAt.irrefl

/-- A changed wire image is rejected. -/
theorem decode_error_of_changedAt {f : Frame} {b : Bytes} {i : ℕ} (h : ChangedAt i f.encode b) :
    ∃ e, decode b = .error e := by
  cases hd : decode b with
  | error e => exact ⟨e, rfl⟩
  | ok g =>
      obtain rfl := decode_eq_ok_iff.mp hd
      exact absurd h encode_not_changedAt

/-- **Every corruption of a single byte is detected**: a string of the length of a wire image
that differs from it in exactly one position is rejected, whatever field that position belongs
to. -/
theorem single_byte_corruption_detected (f : Frame) (b : Bytes)
    (hlen : b.length = f.encode.length) {i : ℕ} (hne : b[i]? ≠ f.encode[i]?)
    (hsame : ∀ j, j ≠ i → b[j]? = f.encode[j]?) : ∃ e, decode b = .error e :=
  decode_error_of_changedAt ⟨hlen, hne, hsame⟩

/-- `single_byte_corruption_detected` for a link-test ack that has become a request: both
directions are legal, and the checksum tells. -/
theorem single_byte_corruption_detected_dir :
    ∃ e, decode [0x46, 0xB9, 0x6A, 0x00, 0x06, 0x80, 0xEE, 0x16] = .error e := by
  refine single_byte_corruption_detected (.mcu 0x80 []) _ rfl (i := 2) (by decide) ?_
  rintro (_ | _ | _ | j) hj
  · rfl
  · rfl
  · exact absurd rfl hj
  · rfl

end Frame

/-! ### A corrupted frame on a stream -/

/-- Bytes without the preamble at the front are free of it if those behind the first are. -/
theorem preambleFree_cons {b0 b1 : UInt8} {l : Bytes} (hfront : ¬ (b0 = magic0 ∧ b1 = magic1))
    (h : PreambleFree (b1 :: l)) : PreambleFree (b0 :: b1 :: l) := by
  intro hinfix
  rcases List.infix_cons_iff.mp hinfix with hpre | hin
  · obtain ⟨h0, hpre⟩ := List.cons_prefix_cons.mp hpre
    obtain ⟨h1, -⟩ := List.cons_prefix_cons.mp hpre
    exact hfront ⟨h0.symm, h1.symm⟩
  · exact h hin

/-- **What is left of a corrupted frame on a stream.** Where its preamble has survived, and with
it the two bytes of its `LEN`, it is reported and its first byte dropped; the rest, as the whole
where the preamble is damaged, is noise. -/
theorem scan_corrupted {F G : Frame} {B : Bytes} {i : ℕ} (hF : F.LenPlausible)
    (hG : G.LenPlausible) (hB : ChangedAt i F.encode B) (h3 : i ≠ 3) (h4 : i ≠ 4)
    (hfree : PreambleFree (B.drop 1)) :
    (scan frames (B ++ G.encode) = (B.map Item.skipped ++ [.accepted G.encode G], [])) ∨
      ∃ b l e, B = b :: l ∧ scan frames (B ++ G.encode) =
        (.rejected b e :: (l.map Item.skipped ++ [.accepted G.encode G]), []) := by
  have hnoise : ∀ {d : Bytes}, PreambleFree d →
      scan frames (d ++ G.encode) = (d.map Item.skipped ++ [.accepted G.encode G], []) := by
    intro d hd
    have := scan_noise_frame hd hG []
    rwa [List.append_nil, scan_of_none frames.next_nil] at this
  have hlen : B.length = F.wireLen := by rw [hB.length_eq, Frame.length_encode]
  have h8 := F.frameOverhead_le_wireLen
  obtain ⟨b0, b1, b2, b3, b4, b5, p, ck, t, rfl⟩ := Frame.exists_fields (b := B) (by omega)
  by_cases hmagic : b0 = magic0 ∧ b1 = magic1
  · obtain ⟨e, he⟩ := Frame.decode_error_of_changedAt hB
    have h3' := hB.eq_of_ne 3 (Ne.symm h3)
    have h4' := hB.eq_of_ne 4 (Ne.symm h4)
    rw [Frame.encode_eq] at h3' h4'
    cases h3'
    cases h4'
    obtain ⟨rfl, rfl⟩ := hmagic
    have hle : F.wireLen - 2 ≤ 1024 := hF
    have hv : verdict (magic0 :: magic1 :: b2 :: (F.lenField >>> 8).toUInt8 ::
        (F.lenField &&& 0xFF).toUInt8 :: b5 :: (p ++ [ck, t])) = .reject e := by
      refine verdict_eq_reject_iff.mpr ⟨F.wireLen - 2, ⟨_, _, _, _, rfl, ?_, by omega, hle⟩,
        by omega, ?_⟩
      · rw [Frame.u16FromBeBytes_lenField, hF.toNat_lenField]
      · rw [List.take_of_length_le (by omega)]
        exact he
    have hstream := verdict_append _ G.encode (by rw [hv]; exact nofun)
    rw [hv, ← frames_verdict] at hstream
    refine .inr ⟨_, _, e, rfl, ?_⟩
    rw [List.cons_append] at hstream ⊢
    rw [scan_of_some (frames.next_of_reject hstream)]
    exact congrArg (fun r => (Item.rejected magic0 e :: r.1, r.2)) (hnoise hfree)
  · exact .inl (hnoise (preambleFree_cons hmagic hfree))

/-- **A corrupted frame costs only itself.** The wire image of a frame with one byte changed,
other than the two of its `LEN`, and free of the preamble from its second byte on, is thrown
away whole, with one report at most; the frame behind it is delivered, and nothing else is, in
whatever way the stream is cut and polled. -/
theorem corrupted_frame_costs_itself {F G : Frame} (hF : F.LenPlausible) (hG : G.LenPlausible)
    {B : Bytes} {i : ℕ} (hB : ChangedAt i F.encode B) (h3 : i ≠ 3) (h4 : i ≠ 4)
    (hfree : PreambleFree (B.drop 1)) (calls : List Receiver.Call)
    (hfed : fedBytes calls = B ++ G.encode) :
    ∃ errors : List FrameError, errors.length ≤ 1 ∧
      (extract calls).results = errors.map .error ++ [.ok G] ∧
      (extract calls).discarded = B ∧ (extract calls).pending = [] := by
  rw [extract_eq_scan, hfed]
  rcases scan_corrupted hF hG hB h3 h4 hfree with hscan | ⟨b, l, e, rfl, hscan⟩
  · refine ⟨[], Nat.zero_le _, ?_, ?_, ?_⟩
    · rw [hscan, extractionOf, List.filterMap_append, output_skipped_bytes]
      rfl
    · rw [hscan, extractionOf, List.flatMap_append, discarded_skipped_bytes]
      exact List.append_nil B
    · rw [hscan, extractionOf]
  · refine ⟨[e], Nat.le_refl 1, ?_, ?_, ?_⟩
    · rw [hscan, extractionOf, List.filterMap_cons, List.filterMap_append, output_skipped_bytes]
      rfl
    · rw [hscan, extractionOf, List.flatMap_cons, List.flatMap_append, discarded_skipped_bytes]
      exact congrArg (b :: ·) (List.append_nil l)
    · rw [hscan, extractionOf]

/-- `corrupted_frame_costs_itself` for a link-test ack whose terminator has become the first
byte of a preamble, right in front of the same ack, fed in two pieces. -/
theorem corrupted_frame_costs_itself_terminator :
    ∃ errors : List FrameError, errors.length ≤ 1 ∧
      (extract [.feed [0x46, 0xB9, 0x68, 0x00, 0x06, 0x80, 0xEE, 0x46], .nextFrame,
        .feed [0x46, 0xB9, 0x68, 0x00, 0x06, 0x80, 0xEE, 0x16]]).results =
          errors.map .error ++ [.ok (.mcu 0x80 [])] ∧
      (extract [.feed [0x46, 0xB9, 0x68, 0x00, 0x06, 0x80, 0xEE, 0x46], .nextFrame,
        .feed [0x46, 0xB9, 0x68, 0x00, 0x06, 0x80, 0xEE, 0x16]]).discarded =
          [0x46, 0xB9, 0x68, 0x00, 0x06, 0x80, 0xEE, 0x46] ∧
      (extract [.feed [0x46, 0xB9, 0x68, 0x00, 0x06, 0x80, 0xEE, 0x46], .nextFrame,
        .feed [0x46, 0xB9, 0x68, 0x00, 0x06, 0x80, 0xEE, 0x16]]).pending = [] :=
  corrupted_frame_costs_itself (F := .mcu 0x80 []) (G := .mcu 0x80 []) (i := 7) (by decide)
    (by decide) (changedAt_iff_set.mpr ⟨0x16, 0x46, rfl, by decide, rfl⟩) (by decide) (by decide)
    (by decide) _ rfl

/-! ### Echoes, byte by byte -/

namespace Frame

/-- The change of the direction byte takes two from the checksum. -/
theorem checksum_body_mcu {req : Frame} (h : req.dir = .hostToMcu) :
    checksum (mcu req.cmd req.payload).body = checksum req.body - 2 := by
  have hdir : ∀ s : UInt8, dirMcuToHost + s = dirHostToMcu + s - 2 := by
    intro s
    rw [dirMcuToHost, dirHostToMcu]
    grind
  have hmcu : (mcu req.cmd req.payload).body = dirMcuToHost :: req.body.tail := rfl
  have hreq : req.body = dirHostToMcu :: req.body.tail := by
    rw [body, h]
    rfl
  rw [hmcu, checksum_cons, hdir, ← checksum_cons, ← hreq]

/-- **The wire image of the echo of a request**: the direction byte is exchanged, and the
checksum two less. -/
theorem encode_mcu_of_host {req : Frame} (h : req.dir = .hostToMcu) :
    (mcu req.cmd req.payload).encode =
      (req.encode.set 2 0x68).modify (req.encode.length - 2) (· - 2) := by
  have hmodify : ∀ (p s : Bytes) (b : UInt8),
      (p ++ b :: s).modify p.length (· - 2) = p ++ (b - 2) :: s := by
    intro p s b
    rw [List.modify_eq_take_drop, List.take_left, List.drop_left]
    rfl
  have hset : req.encode.set 2 0x68 =
      (magic0 :: magic1 :: 0x68 :: req.body.tail) ++ checksum req.body :: [terminator] := by
    rw [encode_eq]
    rfl
  have hlen : req.encode.length - 2 = (magic0 :: magic1 :: 0x68 :: req.body.tail).length := by
    rw [length_encode]
    simp [wireLen, frameOverhead, body]
  rw [hset, hlen, hmodify, ← checksum_body_mcu h, encode_eq]
  rfl

/-- **An echo, byte by byte.** For all frames, a reply is the echo of a request exactly if the
request is a host frame, and the bytes of the reply are those of the request with the third
replaced by `0x68` and the last but one decreased by two, modulo 256. -/
theorem isEchoOf_iff_bytes (rep req : Frame) :
    rep.isEchoOf req = true ↔ req.dir = .hostToMcu ∧
      rep.encode = (req.encode.set 2 0x68).modify (req.encode.length - 2) (· - 2) := by
  have hecho : rep.isEchoOf req = true ↔
      req.dir = .hostToMcu ∧ rep = mcu req.cmd req.payload := by
    obtain ⟨dir, cmd, payload⟩ := rep
    rw [isEchoOf_iff, mcu, mk.injEq]
    tauto
  rw [hecho]
  refine and_congr_right fun hdir => ?_
  rw [← encode_mcu_of_host hdir]
  constructor
  · rintro rfl
    rfl
  · exact encode_injective

end Frame

end Stcbsl
