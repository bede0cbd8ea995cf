import Mathlib.Data.Rat.Floor
import Mathlib.Tactic.FieldSimp
import Mathlib.Tactic.Linarith
import Mathlib.Tactic.NormNum
import Mathlib.Tactic.Ring
import Stcbsl.Stc89

/-!
# The Baud Arithmetic

The oscillator frequency is derived from the frequency word of the status packet with one
integer division, and the timer reload from that frequency with another, this time rounding to
the nearest. The first division throws a fraction away before the second rounds. It does no
harm: `a / d`, rounded against an even divisor, is what the exact ratio rounds to
(`two_stage_rounding`), because the half that is added is a whole number there. No step of the
computation overflows its machine type.

## Arithmetic that may overflow

In the model the machine words wrap around, as the words of the language do without checks. That
this never happens is shown apart from the values: `frequencyHzPartial` and `timerReloadPartial`
are the same computations with operations that answer `none` where the source could overflow,
divide by zero or lose a sign. For every frequency that a status packet can report, and every
rate, they answer what the words compute.

## The exact ratio

With overflow out of the way the words are numbers, and the ratio of the frequency to the rate is
a rational number of which the reload is 256 less the nearest whole one, halves rounded up before
the subtraction. A rate that needs a reload of more than eight bits is refused, and so is zero.

## Main results

* `two_stage_rounding` — flooring first does not change how a ratio rounds.
* `reloadPartial_eq` — no arithmetic of the computation overflows.
* `timerReload_exact` — the reload is 256 less the exact ratio, rounded once.
* `baud_arithmetic_exact` — this, with what the two baud frames of a plan carry.
-/

namespace Stcbsl

/-! ### Rounding in two stages -/

/-- **Flooring first does no harm.** A ratio floored at one divisor and rounded, halves up, at an
even one is the exact ratio rounded once. -/
theorem two_stage_rounding (a : ℕ) {d h : ℕ} (hd : 0 < d) (hh : 0 < h) :
    (((a / d + h) / (2 * h) : ℕ) : ℤ) = ⌊(a : ℚ) / (d * (2 * h)) + 1 / 2⌋ := by
  have hnat : (a / d + h) / (2 * h) = (a + d * h) / (d * (2 * h)) := by
    rw [← Nat.add_mul_div_left a h hd, Nat.div_div_eq_div_mul]
  have hrat : (a : ℚ) / (d * (2 * h)) + 1 / 2 =
      ((a + d * h : ℕ) : ℚ) / ((d * (2 * h) : ℕ) : ℚ) := by
    have hd' : (d : ℚ) ≠ 0 := by exact_mod_cast hd.ne'
    have hh' : (h : ℚ) ≠ 0 := by exact_mod_cast hh.ne'
    push_cast
    field_simp
  rw [hrat, Rat.floor_natCast_div_natCast, hnat]
  norm_cast

/-! ### Arithmetic that may overflow -/

/-- `a * b` on `u64`: overflows (`none`) from 2^64 on. -/
def u64Mul (a b : UInt64) : Option UInt64 :=
  if a.toNat * b.toNat < 2 ^ 64 then some (a * b) else none

/-- `a + b` on `u64`: overflows (`none`) from 2^64 on. -/
def u64Add (a b : UInt64) : Option UInt64 :=
  if a.toNat + b.toNat < 2 ^ 64 then some (a + b) else none

/-- `a / b` on `u64`: panics (`none`) where `b` is zero. -/
def u64Div (a b : UInt64) : Option UInt64 := if b = 0 then none else some (a / b)

/-- `a as i64`, where it keeps the value: `none` from 2^63 on. -/
def u64AsI64 (a : UInt64) : Option Int64 := if a.toNat < 2 ^ 63 then some a.toInt64 else none

/-- `a - b` on `i64`: overflows (`none`) outside of the range of the type. -/
def i64Sub (a b : Int64) : Option Int64 :=
  if -2 ^ 63 ≤ a.toInt - b.toInt ∧ a.toInt - b.toInt < 2 ^ 63 then some (a - b) else none

namespace Stc89

/-- `frequency_hz` with each operation as partial as the source has it. -/
def frequencyHzPartial (word : UInt16) (handshakeBaud : UInt32) : Option UInt64 := do
  let product ← u64Mul word.toUInt64 handshakeBaud.toUInt64
  u64Div (← u64Mul product freqNum) freqDen

/-- `timer_reload` with each operation as partial as the source has it. -/
def timerReloadPartial (fOsc : UInt64) (transferBaud : UInt32) :
    Option (Except ProtocolError UInt8) := do
  let denom ← u64Mul transferBaud.toUInt64 32
  if denom = 0 then
    return .error (.unreachableBaud transferBaud 0)
  let ticks ← u64Div (← u64Add fOsc (← u64Div denom 2)) denom
  let reload ← i64Sub 256 (← u64AsI64 ticks)
  if ¬ (1 ≤ reload ∧ reload ≤ 255) then
    return .error (.unreachableBaud transferBaud reload)
  return .ok reload.toUInt64.toUInt8

/-! ### The values of the machine words -/

/-- The product of a word and a rate takes up 48 bits. -/
theorem word_mul_baud_lt (word : UInt16) (baud : UInt32) : word.toNat * baud.toNat < 2 ^ 48 :=
  calc word.toNat * baud.toNat < 2 ^ 16 * 2 ^ 32 := Nat.mul_lt_mul'' word.toNat_lt baud.toNat_lt
    _ = 2 ^ 48 := by norm_num

/-- The measured frequency as a number: no step of its computation wraps around. -/
theorem toNat_frequencyHz (word : UInt16) (baud : UInt32) :
    (frequencyHz word baud).toNat = word.toNat * baud.toNat * 12 / 7 := by
  have hlt := word_mul_baud_lt word baud
  simp only [frequencyHz, freqNum, freqDen, UInt64.toNat_div, UInt64.toNat_mul,
    UInt16.toNat_toUInt64, UInt32.toNat_toUInt64, UInt64.reduceToNat]
  omega

/-- Below `2 ^ 63` the cast to a signed word keeps the value. -/
theorem toInt_toInt64 {t : UInt64} (h : t.toNat < 2 ^ 63) : t.toInt64.toInt = t.toNat := by
  rw [← UInt64.ofNat_toNat (x := t), UInt64.toInt64_ofNat', Int64.toInt_ofNat_of_lt h,
    UInt64.ofNat_toNat]

/-- What both reload functions divide by. -/
theorem toNat_denom (t : UInt32) : (t.toUInt64 * 32).toNat = 32 * t.toNat := by
  have ht := t.toNat_lt
  simp only [UInt64.toNat_mul, UInt32.toNat_toUInt64, UInt64.reduceToNat]
  omega

/-- The divisor of the reload is zero for the rate zero only. -/
theorem denom_eq_zero_iff {t : UInt32} : t.toUInt64 * 32 = 0 ↔ t = 0 := by
  rw [← UInt64.toNat_inj, ← UInt32.toNat_inj, toNat_denom]
  simp

/-- The ticks of `timer_reload`, for frequencies that a status packet can report. -/
theorem toNat_ticks {fOsc : UInt64} (hf : fOsc.toNat < 2 ^ 52) (t : UInt32) :
    ((fOsc + t.toUInt64 * 32 / 2) / (t.toUInt64 * 32)).toNat =
      (fOsc.toNat + 16 * t.toNat) / (32 * t.toNat) := by
  have ht := t.toNat_lt
  have hhalf : (t.toUInt64 * 32 / 2).toNat = 16 * t.toNat := by
    have h2 : (2 : UInt64).toNat = 2 := rfl
    rw [UInt64.toNat_div, toNat_denom, h2]
    omega
  rw [UInt64.toNat_div, UInt64.toNat_add, hhalf, toNat_denom, Nat.mod_eq_of_lt (by omega)]

/-- The difference from 256 does not leave the signed range. -/
theorem toInt_reload {ticks : UInt64} (h : ticks.toNat < 2 ^ 62) :
    ((256 : Int64) - ticks.toInt64).toInt = 256 - ticks.toNat := by
  have h256 : (256 : Int64).toInt = 256 := rfl
  rw [Int64.toInt_sub, h256, toInt_toInt64 (by omega), Int.bmod_eq_of_le] <;> omega

/-- **The reload over the natural numbers.** -/
theorem timerReload_eq {fOsc : UInt64} (hf : fOsc.toNat < 2 ^ 52) {t : UInt32} (ht : t ≠ 0) :
    let ticks := (fOsc.toNat + 16 * t.toNat) / (32 * t.toNat)
    timerReload fOsc t =
      if 1 ≤ ticks ∧ ticks ≤ 255 then .ok (UInt8.ofNat (256 - ticks))
      else .error (.unreachableBaud t (Int64.ofInt (256 - ticks))) := by
  intro ticks
  have hpos : 0 < t.toNat := Nat.pos_of_ne_zero fun h0 => ht (UInt32.toNat_inj.mp h0)
  have hticks := toNat_ticks hf t
  have hlt : ticks < 2 ^ 62 := by
    have := Nat.div_le_self (fOsc.toNat + 16 * t.toNat) (32 * t.toNat)
    have := t.toNat_lt
    omega
  have hreload : ((256 : Int64) - ((fOsc + t.toUInt64 * 32 / 2) / (t.toUInt64 * 32)).toInt64) =
      Int64.ofInt (256 - ticks) := by
    apply Int64.toInt.inj
    rw [toInt_reload (by rw [hticks]; exact hlt), hticks, Int64.toInt_ofInt_of_le] <;> omega
  have hone : (1 : Int64).toInt = 1 := rfl
  have hmax : (255 : Int64).toInt = 255 := rfl
  have hrange : (1 ≤ Int64.ofInt (256 - ticks) ∧ Int64.ofInt (256 - ticks) ≤ 255) ↔
      1 ≤ ticks ∧ ticks ≤ 255 := by
    rw [Int64.le_iff_toInt_le, Int64.le_iff_toInt_le, Int64.toInt_ofInt_of_le (by omega) (by omega),
      hone, hmax]
    omega
  simp only [timerReload, denom_eq_zero_iff, ht, if_false, hreload, hrange]
  split_ifs with h
  · have hcast : (256 : ℤ) - ticks = ((256 - ticks : ℕ) : ℤ) := by omega
    rw [hcast, Int64.ofInt_eq_ofNat]
    simp
  · rfl

/-! ### No overflow -/

/-- **No product in the frequency overflows**, for any word and rate. -/
theorem frequencyHzPartial_eq (word : UInt16) (baud : UInt32) :
    frequencyHzPartial word baud = some (frequencyHz word baud) := by
  have hlt := word_mul_baud_lt word baud
  have hmul : u64Mul word.toUInt64 baud.toUInt64 = some (word.toUInt64 * baud.toUInt64) := by
    rw [u64Mul, if_pos (by rw [UInt16.toNat_toUInt64, UInt32.toNat_toUInt64]; omega)]
  have hnum : freqNum.toNat = 12 := rfl
  have hproduct : (word.toUInt64 * baud.toUInt64).toNat = word.toNat * baud.toNat := by
    rw [UInt64.toNat_mul, UInt16.toNat_toUInt64, UInt32.toNat_toUInt64, Nat.mod_eq_of_lt (by omega)]
  have hscale : u64Mul (word.toUInt64 * baud.toUInt64) freqNum =
      some (word.toUInt64 * baud.toUInt64 * freqNum) := by
    rw [u64Mul, if_pos (by rw [hproduct, hnum]; omega)]
  rw [frequencyHzPartial, hmul, Option.bind_eq_bind, Option.bind_some, hscale]
  rfl

/-- **No step in the reload overflows**, for any rate and every frequency that can be measured. -/
theorem timerReloadPartial_eq {fOsc : UInt64} (hf : fOsc.toNat < 2 ^ 52) (t : UInt32) :
    timerReloadPartial fOsc t = some (timerReload fOsc t) := by
  have ht := t.toNat_lt
  have hdenom : u64Mul t.toUInt64 32 = some (t.toUInt64 * 32) := by
    have h32 : (32 : UInt64).toNat = 32 := rfl
    rw [u64Mul, if_pos (by rw [UInt32.toNat_toUInt64, h32]; omega)]
  rw [timerReloadPartial, hdenom, timerReload]
  by_cases h0 : t.toUInt64 * 32 = 0
  · simp [h0]
  have hticks := toNat_ticks hf t
  have hlt : ((fOsc + t.toUInt64 * 32 / 2) / (t.toUInt64 * 32)).toNat < 2 ^ 62 := by
    have := Nat.div_le_self (fOsc.toNat + 16 * t.toNat) (32 * t.toNat)
    omega
  have hhalf : u64Div (t.toUInt64 * 32) 2 = some (t.toUInt64 * 32 / 2) := rfl
  have hsum : u64Add fOsc (t.toUInt64 * 32 / 2) = some (fOsc + t.toUInt64 * 32 / 2) := by
    have h2 : (2 : UInt64).toNat = 2 := rfl
    rw [u64Add, if_pos (by rw [UInt64.toNat_div, toNat_denom, h2]; omega)]
  have hdiv : u64Div (fOsc + t.toUInt64 * 32 / 2) (t.toUInt64 * 32) =
      some ((fOsc + t.toUInt64 * 32 / 2) / (t.toUInt64 * 32)) := by rw [u64Div, if_neg h0]
  have hcast : u64AsI64 ((fOsc + t.toUInt64 * 32 / 2) / (t.toUInt64 * 32)) =
      some ((fOsc + t.toUInt64 * 32 / 2) / (t.toUInt64 * 32)).toInt64 := by
    rw [u64AsI64, if_pos (by omega)]
  have hsub : i64Sub 256 ((fOsc + t.toUInt64 * 32 / 2) / (t.toUInt64 * 32)).toInt64 =
      some (256 - ((fOsc + t.toUInt64 * 32 / 2) / (t.toUInt64 * 32)).toInt64) := by
    have h256 : (256 : Int64).toInt = 256 := rfl
    rw [i64Sub, if_pos (by rw [h256, toInt_toInt64 (by omega)]; omega)]
  simp only [Option.bind_eq_bind, Option.bind_some, h0, if_false, hhalf, hsum, hdiv, hcast, hsub]
  split_ifs <;> rfl

/-- The frequency of a status packet takes up 52 bits. -/
theorem frequencyHz_lt (word : UInt16) (baud : UInt32) :
    (frequencyHz word baud).toNat < 2 ^ 52 := by
  have := word_mul_baud_lt word baud
  rw [toNat_frequencyHz]
  omega

/-- **No step of the baud arithmetic overflows**, nor divides by zero, nor is cut off by the
conversion to a signed word. -/
theorem reloadPartial_eq (word : UInt16) (handshake t : UInt32) :
    (frequencyHzPartial word handshake).bind (timerReloadPartial · t) =
      some (timerReload (frequencyHz word handshake) t) := by
  rw [frequencyHzPartial_eq, Option.bind_some,
    timerReloadPartial_eq (frequencyHz_lt word handshake)]

/-! ### The exact ratio -/

/-- **The exact number of ticks**, `word × baud × 12 / (7 × 32 × t)`. -/
def exactTicks (word : UInt16) (handshake t : UInt32) : ℚ :=
  word.toNat * handshake.toNat * 12 / (7 * 32 * t.toNat)

/-- The exact number of ticks rounded once, halves up. -/
def roundedTicks (word : UInt16) (handshake t : UInt32) : ℤ :=
  ⌊exactTicks word handshake t + 1 / 2⌋

/-- **The two divisions of the source round the exact ratio once.** -/
theorem ticks_eq_roundedTicks (word : UInt16) (handshake : UInt32) {t : UInt32} (ht : t ≠ 0) :
    ((((frequencyHz word handshake).toNat + 16 * t.toNat) / (32 * t.toNat) : ℕ) : ℤ) =
      roundedTicks word handshake t := by
  have hpos : 0 < t.toNat := Nat.pos_of_ne_zero fun h0 => ht (UInt32.toNat_inj.mp h0)
  have hround := two_stage_rounding (word.toNat * handshake.toNat * 12) (d := 7)
    (h := 16 * t.toNat) (by omega) (by omega)
  rw [← Nat.mul_assoc 2 16] at hround
  rw [toNat_frequencyHz, hround, roundedTicks, exactTicks]
  congr 2
  push_cast
  ring

/-- **The reload is 256 less the exact ratio, rounded once**, where that is an 8-bit reload, and
the rate is refused everywhere else. -/
theorem timerReload_exact (word : UInt16) (handshake : UInt32) {t : UInt32} (ht : t ≠ 0) :
    let k := roundedTicks word handshake t
    timerReload (frequencyHz word handshake) t =
      if 1 ≤ k ∧ k ≤ 255 then .ok (UInt8.ofNat (256 - k).toNat)
      else .error (.unreachableBaud t (Int64.ofInt (256 - k))) := by
  intro k
  have hk := ticks_eq_roundedTicks word handshake ht
  rw [timerReload_eq (frequencyHz_lt word handshake) ht]
  generalize ((frequencyHz word handshake).toNat + 16 * t.toNat) / (32 * t.toNat) = ticks at hk
  have hkt : k = ticks := hk.symm
  rw [hkt]
  have hrange : (1 ≤ (ticks : ℤ) ∧ (ticks : ℤ) ≤ 255) ↔ 1 ≤ ticks ∧ ticks ≤ 255 := by omega
  have hnat : (256 - (ticks : ℤ)).toNat = 256 - ticks := by omega
  simp only [hrange, hnat]

/-- No rate is reached with a transfer rate of zero. -/
theorem timerReload_zero (fOsc : UInt64) : timerReload fOsc 0 = .error (.unreachableBaud 0 0) := rfl

/-! ### What a plan carries -/

/-- The two bytes of a reload on the wire spell it in sixteen bits, with ones in front. -/
theorem reloadField_eq (reload : UInt8) :
    reloadField reload = u16ToBeBytes (UInt16.ofNat (65280 + reload.toNat)) := by
  have h := reload.toNat_lt
  rw [reloadField]
  refine congrArg u16ToBeBytes (UInt16.toBitVec_inj.mp (BitVec.eq_of_toNat_eq ?_))
  simp only [Int32.toUInt32_sub, UInt32.toUInt32_toInt32, UInt32.toUInt16_sub,
    UInt8.toUInt16_toUInt32, UInt16.toBitVec_sub, UInt32.toBitVec_toUInt16,
    Int32.toBitVec_toUInt32, Int32.toBitVec_ofNat, BitVec.ofNat_eq_ofNat, Nat.reduceLeDiff,
    BitVec.setWidth_ofNat_of_le, BitVec.reduceOfNat, UInt8.toBitVec_toUInt16, BitVec.zero_sub,
    BitVec.toNat_neg, Nat.reducePow, BitVec.toNat_sub, BitVec.toNat_setWidth,
    UInt8.toNat_toBitVec, UInt8.toNat_mod_uInt16Size, BitVec.toNat_ofNat, Nat.reduceMod,
    UInt16.ofNat_add, UInt16.reduceOfNat, UInt16.ofNat_uInt8ToNat, UInt16.toBitVec_add,
    UInt16.toBitVec_ofNat, BitVec.toNat_add]
  omega

/-- The payload of the frame begins with a number in sixteen-bit two's complement, the high byte
first. -/
def StartsWith (n : ℤ) (f : Frame) : Prop :=
  ∃ hi lo rest, f.payload = hi :: lo :: rest ∧ ((u16FromBeBytes hi lo).toNat : ℤ) = n % 2 ^ 16

/-- A frame that begins with the field of a reload carries how far that reload lies below 256. -/
theorem startsWith_reloadField {k : ℤ} (hk : 1 ≤ k ∧ k ≤ 255) {f : Frame} {rest : Bytes}
    (hf : f.payload = reloadField (UInt8.ofNat (256 - k).toNat) ++ rest) : StartsWith (-k) f := by
  rw [reloadField_eq] at hf
  refine ⟨_, _, _, hf, ?_⟩
  rw [u16FromBeBytes_toBeBytes, UInt16.toNat_ofNat', UInt8.toNat_ofNat']
  omega

/-- The measured frequency is that of the first word of the status packet. -/
theorem measuredHz_of_parseStatus {status : Frame} {baud : UInt32} {info : TargetInfo}
    (h : parseStatus status baud = .ok info) {word : UInt16}
    (hword : status.payload.take 2 = u16ToBeBytes word) :
    info.measuredHz = frequencyHz word baud := by
  obtain ⟨dir, cmd, payload⟩ := status
  obtain ⟨tail, rfl⟩ : ∃ tail, payload = u16ToBeBytes word ++ tail :=
    ⟨_, by rw [← hword, List.take_append_drop]⟩
  rw [parseStatus] at h
  split_ifs at h
  dsimp only at h
  split at h
  · cases h
  · split_ifs at h
    cases h
    show frequencyHz (u16FromBeBytes (word >>> 8).toUInt8 word.toUInt8) baud = _
    rw [u16FromBeBytes_toBeBytes]

/-- The two baud frames of a plan, and the reload they begin with. -/
theorem baudFrames_of_plan {info : TargetInfo} {job : Job} {opts : SessionOptions}
    {steps : List Step} (hjob : job ≠ .identify) (h : plan info job opts = .ok steps) :
    ∃ reload, timerReload info.measuredHz opts.transferBaud = .ok reload ∧
      (∃ probe ∈ steps, probe.frame.cmd = 0x8F) ∧ (∃ commit ∈ steps, commit.frame.cmd = 0x8E) ∧
      ∀ step ∈ steps, step.frame.cmd = 0x8F ∨ step.frame.cmd = 0x8E →
        ∃ rest, step.frame.payload = reloadField reload ++ rest := by
  obtain ⟨reload, blocks, hr, -, -, -, hsteps⟩ := (plan_eq_ok_iff hjob).mp h
  obtain ⟨reload', rest, hsteps', hrest⟩ := negotiation_of_plan hjob h
  obtain ⟨hprobe, htail⟩ := List.cons.inj (hsteps.symm.trans hsteps')
  obtain ⟨-, rfl⟩ := List.cons.inj htail
  refine ⟨reload, hr, ⟨baudProbeStep reload opts, by simp [hsteps], rfl⟩,
    ⟨baudCommitStep reload opts, by simp [hsteps], rfl⟩, ?_⟩
  intro step hmem hcmd
  rw [hsteps] at hmem
  rcases List.mem_cons.mp hmem with rfl | hmem
  · exact ⟨_, List.append_assoc _ _ _⟩
  rcases List.mem_cons.mp hmem with rfl | hmem
  · exact ⟨_, rfl⟩
  · obtain ⟨hplanned, hbehind⟩ := hrest step hmem
    rw [hplanned.cmd] at hcmd
    rcases Phase.command_eq_baud_iff.mp hcmd with hp | hp
    · exact absurd hp hbehind.notProbe
    · exact absurd hp hbehind.notCommit

/-- **The baud arithmetic is exact and never overflows.** For every frequency word, handshake
rate and transfer rate `t`, no operation overflows, and with `k` the exact ratio rounded once,
the reload is `256 - k` if that lies between 1 and 255, and the rate is unreachable otherwise,
as it is for `t = 0`. In every plan of a job that switches the rate, made from a status packet
with this word that was parsed at the handshake rate, both baud frames begin with `-k`. -/
theorem baud_arithmetic_exact (word : UInt16) (handshake t : UInt32) :
    let k := roundedTicks word handshake t
    let reload := timerReload (frequencyHz word handshake) t
    (frequencyHzPartial word handshake).bind (timerReloadPartial · t) = some reload ∧
    (t ≠ 0 → 1 ≤ k ∧ k ≤ 255 → ∃ r : UInt8, reload = .ok r ∧ (r.toNat : ℤ) = 256 - k) ∧
    (t = 0 ∨ ¬ (1 ≤ k ∧ k ≤ 255) → ∃ r, reload = .error (.unreachableBaud t r)) ∧
    ∀ status info job opts steps, parseStatus status handshake = .ok info →
      status.payload.take 2 = u16ToBeBytes word → opts.transferBaud = t → job ≠ .identify →
      plan info job opts = .ok steps →
        (∃ probe ∈ steps, probe.frame.cmd = 0x8F) ∧ (∃ commit ∈ steps, commit.frame.cmd = 0x8E) ∧
        ∀ step ∈ steps, step.frame.cmd = 0x8F ∨ step.frame.cmd = 0x8E →
          StartsWith (-k) step.frame := by
  intro k reload
  refine ⟨reloadPartial_eq word handshake t, ?_, ?_, ?_⟩
  · intro ht hk
    refine ⟨UInt8.ofNat (256 - k).toNat, ?_, ?_⟩
    · exact (timerReload_exact word handshake ht).trans (if_pos hk)
    · rw [UInt8.toNat_ofNat']
      omega
  · rintro h
    by_cases ht : t = 0
    · subst ht
      exact ⟨0, timerReload_zero _⟩
    · exact ⟨_, (timerReload_exact word handshake ht).trans (if_neg (h.resolve_left ht))⟩
  · rintro status info job opts steps hstatus hword rfl hjob hplan
    obtain ⟨r, hr, hframes⟩ := baudFrames_of_plan hjob hplan
    rw [measuredHz_of_parseStatus hstatus hword] at hr
    have ht : opts.transferBaud ≠ 0 := by
      intro h0
      rw [h0, timerReload_zero] at hr
      cases hr
    rw [timerReload_exact word handshake ht] at hr
    split_ifs at hr with hk
    cases hr
    refine ⟨hframes.1, hframes.2.1, ?_⟩
    intro step hstep hcmd
    obtain ⟨rest, hrest⟩ := hframes.2.2 step hstep hcmd
    exact startsWith_reloadField hk hrest

end Stc89

end Stcbsl
