import Mathlib.Data.Int.Notation
import Mathlib.Data.List.Basic
import Mathlib.Tactic.Common

/-!
# Numerals

Reading the numerals a person types: runs of digits in a radix of at most 36, with a sign in
front where the type has one. The reading is partial where there is no digit, where a character
is no digit, and where the number does not fit its type.

## Conventions

A digit is one of the ten figures or a letter of either case, below the radix. At least one has
to be there, and zeros in front are no matter. A `+` may stand in front of any numeral, a `-`
only in front of one that may be negative. The bound of a type is a parameter: `2 ^ 32` for
an unsigned word of 32 bits, `2 ^ 63` for a signed one of 64.

The reader takes digits from the left and multiplies as it goes (`digitsValue`), so that a run
of digits is read by its first part and then the rest (`digitsValue_append`). Digits `Spells` a
number without a sign and without a bound; the two readers are exact in terms of it, so that what
is said about digits is said once for both.

## Main results

* `readUnsigned_eq_some_iff`, `readSigned_eq_some_iff` — the numerals of a number.
* `digitsValue_toDigits`, `readUnsigned_toDigits` — a number is read back from its digits.
-/

namespace Numerals

/-- The value of a digit in the radix, if the character is one. -/
def toDigit (radix : ℕ) (c : Char) : Option ℕ :=
  let d :=
    if '0' ≤ c ∧ c ≤ '9' then some (c.toNat - 48)
    else if 'a' ≤ c ∧ c ≤ 'z' then some (c.toNat - 87)
    else if 'A' ≤ c ∧ c ≤ 'Z' then some (c.toNat - 55)
    else none
  d.filter fun d => decide (d < radix)

/-- The value of a run of digits behind a number `n`, the first digit the most significant. -/
def digitsValue (radix : ℕ) : ℕ → List Char → Option ℕ
  | n, [] => some n
  | n, c :: cs => (toDigit radix c).bind fun d => digitsValue radix (n * radix + d) cs

/-- The value of at least one digit. -/
def readDigits (radix : ℕ) (cs : List Char) : Option ℕ :=
  if cs = [] then none else digitsValue radix 0 cs

/-- An unsigned numeral below the bound; there may be a `+` in front. -/
def readUnsigned (radix bound : ℕ) (s : List Char) : Option ℕ :=
  let digits :=
    match s with
    | '+' :: ds => ds
    | ds => ds
  (readDigits radix digits).filter fun n => decide (n < bound)

/-- A signed numeral in the range `-bound ≤ n < bound`; there may be a sign in front. -/
def readSigned (radix bound : ℕ) (s : List Char) : Option ℤ :=
  let value : Option ℤ :=
    match s with
    | '+' :: ds => (readDigits radix ds).map fun n : ℕ => (n : ℤ)
    | '-' :: ds => (readDigits radix ds).map fun n : ℕ => -(n : ℤ)
    | ds => (readDigits radix ds).map fun n : ℕ => (n : ℤ)
  value.filter fun n => decide (-(bound : ℤ) ≤ n ∧ n < bound)

variable {radix bound n : ℕ}

/-! ### Digits -/

/-- **The digits of a number in order**: `ds` are digits, at least one, and their value is
`n`. -/
def Spells (radix n : ℕ) (ds : List Char) : Prop := readDigits radix ds = some n

/-- A sign is no digit. -/
theorem not_spells_of_sign {c : Char} (hc : c = '+' ∨ c = '-') (ds : List Char) :
    ¬ Spells radix n (c :: ds) := by
  have hnone : toDigit radix c = none := by
    rcases hc with rfl | rfl <;> rfl
  rw [Spells, readDigits, if_neg (List.cons_ne_nil _ _), digitsValue, hnone]
  exact Option.some_ne_none n ∘ Eq.symm

/-- **The unsigned numerals of a number**: its digits, with or without a `+` in front. -/
theorem readUnsigned_eq_some_iff {s : List Char} :
    readUnsigned radix bound s = some n ↔
      n < bound ∧ (Spells radix n s ∨ ∃ ds, s = '+' :: ds ∧ Spells radix n ds) := by
  have hfilter : ∀ o : Option ℕ, (o.filter fun n => decide (n < bound)) = some n ↔
      n < bound ∧ o = some n := by
    intro o
    rw [Option.filter_eq_some_iff, decide_eq_true_iff, and_comm]
  by_cases hs : ∃ ds, s = '+' :: ds
  · obtain ⟨ds, rfl⟩ := hs
    refine (hfilter _).trans (and_congr_right fun _ => ?_)
    constructor
    · exact fun h => .inr ⟨ds, rfl, h⟩
    · rintro (h | ⟨ds', heq, h⟩)
      · exact absurd h (not_spells_of_sign (.inl rfl) ds)
      · obtain ⟨-, rfl⟩ := List.cons.inj heq
        exact h
  · have hplain : readUnsigned radix bound s =
        (readDigits radix s).filter fun n => decide (n < bound) := by
      unfold readUnsigned
      split
      · next ds => exact absurd ⟨ds, rfl⟩ hs
      · rfl
    rw [hplain]
    refine (hfilter _).trans (and_congr_right fun _ => ?_)
    constructor
    · exact .inl
    · rintro (h | ⟨ds', heq, -⟩)
      · exact h
      · exact absurd ⟨ds', heq⟩ hs

/-- **The signed numerals of a number.** -/
theorem readSigned_eq_some_iff {s : List Char} {z : ℤ} :
    readSigned radix bound s = some z ↔
      (-(bound : ℤ) ≤ z ∧ z < bound) ∧ ∃ m ds, Spells radix m ds ∧
        ((s = ds ∨ s = '+' :: ds) ∧ z = m ∨ s = '-' :: ds ∧ z = -(m : ℤ)) := by
  unfold readSigned
  rw [Option.filter_eq_some_iff, decide_eq_true_iff, and_comm]
  refine and_congr_right fun _ => ?_
  split
  · next ds =>
    rw [Option.map_eq_some_iff]
    constructor
    · rintro ⟨m, hm, rfl⟩
      exact ⟨m, ds, hm, .inl ⟨.inr rfl, rfl⟩⟩
    · rintro ⟨m, ds', hm, ⟨rfl | heq, rfl⟩ | ⟨heq, -⟩⟩
      · exact absurd hm (not_spells_of_sign (.inl rfl) ds)
      · obtain ⟨-, rfl⟩ := List.cons.inj heq
        exact ⟨m, hm, rfl⟩
      · cases (List.cons.inj heq).1
  · next ds =>
    rw [Option.map_eq_some_iff]
    constructor
    · rintro ⟨m, hm, rfl⟩
      exact ⟨m, ds, hm, .inr ⟨rfl, rfl⟩⟩
    · rintro ⟨m, ds', hm, ⟨rfl | heq, -⟩ | ⟨heq, rfl⟩⟩
      · exact absurd hm (not_spells_of_sign (.inr rfl) ds)
      · cases (List.cons.inj heq).1
      · obtain ⟨-, rfl⟩ := List.cons.inj heq
        exact ⟨m, hm, rfl⟩
  · next hplus hminus =>
    rw [Option.map_eq_some_iff]
    constructor
    · rintro ⟨m, hm, rfl⟩
      exact ⟨m, s, hm, .inl ⟨.inl rfl, rfl⟩⟩
    · rintro ⟨m, ds, hm, ⟨rfl | heq, rfl⟩ | ⟨heq, -⟩⟩
      · exact ⟨m, hm, rfl⟩
      · exact absurd heq (hplus ds)
      · exact absurd heq (hminus ds)

/-! ### Writing and reading -/

/-- The digit of a value has that value. -/
theorem toDigit_digitChar (hr : radix ≤ 16) {d : ℕ} (hd : d < radix) :
    toDigit radix d.digitChar = some d := by
  have hall : ∀ d < 16, toDigit 16 d.digitChar = some d := by decide
  have hat : ∀ {c : Char}, toDigit 16 c = some d → toDigit radix c = some d := by
    intro c hc
    rw [toDigit, Option.filter_eq_some_iff] at hc ⊢
    exact ⟨hc.1, decide_eq_true hd⟩
  exact hat (hall d (by omega))

/-- Digits behind others are read on from the value of those. -/
theorem digitsValue_append (n : ℕ) (cs cs' : List Char) :
    digitsValue radix n (cs ++ cs') =
      (digitsValue radix n cs).bind fun m => digitsValue radix m cs' := by
  induction cs generalizing n with
  | nil => rfl
  | cons c cs ih =>
      rw [List.cons_append, digitsValue, digitsValue]
      cases toDigit radix c with
      | none => rfl
      | some d => exact ih _

/-- **A number is read back from its digits.** -/
theorem digitsValue_toDigits (hr : 1 < radix) (hr' : radix ≤ 16) (n : ℕ) :
    digitsValue radix 0 (Nat.toDigits radix n) = some n := by
  induction n using Nat.strongRecOn with
  | ind n ih =>
      by_cases hn : n < radix
      · rw [Nat.toDigits_of_lt_base hn, digitsValue, toDigit_digitChar hr' hn]
        show some (0 * radix + n) = some n
        rw [Nat.zero_mul, Nat.zero_add]
      · have hlt : n / radix < n := Nat.div_lt_self (by omega) hr
        rw [Nat.toDigits_of_base_le hr (Nat.le_of_not_lt hn), digitsValue_append, ih _ hlt,
          Option.bind_some, digitsValue, toDigit_digitChar hr' (Nat.mod_lt n (by omega))]
        show some (n / radix * radix + n % radix) = some n
        rw [Nat.mul_comm, Nat.div_add_mod]

/-- The digits of a number spell it. -/
theorem spells_toDigits (hr : 1 < radix) (hr' : radix ≤ 16) (n : ℕ) :
    Spells radix n (Nat.toDigits radix n) := by
  rw [Spells, readDigits, if_neg Nat.toDigits_ne_nil]
  exact digitsValue_toDigits hr hr' n

/-- A number below the bound is read from its digits. -/
theorem readUnsigned_toDigits (hr : 1 < radix) (hr' : radix ≤ 16) (hn : n < bound) :
    readUnsigned radix bound (Nat.toDigits radix n) = some n :=
  readUnsigned_eq_some_iff.mpr ⟨hn, .inl (spells_toDigits hr hr' n)⟩

end Numerals
