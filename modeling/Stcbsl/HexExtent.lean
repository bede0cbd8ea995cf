import Mathlib.Data.List.Count
import Stcbsl.HexGrammar

/-!
# How Far an Image Reaches

An image reaches from address zero to the end of its last data record, and `lowestAddr` is the
address of its first. A data record may be without data; such a record covers no address, but it
has an address and an end like any other, and both count.

## Made of data

An image is made of its data (`FromData`) when its last address and its lowest one are
addresses of data, all data lies between them, and what is not data in front of the last address
is filled with zero. These are the gaps that the reader counts. An image need not be like that:
a record without data behind all others makes the image longer, and one in front of all others
makes the lowest address lower.

These two are the only ways. A record without data that starts in the region of the others, at
an end of it included, changes nothing; so the condition is one on the places of the records
without data (`EmptyAbove`, `EmptyBelow`), and says nothing about the image.

## Main results

* `last_iff`, `lowest_iff` — the two ends of an image, one by one.
* `image_from_data_iff` — exactly when an image has nothing but its data and the gaps in front
  of data.
* `image_without_data` — an image of a text without a single data byte.
-/

namespace Stcbsl

namespace IntelHex

open Text Overwrite

/-! ### Covered addresses -/

/-- One of the blocks has a value for the address. -/
def Covered (ps : List (Block UInt8)) (a : ℕ) : Prop := ∃ p ∈ ps, Covers p a

/-- **The image is made of its data**: its last address and `lowestAddr` are covered, nothing
that is covered lies outside, and an address that is not covered is filled with zero, in front of
one that is. -/
structure FromData (ps : List (Block UInt8)) (img : Image) : Prop where
  last : ∃ a, Covered ps a ∧ img.bytes.length = a + 1
  lt_length : ∀ a, Covered ps a → a < img.bytes.length
  lowest : Covered ps img.lowestAddr.toNat
  gapBytes_lt : img.gapBytes < img.bytes.length
  filler : ∀ a < img.bytes.length, ¬ Covered ps a →
    img.bytes[a]? = some 0x00 ∧ ∃ b, a < b ∧ b < img.bytes.length ∧ Covered ps b

/-- Every block without data starts at or behind the start of one with data. -/
def EmptyAbove (ps : List (Block UInt8)) : Prop :=
  ∀ p ∈ ps, p.2 = [] → ∃ q ∈ ps, q.2 ≠ [] ∧ q.1 ≤ p.1

/-- Every block without data starts at or in front of the end of one with data. -/
def EmptyBelow (ps : List (Block UInt8)) : Prop :=
  ∀ p ∈ ps, p.2 = [] → ∃ q ∈ ps, q.2 ≠ [] ∧ p.1 ≤ q.1 + q.2.length

instance (ps : List (Block UInt8)) : Decidable (EmptyAbove ps) :=
  inferInstanceAs (Decidable (∀ p ∈ ps, _))

instance (ps : List (Block UInt8)) : Decidable (EmptyBelow ps) :=
  inferInstanceAs (Decidable (∀ p ∈ ps, _))

/-- A block that covers an address has data. -/
theorem ne_nil_of_covers {p : Block UInt8} {a : ℕ} (h : Covers p a) : p.2 ≠ [] := by
  intro hnil
  have hlt := h.2
  rw [hnil, List.length_nil] at hlt
  exact absurd h.1 (by omega)

namespace IsImage

variable {ps : List (Block UInt8)} {img : Image}

/-- A covered address lies in the image. -/
theorem lt_length (h : IsImage ps img) {a : ℕ} (ha : Covered ps a) : a < img.bytes.length := by
  obtain ⟨p, hp, hcover⟩ := ha
  exact Nat.lt_of_lt_of_le hcover.2 (h.le_length p hp)

/-- The last address of the image is covered where no block without data lies behind the data. -/
theorem last_iff (h : IsImage ps img) :
    (∃ a, Covered ps a ∧ img.bytes.length = a + 1) ↔ EmptyBelow ps := by
  constructor
  · rintro ⟨a, ⟨q, hq, hcover⟩, hlen⟩ p hp hnil
    have hend := h.le_length p hp
    rw [hnil, List.length_nil] at hend
    have := hcover.2
    exact ⟨q, hq, ne_nil_of_covers hcover, by omega⟩
  · intro hbelow
    obtain ⟨p, hp, hlen⟩ := h.length_eq
    obtain ⟨q, hq, hne, hend⟩ : ∃ q ∈ ps, q.2 ≠ [] ∧ img.bytes.length = q.1 + q.2.length := by
      by_cases hnil : p.2 = []
      · obtain ⟨q, hq, hne, hle⟩ := hbelow p hp hnil
        have := h.le_length q hq
        rw [hnil, List.length_nil] at hlen
        exact ⟨q, hq, hne, by omega⟩
      · exact ⟨p, hp, hnil, hlen⟩
    have hpos := List.length_pos_of_ne_nil hne
    refine ⟨q.1 + q.2.length - 1, ⟨q, hq, ?_⟩, by omega⟩
    constructor <;> omega

/-- `lowestAddr` is covered where no block without data lies in front of the data. -/
theorem lowest_iff (h : IsImage ps img) :
    Covered ps img.lowestAddr.toNat ↔ EmptyAbove ps := by
  constructor
  · rintro ⟨q, hq, hcover⟩ p hp -
    exact ⟨q, hq, ne_nil_of_covers hcover, Nat.le_trans hcover.1 (h.lowest_le p hp)⟩
  · intro habove
    obtain ⟨p, hp, hlow⟩ := h.lowest_eq
    obtain ⟨q, hq, hne, hstart⟩ : ∃ q ∈ ps, q.2 ≠ [] ∧ img.lowestAddr.toNat = q.1 := by
      by_cases hnil : p.2 = []
      · obtain ⟨q, hq, hne, hle⟩ := habove p hp hnil
        have := h.lowest_le q hq
        exact ⟨q, hq, hne, by omega⟩
      · exact ⟨p, hp, hnil, hlow⟩
    have hpos := List.length_pos_of_ne_nil hne
    refine ⟨q, hq, ?_⟩
    constructor <;> omega

/-- Where some address is covered, the image is not all gap. -/
theorem gapBytes_lt (h : IsImage ps img) {a : ℕ} (ha : Covered ps a) :
    img.gapBytes < img.bytes.length := by
  obtain ⟨p, hp, hcover⟩ := ha
  have hlt : a < img.bytes.length := h.lt_length ⟨p, hp, hcover⟩
  have hcount : (List.range img.bytes.length).countP (fun a => decide (∀ p ∈ ps, ¬ Covers p a)) <
      (List.range img.bytes.length).length :=
    List.countP_lt_length_iff.mpr ⟨a, List.mem_range.mpr hlt, by
      simpa using ⟨p.1, p.2, hp, hcover⟩⟩
  rwa [List.length_range, ← h.gapBytes] at hcount

/-- An address that is not covered is filled with zero, in front of the last one. -/
theorem filler (h : IsImage ps img) {b : ℕ} (hb : Covered ps b) (hlen : img.bytes.length = b + 1)
    {a : ℕ} (ha : a < img.bytes.length) (hno : ¬ Covered ps a) :
    img.bytes[a]? = some 0x00 ∧ ∃ b, a < b ∧ b < img.bytes.length ∧ Covered ps b := by
  have hne : a ≠ b := fun heq => hno (heq ▸ hb)
  refine ⟨h.uncovered a ha fun p hp hcover => hno ⟨p, hp, hcover⟩, b, ?_, ?_, hb⟩ <;> omega

end IsImage

/-- **When an image has nothing but its data and the gaps in front of data**: exactly when the
data records without data lie neither in front of all data nor behind it. -/
theorem image_from_data_iff (text : List Char) (img : Image) (h : parse text = .ok img) :
    (∃ rs, Listed (lines text) rs) ∧
      ∀ rs, Listed (lines text) rs →
        (FromData (placed rs) img ↔ EmptyAbove (placed rs) ∧ EmptyBelow (placed rs)) := by
  obtain ⟨hlisted, himage⟩ := parse_overlay text img h
  refine ⟨hlisted, fun rs hrs => ?_⟩
  have himg := himage rs hrs
  constructor
  · intro hdata
    exact ⟨himg.lowest_iff.mp hdata.lowest, himg.last_iff.mp hdata.last⟩
  · rintro ⟨habove, hbelow⟩
    obtain ⟨b, hb, hlen⟩ := himg.last_iff.mpr hbelow
    exact
      { last := ⟨b, hb, hlen⟩
        lt_length := fun _ => himg.lt_length
        lowest := himg.lowest_iff.mpr habove
        gapBytes_lt := himg.gapBytes_lt hb
        filler := fun _ => himg.filler hb hlen }

/-- A data record without data between two with data. -/
theorem image_from_data_between :
    ∃ text img rs, parse text = .ok img ∧ Listed (lines text) rs ∧
      placed rs = [(0, [0xAA]), (2, []), (5, [0x55])] ∧ FromData (placed rs) img := by
  have hparse : parse ":01000000AA55\n:00000200FE\n:0100050055A5\n:00000001FF\n".toList =
      .ok { bytes := [0xAA, 0, 0, 0, 0, 0x55], lowestAddr := 0, gapBytes := 4 } := by
    decide +kernel
  obtain ⟨⟨rs, hrs⟩, hiff⟩ := image_from_data_iff _ _ hparse
  have hplaced : placed rs = [(0, [0xAA]), (2, []), (5, [0x55])] := by
    rw [hrs.eq_records]
    decide +kernel
  refine ⟨_, _, rs, hparse, hrs, hplaced, (hiff rs hrs).mpr ?_⟩
  rw [hplaced]
  decide

/-- **An image without data**: the only data record of the text is one without data, and what is
in front of its address is zero. -/
theorem image_without_data :
    ∃ text img rs, parse text = .ok img ∧ Listed (lines text) rs ∧ placed rs = [(0x10, [])] ∧
      img = { bytes := List.replicate 0x10 0x00, lowestAddr := 0x10, gapBytes := 0x10 } ∧
      (∀ a, ¬ Covered (placed rs) a) ∧ ¬ FromData (placed rs) img := by
  have hparse : parse ":00001000F0\n:00000001FF\n".toList =
      .ok { bytes := List.replicate 0x10 0x00, lowestAddr := 0x10, gapBytes := 0x10 } := by
    decide +kernel
  obtain ⟨⟨rs, hrs⟩, -⟩ := parse_overlay _ _ hparse
  have hplaced : placed rs = [(0x10, [])] := by
    rw [hrs.eq_records]
    decide +kernel
  have hnone : ∀ a, ¬ Covered (placed rs) a := by
    rintro a ⟨p, hp, hcover⟩
    rw [hplaced, List.mem_singleton] at hp
    exact ne_nil_of_covers hcover (by rw [hp])
  exact ⟨_, _, rs, hparse, hrs, hplaced, rfl, hnone, fun hdata => hnone _ hdata.lowest⟩

end IntelHex

end Stcbsl
