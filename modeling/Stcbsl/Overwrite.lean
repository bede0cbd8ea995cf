import Mathlib.Data.List.Induction
import Mathlib.Tactic.Common

/-!
# Memories Overwritten by Lists

A memory is a function from addresses to values. `overwrite m a l` is the memory after the
values `l` have been stored from address `a` on.

## Storing piece by piece

A device that is programmed block by block stores pieces of one length at ascending addresses,
and what it holds behind them is the concatenation, stored whole (`overwrite_pieces`). What has
been there before shows behind the end only, so an erase that reaches as far leaves no trace
(`overwrite_hidden`).

## Overlays

A list of blocks, each placed at an address of its own, is stored in an empty memory, where
the addresses that no block covers stay empty (`overlay`). Blocks may overlap, lie in any order
and be empty. At each address the last one of the list that covers it is seen. The memory
reaches up to the furthest end of a block (`extent`), an empty one included.

## Main results

* `overwrite_append` — storing one list behind another is storing their concatenation.
* `overwrite_pieces` — storing a list piece by piece is storing it whole.
* `overwrite_hidden` — what is stored and then overwritten leaves no trace.
* `overlay_of_last` — of blocks laid over each other, the last one that covers an address is
  seen there.
* `extent_eq`, `le_extent` — the blocks reach up to the end of one of them, and none reaches
  further.
-/

namespace Overwrite

variable {α : Type}

/-- The memory `m` with the values `l` stored from address `a` on. -/
def overwrite (m : ℕ → α) (a : ℕ) (l : List α) : ℕ → α :=
  fun i => if a ≤ i then (l[i - a]?).getD (m i) else m i

/-- A cell behind an overwrite: the new value where there is one, and else the old. -/
theorem overwrite_apply (m : ℕ → α) (a : ℕ) (l : List α) (i : ℕ) :
    overwrite m a l i = if a ≤ i then (l[i - a]?).getD (m i) else m i := rfl

/-- Nothing overwrites nothing. -/
@[simp] theorem overwrite_nil (m : ℕ → α) (a : ℕ) : overwrite m a [] = m := by
  funext i
  simp [overwrite_apply]

/-- Addresses behind the list keep their value. -/
theorem overwrite_of_le {m : ℕ → α} {a : ℕ} {l : List α} {i : ℕ} (h : a + l.length ≤ i) :
    overwrite m a l i = m i := by
  rw [overwrite_apply, List.getElem?_eq_none (by omega), Option.getD_none, ite_self]

/-- Addresses from zero on hold the list. -/
theorem overwrite_zero_of_lt {m : ℕ → α} {l : List α} {i : ℕ} (h : i < l.length) :
    overwrite m 0 l i = l[i] := by
  rw [overwrite_apply, if_pos (Nat.zero_le i), Nat.sub_zero, List.getElem?_eq_getElem h,
    Option.getD_some]

/-- **Storing one list behind another** is storing their concatenation. -/
theorem overwrite_append (m : ℕ → α) (a : ℕ) (l l' : List α) :
    overwrite (overwrite m a l) (a + l.length) l' = overwrite m a (l ++ l') := by
  funext i
  simp only [overwrite_apply, List.getElem?_append]
  by_cases hi : a + l.length ≤ i
  · have hsub : i - a - l.length = i - (a + l.length) := by omega
    rw [if_pos hi, if_pos (by omega : a ≤ i), if_pos (by omega : a ≤ i),
      if_neg (by omega : ¬ i - a < l.length), hsub,
      List.getElem?_eq_none (by omega : l.length ≤ i - a), Option.getD_none]
  · rw [if_neg hi]
    by_cases ha : a ≤ i
    · rw [if_pos ha, if_pos ha, if_pos (by omega)]
    · rw [if_neg ha, if_neg ha]

/-- **Storing a list piece by piece**, the `i`-th piece of length `n` at address `i * n`, is
storing it whole. -/
theorem overwrite_pieces (m : ℕ → α) (l : List α) (n k : ℕ) (h : k * n ≤ l.length) :
    (List.range k).foldl (fun m i => overwrite m (i * n) ((l.drop (i * n)).take n)) m =
      overwrite m 0 (l.take (k * n)) := by
  induction k with
  | zero => simp
  | succ k ih =>
      rw [Nat.succ_mul] at h ⊢
      have hlen : (l.take (k * n)).length = k * n := List.length_take_of_le (by omega)
      rw [List.range_succ, List.foldl_append, ih (by omega), List.take_add,
        ← overwrite_append, Nat.zero_add, hlen]
      rfl

/-- **What is overwritten leaves no trace.** -/
theorem overwrite_hidden (m : ℕ → α) (a : ℕ) {l l' : List α} (h : l.length ≤ l'.length) :
    overwrite (overwrite m a l) a l' = overwrite m a l' := by
  funext i
  simp only [overwrite_apply]
  by_cases ha : a ≤ i
  · simp only [if_pos ha]
    by_cases hi : i - a < l'.length
    · simp only [List.getElem?_eq_getElem hi, Option.getD_some]
    · simp only [List.getElem?_eq_none (by omega : l'.length ≤ i - a),
        List.getElem?_eq_none (by omega : l.length ≤ i - a), Option.getD_none]
  · simp only [if_neg ha]

/-! ### Overlays -/

/-- A block of values, placed at an address. -/
abbrev Block (α : Type) := ℕ × List α

/-- The block has a value for the address. -/
def Covers (p : Block α) (i : ℕ) : Prop := p.1 ≤ i ∧ i < p.1 + p.2.length

instance (p : Block α) (i : ℕ) : Decidable (Covers p i) := inferInstanceAs (Decidable (_ ∧ _))

/-- Blocks stored one after the other in an empty memory. -/
def overlay (ps : List (Block α)) : ℕ → Option α :=
  ps.foldl (fun m p => overwrite m p.1 (p.2.map some)) fun _ => none

/-- The end of the blocks: behind it nothing is stored. -/
def extent (ps : List (Block α)) : ℕ := ps.foldl (fun n p => max n (p.1 + p.2.length)) 0

@[simp] theorem overlay_nil : overlay ([] : List (Block α)) = fun _ => none := rfl

/-- A further block lies over those before it. -/
theorem overlay_concat (ps : List (Block α)) (p : Block α) :
    overlay (ps ++ [p]) = overwrite (overlay ps) p.1 (p.2.map some) := by
  rw [overlay, List.foldl_append]
  rfl

@[simp] theorem extent_nil : extent ([] : List (Block α)) = 0 := rfl

/-- A further block makes the extent reach at least its end. -/
theorem extent_concat (ps : List (Block α)) (p : Block α) :
    extent (ps ++ [p]) = max (extent ps) (p.1 + p.2.length) := by
  rw [extent, List.foldl_append]
  rfl

/-- A block shows through where it covers the address, and what is below it elsewhere. -/
theorem overlay_concat_apply (ps : List (Block α)) (p : Block α) (i : ℕ) :
    overlay (ps ++ [p]) i = if Covers p i then p.2[i - p.1]? else overlay ps i := by
  rw [overlay_concat, overwrite_apply]
  by_cases hc : Covers p i
  · obtain ⟨hle, hlt⟩ := hc
    have hi : i - p.1 < p.2.length := by omega
    rw [if_pos hle, if_pos ⟨hle, hlt⟩, List.getElem?_map, List.getElem?_eq_getElem hi]
    rfl
  · rw [if_neg hc]
    split
    · rename_i hle
      have hi : p.2.length ≤ i - p.1 := by
        by_contra hlt
        exact hc ⟨hle, by omega⟩
      rw [List.getElem?_map, List.getElem?_eq_none hi]
      rfl
    · rfl

/-- Nothing is stored exactly where no block covers the address. -/
theorem overlay_eq_none_iff {ps : List (Block α)} {i : ℕ} :
    overlay ps i = none ↔ ∀ p ∈ ps, ¬ Covers p i := by
  induction ps using List.reverseRecOn with
  | nil => simp
  | append_singleton ps p ih =>
      rw [overlay_concat_apply]
      by_cases hc : Covers p i
      · have hi : i - p.1 < p.2.length := by
          have := hc.1
          have := hc.2
          omega
        rw [if_pos hc, List.getElem?_eq_getElem hi]
        simp only [reduceCtorEq, false_iff]
        exact fun h => h p (by simp) hc
      · rw [if_neg hc, ih]
        simp [or_imp, forall_and, hc]

/-- **The last block that covers an address is seen there.** -/
theorem overlay_of_last {ps₁ ps₂ : List (Block α)} {p : Block α} {i : ℕ} (hp : Covers p i)
    (hlater : ∀ q ∈ ps₂, ¬ Covers q i) : overlay (ps₁ ++ p :: ps₂) i = p.2[i - p.1]? := by
  induction ps₂ using List.reverseRecOn with
  | nil => rw [overlay_concat_apply, if_pos hp]
  | append_singleton ps₂ q ih =>
      rw [← List.cons_append, ← List.append_assoc, overlay_concat_apply,
        if_neg (hlater q (by simp))]
      exact ih fun r hr => hlater r (by simp [hr])

/-- No block reaches behind the end. -/
theorem le_extent {ps : List (Block α)} {p : Block α} (h : p ∈ ps) :
    p.1 + p.2.length ≤ extent ps := by
  induction ps using List.reverseRecOn with
  | nil => cases h
  | append_singleton ps q ih =>
      rw [extent_concat]
      rcases List.mem_append.mp h with hp | hp
      · exact Nat.le_trans (ih hp) (Nat.le_max_left _ _)
      · obtain rfl := List.mem_singleton.mp hp
        exact Nat.le_max_right _ _

/-- **The end of the blocks** is the end of one of them. -/
theorem extent_eq {ps : List (Block α)} (h : 0 < extent ps) :
    ∃ p ∈ ps, extent ps = p.1 + p.2.length := by
  induction ps using List.reverseRecOn with
  | nil => exact absurd h (Nat.lt_irrefl 0)
  | append_singleton ps q ih =>
      rw [extent_concat] at h ⊢
      rcases Nat.le_total (extent ps) (q.1 + q.2.length) with hq | hq
      · exact ⟨q, by simp, Nat.max_eq_right hq⟩
      · rw [Nat.max_eq_left hq] at h ⊢
        rcases ih h with ⟨p, hp, heq⟩
        exact ⟨p, by simp [hp], heq⟩

/-- The blocks reach above address zero where one of them does. -/
theorem extent_pos_iff {ps : List (Block α)} :
    0 < extent ps ↔ ∃ p ∈ ps, 0 < p.1 + p.2.length := by
  constructor
  · intro h
    rcases extent_eq h with ⟨p, hp, heq⟩
    exact ⟨p, hp, heq ▸ h⟩
  · rintro ⟨p, hp, hpos⟩
    exact Nat.lt_of_lt_of_le hpos (le_extent hp)

end Overwrite
