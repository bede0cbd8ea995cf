import Mathlib.Data.List.Basic
import Mathlib.Logic.Function.Basic
import Mathlib.Tactic.Common

/-!
# Strings that Differ in One Place

Two strings of the same length that differ in exactly one position, and what a running check
makes of the difference. A check that goes through a string symbol by symbol, and whose step
can be cancelled on either side, never takes the two strings for each other. A sum in a group
is such a check.

## The relation

`ChangedAt k s t` says where the strings differ, and that they do: the symbols at position `k`
are different, and those everywhere else the same. Nothing is said about how the one came from
the other, so it serves for a symbol that was damaged on the way as for one that was replaced on
purpose. A string that is made of parts has its change in one of them (`changedAt_append_iff`),
so a format is taken apart by its fields, with the check on the field that has the change.

The symbols, and the states that a check goes through, are of arbitrary types.

## Main results

* `changedAt_iff_set` — a change is an assignment.
* `changedAt_cons_iff`, `changedAt_append_iff` — where the change is, in a string that is made
  of parts.
* `ChangedAt.foldl_ne` — a cancellable check tells the two strings apart.
-/

namespace OneChange

variable {α β : Type*}

/-- The string `l'` is `l` with the symbol at position `i`, and no other, changed to a different
one. -/
structure ChangedAt (i : ℕ) (l l' : List α) : Prop where
  length_eq : l'.length = l.length
  ne : l'[i]? ≠ l[i]?
  eq_of_ne : ∀ j, j ≠ i → l'[j]? = l[j]?

namespace ChangedAt

variable {i : ℕ} {l l' : List α}

/-- A string is not a change of itself. -/
theorem irrefl : ¬ ChangedAt i l l := fun h => h.ne rfl

/-- The change lies within the string. -/
theorem lt_length (h : ChangedAt i l l') : i < l.length := by
  by_contra hge
  have hlen := h.length_eq
  refine h.ne ?_
  rw [List.getElem?_eq_none (by omega), List.getElem?_eq_none (by omega)]

end ChangedAt

/-- **A change is an assignment** of a different symbol. -/
theorem changedAt_iff_set {i : ℕ} {l l' : List α} :
    ChangedAt i l l' ↔ ∃ a b, l[i]? = some a ∧ b ≠ a ∧ l' = l.set i b := by
  constructor
  · intro h
    have hlt := h.lt_length
    have hlt' : i < l'.length := by rw [h.length_eq]; exact hlt
    refine ⟨l[i], l'[i], List.getElem?_eq_getElem hlt, ?_, ?_⟩
    · intro heq
      exact h.ne (by rw [List.getElem?_eq_getElem hlt, List.getElem?_eq_getElem hlt', heq])
    · refine List.ext_getElem? fun j => ?_
      by_cases hj : j = i
      · rw [hj, List.getElem?_set_self hlt, List.getElem?_eq_getElem hlt']
      · rw [List.getElem?_set_ne (Ne.symm hj), h.eq_of_ne j hj]
  · rintro ⟨a, b, ha, hne, rfl⟩
    obtain ⟨hlt, rfl⟩ := List.getElem?_eq_some_iff.mp ha
    refine ⟨List.length_set, ?_, fun j hj => List.getElem?_set_ne (Ne.symm hj)⟩
    rw [List.getElem?_set_self hlt, List.getElem?_eq_getElem hlt]
    exact fun heq => hne (Option.some.inj heq)

/-- The change of a string with a first symbol: that symbol, or one of those behind it. -/
theorem changedAt_cons_iff {i : ℕ} {a b : α} {l l' : List α} :
    ChangedAt i (a :: l) (b :: l') ↔
      (i = 0 ∧ a ≠ b ∧ l = l') ∨ ∃ k, i = k + 1 ∧ a = b ∧ ChangedAt k l l' := by
  constructor
  · rintro ⟨hlen, hne, heq⟩
    cases i with
    | zero =>
        refine .inl ⟨rfl, ?_, ?_⟩
        · rintro rfl
          exact hne rfl
        · refine List.ext_getElem? fun j => ?_
          exact (heq (j + 1) (Nat.succ_ne_zero j)).symm
    | succ k =>
        refine .inr ⟨k, rfl, ?_, Nat.succ.inj hlen, hne, ?_⟩
        · exact (Option.some.inj (heq 0 (Nat.succ_ne_zero k).symm)).symm
        · intro j hj
          exact heq (j + 1) (fun h => hj (Nat.succ.inj h))
  · rintro (⟨rfl, hne, rfl⟩ | ⟨k, rfl, rfl, hlen, hne, heq⟩)
    · refine ⟨rfl, fun h => hne (Option.some.inj h).symm, ?_⟩
      intro j hj
      obtain ⟨j, rfl⟩ := Nat.exists_eq_succ_of_ne_zero hj
      rfl
    · refine ⟨congrArg (· + 1) hlen, hne, ?_⟩
      intro j hj
      cases j with
      | zero => rfl
      | succ j => exact heq j (fun h => hj (congrArg (· + 1) h))

/-- The change of two parts put together lies in one of them. -/
theorem changedAt_append_iff {i : ℕ} {p p' s s' : List α} (hp : p'.length = p.length) :
    ChangedAt i (p ++ s) (p' ++ s') ↔
      (ChangedAt i p p' ∧ s = s') ∨ ∃ k, i = p.length + k ∧ p = p' ∧ ChangedAt k s s' := by
  induction p generalizing p' i with
  | nil =>
      obtain rfl := List.length_eq_zero_iff.mp hp
      simp only [List.nil_append, List.length_nil, Nat.zero_add, true_and]
      constructor
      · exact fun h => .inr ⟨i, rfl, h⟩
      · rintro (⟨h, -⟩ | ⟨k, rfl, h⟩)
        · exact absurd h ChangedAt.irrefl
        · exact h
  | cons a p ih =>
      obtain ⟨b, p', rfl⟩ := List.exists_cons_of_length_eq_add_one hp
      have hp' := Nat.succ.inj hp
      simp only [List.cons_append, changedAt_cons_iff]
      constructor
      · rintro (⟨rfl, hne, heq⟩ | ⟨k, rfl, rfl, hrest⟩)
        · obtain ⟨rfl, rfl⟩ := List.append_inj heq hp'.symm
          exact .inl ⟨.inl ⟨rfl, hne, rfl⟩, rfl⟩
        · rcases (ih hp').mp hrest with ⟨hfront, rfl⟩ | ⟨j, rfl, rfl, hback⟩
          · exact .inl ⟨.inr ⟨k, rfl, rfl, hfront⟩, rfl⟩
          · exact .inr ⟨j, by rw [List.length_cons]; omega, rfl, hback⟩
      · rintro (⟨⟨rfl, hne, rfl⟩ | ⟨k, rfl, rfl, h⟩, rfl⟩ | ⟨j, rfl, heq, h⟩)
        · exact .inl ⟨rfl, hne, rfl⟩
        · exact .inr ⟨k, rfl, rfl, (ih hp').mpr (.inl ⟨h, rfl⟩)⟩
        · obtain ⟨rfl, rfl⟩ := List.cons.inj heq
          exact .inr ⟨p.length + j, by rw [List.length_cons]; omega, rfl,
            (ih rfl).mpr (.inr ⟨j, rfl, rfl, h⟩)⟩

/-- **A cancellable check tells the strings apart.** The induction is on the string; once the
changed symbol has been read, the two checks stay different. -/
theorem ChangedAt.foldl_ne {op : β → α → β} (hleft : ∀ b, Function.Injective (op b))
    (hright : ∀ a, Function.Injective fun b => op b a) {i : ℕ} {l l' : List α}
    (h : ChangedAt i l l') (b : β) : l'.foldl op b ≠ l.foldl op b := by
  have hlater : ∀ (l : List α) {b b' : β}, b ≠ b' → l.foldl op b ≠ l.foldl op b' := by
    intro l
    induction l with
    | nil => exact id
    | cons a l ih => exact fun hne => ih fun heq => hne (hright a heq)
  induction l generalizing i l' b with
  | nil => exact absurd h.lt_length (Nat.not_lt_zero i)
  | cons a l ih =>
      obtain ⟨a', l', rfl⟩ := List.exists_cons_of_length_eq_add_one h.length_eq
      rcases changedAt_cons_iff.mp h with ⟨-, hne, rfl⟩ | ⟨k, -, rfl, hrest⟩
      · exact hlater l fun heq => hne (hleft b heq).symm
      · exact ih hrest (op b a)

end OneChange
