import Mathlib.Data.List.Forall2
import Mathlib.Tactic.Common

/-!
# Traversals That May Fail

A traversal in `Except` calls a function on the elements of a list, one after the other, and
stops at the first call that fails. This module says what such a traversal comes to, without
its control flow: it succeeds with the list of the values of all calls, or it fails with the
error of the first call that does, behind a prefix of calls that succeed.

Both statements are equivalences, so that a reader built on a traversal is exact as soon as
the function for one element is: the texts it accepts are those all of whose words are
accepted, and an error points at the first word that is not. Nothing is said about what comes
behind that word, which is never looked at.

## The two steps

The head of a list is all that a step of the traversal looks at. `mapM_cons_eq_ok_iff` and
`mapM_cons_eq_error_iff` say this once for either end, and the inductions below are on the
list alone, with no case analysis on the results of calls.

## Main results

* `mapM_eq_ok_iff` — the values of a traversal, element by element.
* `mapM_eq_error_iff` — its error is the first one.
-/

namespace Traversal

variable {α β ε : Type} {f : α → Except ε β} {a : α} {l : List α} {e : ε}

/-! ### One element -/

/-- A traversal begins with the value of the first call, and goes on with the rest. -/
theorem mapM_cons_eq_ok_iff {bs : List β} :
    (a :: l).mapM f = .ok bs ↔ ∃ b bs', f a = .ok b ∧ l.mapM f = .ok bs' ∧ bs = b :: bs' := by
  rw [List.mapM_cons]
  cases f a with
  | error e => exact iff_of_false (fun h => by cases h) fun ⟨_, _, h, _⟩ => by cases h
  | ok b =>
      show (l.mapM f >>= fun bs' => pure (b :: bs')) = _ ↔ _
      cases l.mapM f with
      | error e => exact iff_of_false (fun h => by cases h) fun ⟨_, _, _, h, _⟩ => by cases h
      | ok bs' =>
          constructor
          · intro h
            cases h
            exact ⟨b, bs', rfl, rfl, rfl⟩
          · rintro ⟨_, _, hb, hbs, rfl⟩
            cases hb
            cases hbs
            rfl

/-- A traversal fails at the first element, or behind it. -/
theorem mapM_cons_eq_error_iff :
    (a :: l).mapM f = .error e ↔
      f a = .error e ∨ ∃ b, f a = .ok b ∧ l.mapM f = .error e := by
  rw [List.mapM_cons]
  cases f a with
  | error e' =>
      constructor
      · intro h
        cases h
        exact .inl rfl
      · rintro (h | ⟨_, h, -⟩)
        · cases h
          rfl
        · cases h
  | ok b =>
      show (l.mapM f >>= fun bs' => pure (b :: bs')) = _ ↔ _
      cases l.mapM f with
      | error e' => exact ⟨fun h => .inr ⟨b, rfl, h⟩, fun h => h.elim nofun fun ⟨_, _, h⟩ => h⟩
      | ok bs' => exact iff_of_false (fun h => by cases h) (by simp)

/-! ### Whole lists -/

/-- **The values of a traversal** are those of the calls, one for each element. -/
theorem mapM_eq_ok_iff {bs : List β} :
    l.mapM f = .ok bs ↔ List.Forall₂ (fun a b => f a = .ok b) l bs := by
  induction l generalizing bs with
  | nil =>
      rw [List.mapM_nil, List.forall₂_nil_left_iff]
      constructor
      · intro h
        cases h
        rfl
      · rintro rfl
        rfl
  | cons a l ih =>
      rw [mapM_cons_eq_ok_iff, List.forall₂_cons_left_iff]
      simp only [ih]

/-- **The error of a traversal** is that of the first call that fails, behind calls that
succeed. -/
theorem mapM_eq_error_iff :
    l.mapM f = .error e ↔ ∃ pre a post bs, l = pre ++ a :: post ∧
      List.Forall₂ (fun a b => f a = .ok b) pre bs ∧ f a = .error e := by
  induction l with
  | nil =>
      refine iff_of_false (fun h => by cases h) ?_
      rintro ⟨pre, a, post, bs, heq, -⟩
      simp at heq
  | cons a l ih =>
      rw [mapM_cons_eq_error_iff, ih]
      constructor
      · rintro (ha | ⟨b, hb, pre, a', post, bs, rfl, hpre, ha'⟩)
        · exact ⟨[], a, l, [], rfl, .nil, ha⟩
        · exact ⟨a :: pre, a', post, b :: bs, rfl, .cons hb hpre, ha'⟩
      · rintro ⟨_, a', post, _, heq, hpre, ha'⟩
        cases hpre with
        | nil =>
            obtain ⟨rfl, rfl⟩ := List.cons.inj heq
            exact .inl ha'
        | cons hb hpre =>
            obtain ⟨rfl, rfl⟩ := List.cons.inj heq
            exact .inr ⟨_, hb, _, a', post, _, rfl, hpre, ha'⟩

end Traversal
