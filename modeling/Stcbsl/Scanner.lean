import Mathlib.Data.List.Basic
import Mathlib.Tactic.Common

/-!
# Resynchronising Scanners

A resynchronising scanner reads a stream whose beginning has arrived and whose end is
unknown. At the current position it either cannot decide yet (`wait`), drops one symbol
(`skip`), drops one symbol and reports why (`reject`), or takes a whole word off the
stream (`accept`). The one law that makes such a reader independent of how its input is
cut into pieces is that a decision, once it can be taken, is not changed by the symbols
that follow (`Scanner.verdict_append`).

`Reads l its r` says that scanning `l` performs the items `its` and leaves `r`; `scan`
computes the unique maximal such reading.

## Main results

* `Reads.append` — a reading is unchanged when symbols are appended to its input.
* `Reads.maximal_unique` — two readings that cannot go on are equal, which is the
  confluence of every way of feeding and polling a scanner.
* `Reads.word_append` — the words of the items and the rest are the input: nothing is
  lost, repeated or reordered.
* `Reads.next_drop`, `Reads.mem_marks_or_inside` — the items sit at increasing positions,
  each is the decision of the scanner at its own position, and a consumed position that
  carries no item lies strictly inside an accepted word.
* `Passes.not_accept` — where a reading passes over the input, no word begins.
-/

namespace Resync

/-- What a scanner decides at the front of the unread input. -/
inductive Verdict (ε φ : Type*)
  /-- more symbols are needed -/
  | wait
  /-- drop one symbol silently -/
  | skip
  /-- drop one symbol and report `e` -/
  | reject (e : ε)
  /-- take the next `n` symbols as the word `f` -/
  | accept (n : ℕ) (f : φ)

/-- A **resynchronising scanner**: a decision function on the unread input whose
decisions are stable under further input. -/
structure Scanner (α ε φ : Type*) where
  verdict : List α → Verdict ε φ
  verdict_nil : verdict [] = .wait
  verdict_append : ∀ l s, verdict l ≠ .wait → verdict (l ++ s) = verdict l
  accept_bounds : ∀ l n f, verdict l = .accept n f → 0 < n ∧ n ≤ l.length

/-- One step of a scanner, with the symbols it consumed. -/
inductive Item (α ε φ : Type*)
  | skipped (a : α)
  | rejected (a : α) (e : ε)
  | accepted (w : List α) (f : φ)

variable {α ε φ : Type*}

namespace Item

/-- The symbols an item consumes. -/
def word : Item α ε φ → List α
  | skipped a => [a]
  | rejected a _ => [a]
  | accepted w _ => w

/-- The symbols an item throws away. -/
def discarded : Item α ε φ → List α
  | skipped a => [a]
  | rejected a _ => [a]
  | accepted _ _ => []

/-- What an item reports to the reader's caller. -/
def output : Item α ε φ → Option (Except ε φ)
  | skipped _ => none
  | rejected _ e => some (.error e)
  | accepted _ f => some (.ok f)

@[simp] theorem word_skipped (a : α) : (skipped a : Item α ε φ).word = [a] := rfl
@[simp] theorem word_rejected (a : α) (e : ε) : (rejected a e : Item α ε φ).word = [a] := rfl
@[simp] theorem word_accepted (w : List α) (f : φ) :
    (accepted w f : Item α ε φ).word = w := rfl
@[simp] theorem discarded_skipped (a : α) : (skipped a : Item α ε φ).discarded = [a] := rfl
@[simp] theorem discarded_rejected (a : α) (e : ε) :
    (rejected a e : Item α ε φ).discarded = [a] := rfl
@[simp] theorem discarded_accepted (w : List α) (f : φ) :
    (accepted w f : Item α ε φ).discarded = [] := rfl
@[simp] theorem output_skipped (a : α) : (skipped a : Item α ε φ).output = none := rfl
@[simp] theorem output_rejected (a : α) (e : ε) :
    (rejected a e : Item α ε φ).output = some (.error e) := rfl
@[simp] theorem output_accepted (w : List α) (f : φ) :
    (accepted w f : Item α ε φ).output = some (.ok f) := rfl

end Item

/-! ### One decision -/

namespace Scanner

variable (sc : Scanner α ε φ)

/-- The next item of the input and what is left after it, or `none` when the scanner
waits. -/
def next : List α → Option (Item α ε φ × List α)
  | [] => none
  | a :: l =>
      match sc.verdict (a :: l) with
      | .wait => none
      | .skip => some (.skipped a, l)
      | .reject e => some (.rejected a e, l)
      | .accept n f => some (.accepted ((a :: l).take n) f, (a :: l).drop n)

@[simp] theorem next_nil : sc.next [] = none := rfl

/-- The scanner is stuck exactly where it waits. -/
theorem next_eq_none_iff {l : List α} : sc.next l = none ↔ sc.verdict l = .wait := by
  cases l with
  | nil => simp [sc.verdict_nil]
  | cons a l =>
      rw [next]
      cases hv : sc.verdict (a :: l) <;> simp

/-- A silent drop. -/
theorem next_of_skip {a : α} {l : List α} (h : sc.verdict (a :: l) = .skip) :
    sc.next (a :: l) = some (.skipped a, l) := by
  rw [next, h]

/-- A reported drop. -/
theorem next_of_reject {a : α} {l : List α} {e : ε} (h : sc.verdict (a :: l) = .reject e) :
    sc.next (a :: l) = some (.rejected a e, l) := by
  rw [next, h]

/-- An accepted word. -/
theorem next_of_accept {l : List α} {n : ℕ} {f : φ} (h : sc.verdict l = .accept n f) :
    sc.next l = some (.accepted (l.take n) f, l.drop n) := by
  cases l with
  | nil => rw [sc.verdict_nil] at h; cases h
  | cons a l => rw [next, h]

/-- Inversion of an accepted item. -/
theorem next_accepted {l r w : List α} {f : φ} (h : sc.next l = some (.accepted w f, r)) :
    ∃ n, sc.verdict l = .accept n f ∧ w = l.take n ∧ r = l.drop n := by
  cases l with
  | nil => simp at h
  | cons a l =>
      rw [next] at h
      cases hv : sc.verdict (a :: l) with
      | wait | skip | reject e => simp [hv] at h
      | accept n g =>
          simp only [hv, Option.some.injEq, Prod.mk.injEq, Item.accepted.injEq] at h
          obtain ⟨⟨rfl, rfl⟩, rfl⟩ := h
          exact ⟨n, rfl, rfl, rfl⟩

/-- Inversion of a rejected item. -/
theorem next_rejected {a : α} {l r : List α} {e : ε}
    (h : sc.next l = some (.rejected a e, r)) : sc.verdict l = .reject e := by
  cases l with
  | nil => simp at h
  | cons b l =>
      rw [next] at h
      cases hv : sc.verdict (b :: l) with
      | wait | skip | accept n f => simp [hv] at h
      | reject e' =>
          simp only [hv, Option.some.injEq, Prod.mk.injEq, Item.rejected.injEq] at h
          obtain ⟨⟨-, rfl⟩, -⟩ := h
          rfl

/-- An item consumes a nonempty prefix of the input. -/
theorem next_word {l r : List α} {it : Item α ε φ} (h : sc.next l = some (it, r)) :
    it.word ++ r = l ∧ it.word ≠ [] := by
  cases l with
  | nil => simp at h
  | cons a l =>
      rw [next] at h
      cases hv : sc.verdict (a :: l) with
      | wait => simp [hv] at h
      | skip =>
          simp only [hv, Option.some.injEq, Prod.mk.injEq] at h
          obtain ⟨rfl, rfl⟩ := h
          simp
      | reject e =>
          simp only [hv, Option.some.injEq, Prod.mk.injEq] at h
          obtain ⟨rfl, rfl⟩ := h
          simp
      | accept n f =>
          simp only [hv, Option.some.injEq, Prod.mk.injEq] at h
          obtain ⟨rfl, rfl⟩ := h
          obtain ⟨hn, -⟩ := sc.accept_bounds _ _ _ hv
          refine ⟨List.take_append_drop n (a :: l), ?_⟩
          obtain ⟨m, rfl⟩ : ∃ m, n = m + 1 := ⟨n - 1, by omega⟩
          simp

/-- The input shrinks with every item. -/
theorem next_length_lt {l r : List α} {it : Item α ε φ} (h : sc.next l = some (it, r)) :
    r.length < l.length := by
  obtain ⟨rfl, hne⟩ := sc.next_word h
  have := List.length_pos_iff.mpr hne
  rw [List.length_append]
  omega

/-- An item that does not accept consumes exactly the symbol it throws away. -/
theorem next_discarded {l r : List α} {it : Item α ε φ} (h : sc.next l = some (it, r)) :
    (∃ a, it.word = [a]) ∨ ∃ f, it = .accepted it.word f := by
  cases it with
  | skipped a => exact .inl ⟨a, rfl⟩
  | rejected a e => exact .inl ⟨a, rfl⟩
  | accepted w f => exact .inr ⟨f, rfl⟩

/-- **A decision is stable**: symbols that arrive later stay behind the item. -/
theorem next_append {l r : List α} {it : Item α ε φ} (h : sc.next l = some (it, r))
    (s : List α) : sc.next (l ++ s) = some (it, r ++ s) := by
  have hw : sc.verdict l ≠ .wait := fun hw => by
    rw [sc.next_eq_none_iff.mpr hw] at h; cases h
  have hv := sc.verdict_append l s hw
  cases l with
  | nil => simp at h
  | cons a l =>
      rw [List.cons_append] at hv ⊢
      rw [next] at h ⊢
      rw [hv]
      cases hc : sc.verdict (a :: l) with
      | wait => exact absurd hc hw
      | skip =>
          simp only [hc, Option.some.injEq, Prod.mk.injEq] at h ⊢
          obtain ⟨rfl, rfl⟩ := h
          exact ⟨rfl, rfl⟩
      | reject e =>
          simp only [hc, Option.some.injEq, Prod.mk.injEq] at h ⊢
          obtain ⟨rfl, rfl⟩ := h
          exact ⟨rfl, rfl⟩
      | accept n f =>
          simp only [hc, Option.some.injEq, Prod.mk.injEq] at h ⊢
          obtain ⟨rfl, rfl⟩ := h
          obtain ⟨-, hn⟩ := sc.accept_bounds _ _ _ hc
          rw [← List.cons_append]
          exact ⟨by rw [List.take_append_of_le_length hn],
            List.drop_append_of_le_length hn⟩

end Scanner

/-! ### Readings -/

/-- **A reading**: scanning `l` performs the items `its`, in order, and leaves `r`. -/
inductive Reads (sc : Scanner α ε φ) : List α → List (Item α ε φ) → List α → Prop
  | nil (l : List α) : Reads sc l [] l
  | cons {l l' r : List α} {it : Item α ε φ} {its : List (Item α ε φ)} :
      sc.next l = some (it, l') → Reads sc l' its r → Reads sc l (it :: its) r

namespace Reads

variable {sc : Scanner α ε φ} {l r r' s : List α} {its its' : List (Item α ε φ)}

/-- Readings compose. -/
theorem trans (h : Reads sc l its r) (h' : Reads sc r its' r') :
    Reads sc l (its ++ its') r' := by
  induction h with
  | nil => exact h'
  | cons hn _ ih => exact .cons hn (ih h')

/-- A reading of one item. -/
theorem single {it : Item α ε φ} (h : sc.next l = some (it, r)) : Reads sc l [it] r :=
  .cons h (.nil r)

/-- **Appending input changes nothing** of what has been read. -/
theorem append (h : Reads sc l its r) (s : List α) : Reads sc (l ++ s) its (r ++ s) := by
  induction h with
  | nil l => exact .nil _
  | cons hn _ ih => exact .cons (sc.next_append hn s) ih

/-- **Conservation**: the words of the items followed by the rest are the input. -/
theorem word_append (h : Reads sc l its r) : its.flatMap Item.word ++ r = l := by
  induction h with
  | nil => rfl
  | cons hn _ ih =>
      rw [List.flatMap_cons, List.append_assoc, ih]
      exact (sc.next_word hn).1

/-- What is left is no longer than the input. -/
theorem length_le (h : Reads sc l its r) : r.length ≤ l.length := by
  rw [← h.word_append, List.length_append]
  omega

/-- What is left is the input without the consumed symbols. -/
theorem drop_eq (h : Reads sc l its r) : l.drop (l.length - r.length) = r := by
  rw [← h.word_append, List.length_append, Nat.add_sub_cancel, List.drop_left]

/-- Each item consumes at least one symbol. -/
theorem length_add_le (h : Reads sc l its r) : its.length + r.length ≤ l.length := by
  induction h with
  | nil => simp
  | cons hn _ ih =>
      have := sc.next_length_lt hn
      rw [List.length_cons]
      omega

/-- **Confluence**: a reading that cannot go on extends every other reading of the same
input. -/
theorem extends_to_maximal (h : Reads sc l its r) (h' : Reads sc l its' r')
    (hr' : sc.next r' = none) : ∃ more, its' = its ++ more ∧ Reads sc r more r' := by
  induction h generalizing its' with
  | nil => exact ⟨its', rfl, h'⟩
  | cons hn _ ih =>
      cases h' with
      | nil => rw [hr'] at hn; cases hn
      | cons hn' hrest =>
          rw [hn] at hn'
          obtain ⟨rfl, rfl⟩ := Prod.mk.inj (Option.some.inj hn')
          obtain ⟨more, rfl, hmore⟩ := ih hrest
          exact ⟨more, rfl, hmore⟩

/-- A reading without items consumes nothing. -/
theorem eq_of_nil (h : Reads sc l [] r) : r = l := by
  cases h
  rfl

/-- Where the scanner waits, it reads nothing. -/
theorem eq_nil_of_stuck (h : Reads sc l its r) (hl : sc.next l = none) : its = [] := by
  cases h with
  | nil => rfl
  | cons hn _ =>
      rw [hl] at hn
      cases hn

/-- **A reading is determined by what it leaves.** -/
theorem eq_of_rest (h : Reads sc l its r) (h' : Reads sc l its' r) : its = its' := by
  induction h generalizing its' with
  | nil =>
      have := h'.length_add_le
      exact (List.length_eq_zero_iff.mp (by omega)).symm
  | cons hn hrest ih =>
      cases h' with
      | nil =>
          have := sc.next_length_lt hn
          have := hrest.length_le
          omega
      | cons hn' hrest' =>
          rw [hn] at hn'
          obtain ⟨rfl, rfl⟩ := Prod.mk.inj (Option.some.inj hn')
          rw [ih hrest']

/-- Two readings of one input that cannot go on are the same reading. -/
theorem maximal_unique (h : Reads sc l its r) (hr : sc.next r = none)
    (h' : Reads sc l its' r') (hr' : sc.next r' = none) : its = its' ∧ r = r' := by
  obtain ⟨more, rfl, hmore⟩ := h.extends_to_maximal h' hr'
  obtain rfl := hmore.eq_nil_of_stuck hr
  exact ⟨(List.append_nil its).symm, hmore.eq_of_nil.symm⟩

end Reads

/-- **The scan of an input**: the items of the maximal reading and what is left. -/
def scan (sc : Scanner α ε φ) (l : List α) : List (Item α ε φ) × List α :=
  match h : sc.next l with
  | none => ([], l)
  | some (it, r) =>
      have : r.length < l.length := sc.next_length_lt h
      (it :: (scan sc r).1, (scan sc r).2)
termination_by l.length

/-- A scan stops where there is no further item. -/
theorem scan_of_none {sc : Scanner α ε φ} {l : List α} (h : sc.next l = none) :
    scan sc l = ([], l) := by
  rw [scan]
  split
  · rfl
  · next heq => rw [h] at heq; cases heq

/-- A scan goes on behind an item. -/
theorem scan_of_some {sc : Scanner α ε φ} {l r : List α} {it : Item α ε φ}
    (h : sc.next l = some (it, r)) :
    scan sc l = (it :: (scan sc r).1, (scan sc r).2) := by
  conv_lhs => rw [scan]
  split
  · next heq => rw [h] at heq; cases heq
  · next heq =>
      rw [h] at heq
      obtain ⟨rfl, rfl⟩ := Prod.mk.inj (Option.some.inj heq)
      rfl

/-- The scan is a reading, and it cannot go on. -/
theorem reads_scan (sc : Scanner α ε φ) (l : List α) :
    Reads sc l (scan sc l).1 (scan sc l).2 ∧ sc.next (scan sc l).2 = none := by
  induction hn : l.length using Nat.strongRecOn generalizing l with
  | ind n ih =>
      cases h : sc.next l with
      | none =>
          rw [scan_of_none h]
          exact ⟨.nil l, h⟩
      | some p =>
          obtain ⟨it, r⟩ := p
          rw [scan_of_some h]
          obtain ⟨hr, hstuck⟩ := ih r.length (hn ▸ sc.next_length_lt h) r rfl
          exact ⟨.cons h hr, hstuck⟩

/-- A reading that cannot go on is the scan. -/
theorem Reads.eq_scan {sc : Scanner α ε φ} {l r : List α} {its : List (Item α ε φ)}
    (h : Reads sc l its r) (hr : sc.next r = none) : scan sc l = (its, r) := by
  obtain ⟨hs, hstuck⟩ := reads_scan sc l
  obtain ⟨h1, h2⟩ := hs.maximal_unique hstuck h hr
  exact Prod.ext h1 h2

/-! ### Positions -/

/-- The items of a reading with the positions at which they start, counted from `p`. -/
def marks (p : ℕ) : List (Item α ε φ) → List (ℕ × Item α ε φ)
  | [] => []
  | it :: its => (p, it) :: marks (p + it.word.length) its

@[simp] theorem marks_nil (p : ℕ) : marks p ([] : List (Item α ε φ)) = [] := rfl

/-- The next item is marked behind the word of the first. -/
@[simp] theorem marks_cons (p : ℕ) (it : Item α ε φ) (its : List (Item α ε φ)) :
    marks p (it :: its) = (p, it) :: marks (p + it.word.length) its := rfl

/-- Forgetting the positions gives back the items. -/
theorem map_snd_marks (p : ℕ) (its : List (Item α ε φ)) :
    (marks p its).map Prod.snd = its := by
  induction its generalizing p with
  | nil => rfl
  | cons it its ih => simp [ih]

namespace Reads

variable {sc : Scanner α ε φ} {l r : List α} {its : List (Item α ε φ)}

/-- No item starts before the position the count starts from. -/
theorem le_of_mem_marks {p q : ℕ} {it : Item α ε φ} (hm : (q, it) ∈ marks p its) :
    p ≤ q := by
  induction its generalizing p with
  | nil => simp at hm
  | cons it' its ih =>
      rcases List.mem_cons.mp hm with heq | hm
      · exact Nat.le_of_eq (Prod.mk.inj heq).1.symm
      · have := ih hm
        omega

/-- **Items sit at strictly increasing positions**, each behind the end of the one
before. -/
theorem pairwise_marks (h : Reads sc l its r) (p : ℕ) :
    (marks p its).Pairwise fun a b => a.1 + a.2.word.length ≤ b.1 ∧ a.1 < b.1 := by
  induction h generalizing p with
  | nil => simp
  | cons hn _ ih =>
      refine List.Pairwise.cons ?_ (ih _)
      rintro ⟨q, it'⟩ hm
      have hpos := List.length_pos_iff.mpr (sc.next_word hn).2
      have := le_of_mem_marks hm
      exact ⟨this, by omega⟩

/-- Two items of one reading do not overlap: one ends before the other starts, or they are
the same item. -/
theorem marks_disjoint (h : Reads sc l its r) {p q q' : ℕ} {it it' : Item α ε φ}
    (hm : (q, it) ∈ marks p its) (hm' : (q', it') ∈ marks p its) :
    q + it.word.length ≤ q' ∨ q' + it'.word.length ≤ q ∨ (q = q' ∧ it = it') := by
  induction h generalizing p with
  | nil => simp at hm
  | cons hn _ ih =>
      rcases List.mem_cons.mp hm with heq | hm
      · obtain ⟨rfl, rfl⟩ := Prod.mk.inj heq
        rcases List.mem_cons.mp hm' with heq' | hm'
        · obtain ⟨rfl, rfl⟩ := Prod.mk.inj heq'
          exact .inr (.inr ⟨rfl, rfl⟩)
        · exact .inl (le_of_mem_marks hm')
      · rcases List.mem_cons.mp hm' with heq' | hm'
        · obtain ⟨rfl, rfl⟩ := Prod.mk.inj heq'
          exact .inr (.inl (le_of_mem_marks hm))
        · exact ih hm hm'

/-- **Each item is the scanner's decision at its own position.** -/
theorem next_drop (h : Reads sc l its r) {p q : ℕ} {it : Item α ε φ}
    (hm : (q, it) ∈ marks p its) :
    sc.next (l.drop (q - p)) = some (it, l.drop (q - p + it.word.length)) := by
  induction h generalizing p with
  | nil => simp at hm
  | @cons l l' r it' its hn hrest ih =>
      have hl : l = it'.word ++ l' := (sc.next_word hn).1.symm
      rcases List.mem_cons.mp hm with heq | hm
      · obtain ⟨rfl, rfl⟩ := Prod.mk.inj heq
        rw [Nat.sub_self, Nat.zero_add, List.drop_zero]
        conv_rhs => rw [hl, List.drop_left]
        exact hn
      · have hle := le_of_mem_marks hm
        have hd : ∀ k, l.drop (q - p + k) = l'.drop (q - (p + it'.word.length) + k) := by
          intro k
          rw [hl, show q - p + k = it'.word.length + (q - (p + it'.word.length) + k) by omega,
            ← List.drop_drop, List.drop_left]
        have h0 := hd 0
        rw [Nat.add_zero, Nat.add_zero] at h0
        rw [h0, hd]
        exact ih hm

/-- An item ends within the consumed part of the input. -/
theorem mark_end_le (h : Reads sc l its r) {p q : ℕ} {it : Item α ε φ}
    (hm : (q, it) ∈ marks p its) : q + it.word.length + r.length ≤ p + l.length := by
  induction h generalizing p with
  | nil => simp at hm
  | @cons l l' r it' its hn hrest ih =>
      have hl : l = it'.word ++ l' := (sc.next_word hn).1.symm
      rcases List.mem_cons.mp hm with heq | hm
      · obtain ⟨rfl, rfl⟩ := Prod.mk.inj heq
        have := hrest.length_le
        rw [hl, List.length_append]
        omega
      · have := ih hm
        rw [hl, List.length_append]
        omega

/-- **Every consumed position is accounted for**: it carries an item or lies strictly
inside an accepted word. -/
theorem mem_marks_or_inside (h : Reads sc l its r) {p q : ℕ} (hpq : p ≤ q)
    (hq : q + r.length < p + l.length) :
    (∃ it, (q, it) ∈ marks p its) ∨
      ∃ p' w f, (p', Item.accepted w f) ∈ marks p its ∧ p' < q ∧ q < p' + w.length := by
  induction h generalizing p with
  | nil => omega
  | @cons l l' r it' its hn hrest ih =>
      have hl : l = it'.word ++ l' := (sc.next_word hn).1.symm
      have hlen : l.length = it'.word.length + l'.length := by rw [hl, List.length_append]
      rcases Nat.lt_or_ge q (p + it'.word.length) with hlt | hge
      · rcases Nat.eq_or_lt_of_le hpq with rfl | hlt'
        · exact .inl ⟨it', List.mem_cons_self⟩
        · -- strictly inside the first word: only an accepted word is that long
          rcases sc.next_discarded hn with ⟨a, ha⟩ | ⟨f, hf⟩
          · rw [ha, List.length_singleton] at hlt
            omega
          · exact .inr ⟨p, it'.word, f, by rw [marks_cons, ← hf]; exact List.mem_cons_self,
              hlt', hlt⟩
      · rcases ih hge (by omega) with ⟨it, hm⟩ | ⟨p', w, f, hm, h1, h2⟩
        · exact .inl ⟨it, List.mem_cons_of_mem _ hm⟩
        · exact .inr ⟨p', w, f, List.mem_cons_of_mem _ hm, h1, h2⟩

end Reads

/-! ### Passing over input -/

/-- **Passing over**: scanning `l` down to `r` accepts nothing. -/
def Passes (sc : Scanner α ε φ) (l r : List α) : Prop :=
  ∃ its, Reads sc l its r ∧ ∀ it ∈ its, ∀ f, it.output ≠ some (.ok f)

namespace Passes

variable {sc : Scanner α ε φ} {l r r' : List α}

/-- Reading no item passes from a stream to itself. -/
theorem refl (sc : Scanner α ε φ) (l : List α) : Passes sc l l :=
  ⟨[], .nil l, fun _ hit => by cases hit⟩

/-- One reading goes on where another has stopped. -/
theorem trans (h : Passes sc l r) (h' : Passes sc r r') : Passes sc l r' := by
  obtain ⟨its, hr, hits⟩ := h
  obtain ⟨its', hr', hits'⟩ := h'
  refine ⟨its ++ its', hr.trans hr', ?_⟩
  intro it hit
  rcases List.mem_append.mp hit with hit | hit
  · exact hits it hit
  · exact hits' it hit

/-- Input that arrives later changes nothing. -/
theorem append (h : Passes sc l r) (s : List α) : Passes sc (l ++ s) (r ++ s) := by
  obtain ⟨its, hr, hits⟩ := h
  exact ⟨its, hr.append s, hits⟩

/-- What is left behind a reading is an end of the stream. -/
theorem suffix (h : Passes sc l r) : ∃ d, l = d ++ r := by
  obtain ⟨its, hr, -⟩ := h
  exact ⟨_, hr.word_append.symm⟩

/-- **What is passed over is thrown away**, as it is. -/
theorem discarded_append {its : List (Item α ε φ)} (hr : Reads sc l its r)
    (hits : ∀ it ∈ its, ∀ f, it.output ≠ some (.ok f)) : its.flatMap Item.discarded ++ r = l := by
  have hword : its.flatMap Item.discarded = its.flatMap Item.word := by
    refine List.flatMap_congr fun it hit => ?_
    cases it with
    | accepted w f => exact absurd rfl (hits _ hit f)
    | _ => rfl
  rw [hword, hr.word_append]

/-- **No word begins** where the scanner passes over the input. -/
theorem not_accept (h : Passes sc l r) {i : ℕ} (hi : i + r.length < l.length) (n : ℕ) (f : φ) :
    sc.verdict (l.drop i) ≠ .accept n f := by
  obtain ⟨its, hr, hits⟩ := h
  have hmem : ∀ {q it}, (q, it) ∈ marks 0 its → ∀ f, it.output ≠ some (.ok f) := by
    intro q it hm
    refine hits it ?_
    rw [← map_snd_marks 0 its]
    exact List.mem_map_of_mem (f := Prod.snd) hm
  intro hv
  rcases hr.mem_marks_or_inside (Nat.zero_le i) (by omega) with ⟨it, hm⟩ | ⟨p', w, g, hm, -, -⟩
  · have hnext := hr.next_drop hm
    rw [Nat.sub_zero, sc.next_of_accept hv] at hnext
    obtain ⟨rfl, -⟩ := Prod.mk.inj (Option.some.inj hnext)
    exact hmem hm f rfl
  · exact hmem hm g rfl

end Passes

end Resync
