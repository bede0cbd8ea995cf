import Stcbsl.Traced

/-!
# Contracts of Programs

Pre- and postconditions for programs that leave a trace. A condition speaks of the whole
history, so that what a program has done before is there for what it does next: a safety
property of runs is a condition that every event carries on, and a loop is an induction whose
invariant relates the loop's variables to the history.

A contract has two postconditions, one for the end with a value and one for the end with an
error. Neither end is an exception to the other: a program that gives up in the middle has a
history too, and most of what is said about a broken session is said about that one.

## Contracts and guards

A guard (`GuardsFrom` of `Stcbsl.Traced`) is asked of each event with the history before it. A
contract whose conditions imply that the guard has held so far is a proof of the guard
(`contract_guarded`), so a loop needs one invariant for what it computes and for what it may do.

## Running behind a history

A program that runs behind a history is a program itself (`Prog.after`): against a world that
remembers, it is the same program against the world as it is by then. This is how the second
half of a program is given the theorems that were proved for a fresh start.

## Main results

* `Contract.bind`, `contract_perform` — contracts compose, and where they come from.
* `contract_guarded` — a guard of every event is carried by a contract.
* `Prog.after_bind` — running behind a history is compatible with sequencing.
-/

namespace Traced

variable {ε ε' ev α β : Type}

/-! ### Contracts -/

/-- What holds at an end: `Q` of a value, `E` of an error, and of the history by then. -/
def Ends (Q : α → List ev → Prop) (E : ε → List ev → Prop) : Except ε α → List ev → Prop
  | .ok a, h => Q a h
  | .error e, h => E e h

/-- **A contract**: behind every history that satisfies `P`, the program ends with a value and
a history that satisfy `Q`, or with an error and a history that satisfy `E`. -/
def Contract (P : List ev → Prop) (x : Prog ε ev α) (Q : α → List ev → Prop)
    (E : ε → List ev → Prop) : Prop :=
  ∀ h, P h → Ends Q E (x h).1 (h ++ (x h).2)

variable {P P' : List ev → Prop} {x : Prog ε ev α} {Q Q' : α → List ev → Prop}
  {E E' : ε → List ev → Prop}

/-- Weaker conditions hold at an end, too. -/
theorem Ends.weaken {r : Except ε α} {h : List ev} (hends : Ends Q E r h)
    (hQ : ∀ a, Q a h → Q' a h) (hE : ∀ e, E e h → E' e h) : Ends Q' E' r h := by
  cases r with
  | ok a => exact hQ a hends
  | error e => exact hE e hends

/-- What a contract says of one run. -/
theorem Contract.ends (hx : Contract P x Q E) {h t : List ev} {r : Except ε α} (hP : P h)
    (hr : x h = (r, t)) : Ends Q E r (h ++ t) := by
  have hends := hx h hP
  rwa [hr] at hends

/-- A value at once: the condition on it holds behind the same history. -/
theorem contract_pure {a : α} (hP : ∀ h, P h → Q a h) :
    Contract P (pure a : Prog ε ev α) Q E := by
  intro h hp
  show Q a (h ++ [])
  rw [List.append_nil]
  exact hP h hp

/-- An error at once, in the same way. -/
theorem contract_fail {e : ε} (hP : ∀ h, P h → E e h) :
    Contract P (Prog.fail e : Prog ε ev α) Q E := by
  intro h hp
  show E e (h ++ [])
  rw [List.append_nil]
  exact hP h hp

/-- **Contracts compose.** -/
theorem Contract.bind {R : β → List ev → Prop} {y : Prog ε ev β} {f : β → Prog ε ev α}
    (hy : Contract P y R E) (hf : ∀ b, Contract (R b) (f b) Q E) :
    Contract P (y >>= f) Q E := by
  intro h hP
  match hrun : y h with
  | (.error e, t) =>
      rw [Prog.bind_of_error hrun]
      exact hy.ends hP hrun
  | (.ok b, t) =>
      rw [Prog.bind_of_ok hrun rfl, ← List.append_assoc]
      exact hf b (h ++ t) (hy.ends hP hrun)

/-- A single event. -/
theorem contract_perform {f : List ev → Except ε α × ev}
    (hP : ∀ h, P h → Ends Q E (f h).1 (h ++ [(f h).2])) :
    Contract P (Prog.perform f) Q E := hP

/-- Where errors are replaced, so are the conditions on them. -/
theorem Contract.mapError {g : ε' → ε} {y : Prog ε' ev α} {E' : ε' → List ev → Prop}
    (hy : Contract P y Q E') (hE : ∀ e h, E' e h → E (g e) h) :
    Contract P (y.mapError g) Q E := by
  intro h hP
  match hrun : y h with
  | (.ok a, t) =>
      rw [Prog.mapError, hrun]
      exact hy.ends hP hrun
  | (.error e, t) =>
      rw [Prog.mapError, hrun]
      exact hE e _ (hy.ends hP hrun)

/-- A stronger precondition, and weaker postconditions. -/
theorem Contract.weaken (hx : Contract P x Q E) (hP : ∀ h, P' h → P h)
    (hQ : ∀ a h, Q a h → Q' a h) (hE : ∀ e h, E e h → E' e h) : Contract P' x Q' E' :=
  fun h hp => (hx h (hP h hp)).weaken (fun a => hQ a _) fun e => hE e _

/-- A stronger precondition. -/
theorem Contract.pre (hx : Contract P x Q E) (hP : ∀ h, P' h → P h) : Contract P' x Q E :=
  fun h hp => hx h (hP h hp)

/-- A weaker postcondition. -/
theorem Contract.post (hx : Contract P x Q E) (hQ : ∀ a h, Q a h → Q' a h) :
    Contract P x Q' E :=
  hx.weaken (fun _ hp => hp) hQ fun _ _ he => he

/-! ### Events of one kind -/

/-- Every event the program adds satisfies `p`. -/
def Emits (p : ev → Bool) (x : Prog ε ev α) : Prop := ∀ h, ∀ e ∈ (x h).2, p e = true

variable {p : ev → Bool}

/-- A value adds no event. -/
theorem emits_pure (a : α) : Emits p (pure a : Prog ε ev α) := fun _ _ he => by cases he

/-- A single event, of the kind. -/
theorem emits_perform {f : List ev → Except ε α × ev} (hf : ∀ h, p (f h).2 = true) :
    Emits p (Prog.perform f) := by
  intro h e he
  rw [List.mem_singleton.mp he]
  exact hf h

/-- Programs that emit events of one kind do so in sequence. -/
theorem Emits.bind {y : Prog ε ev β} {f : β → Prog ε ev α} (hy : Emits p y)
    (hf : ∀ b, Emits p (f b)) : Emits p (y >>= f) := by
  intro h
  have hfirst := hy h
  match hrun : y h with
  | (.error e, t) =>
      rw [hrun] at hfirst
      rw [Prog.bind_of_error hrun]
      exact hfirst
  | (.ok b, t) =>
      rw [hrun] at hfirst
      rw [Prog.bind_of_ok hrun rfl]
      exact List.forall_mem_append.mpr ⟨hfirst, hf b (h ++ t)⟩

/-- **A condition that such events leave alone** is carried through the program. -/
theorem Emits.contract (hx : Emits p x) (hP : ∀ h e, P h → p e = true → P (h ++ [e])) :
    Contract P x (fun _ => P) fun _ => P := by
  have hall : ∀ t h, P h → (∀ e ∈ t, p e = true) → P (h ++ t) := by
    intro t
    induction t with
    | nil =>
        intro h hp _
        rwa [List.append_nil]
    | cons e t ih =>
        intro h hp ht
        rw [List.append_cons]
        exact ih _ (hP h e hp (ht e List.mem_cons_self)) fun e' he' =>
          ht e' (List.mem_cons_of_mem e he')
  intro h hp
  have hend := hall (x h).2 h hp (hx h)
  match hrun : (x h).1 with
  | .ok a => exact hend
  | .error e => exact hend

/-! ### Guards by contract -/

/-- A guard up to a further event. -/
theorem guardsFrom_concat {φ : List ev → ev → Prop} {h : List ev} {e : ev} :
    GuardsFrom φ [] (h ++ [e]) ↔ GuardsFrom φ [] h ∧ φ h e := by
  rw [guardsFrom_append, guardsFrom_cons, List.nil_append]
  exact and_congr_right fun _ => and_iff_left (guardsFrom_nil _)

/-- **A guard that a program's contract carries** holds of every event of its run. -/
theorem contract_guarded {φ : List ev → ev → Prop}
    (hx : Contract (fun h => h = []) x (fun _ h => GuardsFrom φ [] h)
      fun _ h => GuardsFrom φ [] h) : GuardsFrom φ [] (x []).2 := by
  have hends := hx [] rfl
  rw [List.nil_append] at hends
  match hrun : x [] with
  | (.ok a, t) =>
      rw [hrun] at hends
      exact hends
  | (.error e, t) =>
      rw [hrun] at hends
      exact hends

/-! ### Running behind a history -/

namespace Prog

/-- The program behind the history `h₀`, as a program that starts anew. -/
def after (h₀ : List ev) (x : Prog ε ev α) : Prog ε ev α := fun h => x (h₀ ++ h)

variable (h₀ : List ev)

/-- A value is the same behind every history. -/
theorem after_pure (a : α) : after h₀ (pure a : Prog ε ev α) = pure a := rfl

/-- **Sequencing behind a history.** -/
theorem after_bind (x : Prog ε ev β) (f : β → Prog ε ev α) :
    after h₀ (x >>= f) = after h₀ x >>= fun b => after h₀ (f b) := by
  funext h
  match hx : x (h₀ ++ h) with
  | (.error e, t) =>
      have hx' : after h₀ x h = (.error e, t) := hx
      exact (bind_of_error hx).trans (bind_of_error hx').symm
  | (.ok b, t) =>
      have hx' : after h₀ x h = (.ok b, t) := hx
      refine (bind_of_ok hx rfl).trans ((bind_of_ok hx' rfl).trans ?_).symm
      show ((f b (h₀ ++ (h ++ t))).1, t ++ (f b (h₀ ++ (h ++ t))).2) = _
      rw [List.append_assoc]

end Prog

end Traced
