import Mathlib.Data.List.Basic
import Mathlib.Tactic.Common

/-!
# Programs that Leave a Trace

A program that talks to an outside world: what the world answers may depend on everything
that has happened so far, so a program is a function of the history of its run (`Prog`). It
ends with a value or an error, and adds events to the history. The answers of the world are
part of the function and no part of the syntax of a program, so a statement about all programs
of a kind is a statement about all worlds.

A straight-line program whose calls may fail performs a *script*: all of its events, or
some of them and a failed call (`Follows`). Safety properties of a run are properties of
each event and the history before it (`GuardsFrom`).

## Reading a history

Two notions read something off a history that later properties speak of. `since p h` are the
events behind the last one of a kind, which is what "since the last request" means; and
`InOrder ws s` says that words occur in a stream one behind the other and without overlap,
which is what a log or a list of accepted replies has to do with the bytes that were read.

Events, errors and values are arbitrary types here. The driver of `Stcbsl.Driver` is an
instance, with calls on a wire and on a session for events.

## Main results

* `bind_inv` — how the events of two programs in sequence divide.
* `Prog.events_bind` — the events of a sequence begin with those of its first part.
* `Follows.bind` — scripts compose.
* `guardsFrom_append` — guards compose.
* `since_append`, `since_hit` — how the events since the last one of a kind grow.
* `InOrder.concat` — words read off a stream one behind the other lie in it disjointly.
-/

namespace Traced

variable {ε ε' ev α β : Type}

/-! ### Programs -/

/-- A program: from the history of the run to its result and the events it adds. -/
def Prog (ε ev α : Type) : Type := List ev → Except ε α × List ev

namespace Prog

/-- End with a value. -/
def ret (a : α) : Prog ε ev α := fun _ => (.ok a, [])

/-- End with an error. -/
def fail (e : ε) : Prog ε ev α := fun _ => (.error e, [])

/-- Run one program, and on its value the next. -/
def andThen (x : Prog ε ev α) (f : α → Prog ε ev β) : Prog ε ev β := fun h =>
  match x h with
  | (.ok a, t) => ((f a (h ++ t)).1, t ++ (f a (h ++ t)).2)
  | (.error e, t) => (.error e, t)

instance : Monad (Prog ε ev) where
  pure := ret
  bind := andThen

/-- One event, with a result that depends on the history. -/
def perform (f : List ev → Except ε α × ev) : Prog ε ev α := fun h => ((f h).1, [(f h).2])

/-- Replace the error. -/
def mapError (g : ε → ε') (x : Prog ε ev α) : Prog ε' ev α := fun h =>
  ((x h).1.mapError g, (x h).2)

/-- A value adds no event. -/
@[simp] theorem pure_apply (a : α) (h : List ev) : (pure a : Prog ε ev α) h = (.ok a, []) := rfl

/-- What a sequence does behind a history. -/
theorem bind_apply (x : Prog ε ev α) (f : α → Prog ε ev β) (h : List ev) :
    (x >>= f) h = match x h with
      | (.ok a, t) => ((f a (h ++ t)).1, t ++ (f a (h ++ t)).2)
      | (.error e, t) => (.error e, t) := rfl

/-- The first part ends with a value, and the second follows behind its events. -/
theorem bind_of_ok {x : Prog ε ev α} {f : α → Prog ε ev β} {h t₁ t₂ : List ev} {a : α}
    {r : Except ε β} (hx : x h = (.ok a, t₁)) (hf : f a (h ++ t₁) = (r, t₂)) :
    (x >>= f) h = (r, t₁ ++ t₂) := by
  rw [bind_apply, hx]
  simp only [hf]

/-- The first part fails, and nothing follows. -/
theorem bind_of_error {x : Prog ε ev α} {f : α → Prog ε ev β} {h t : List ev} {e : ε}
    (hx : x h = (.error e, t)) : (x >>= f) h = (.error e, t) := by
  rw [bind_apply, hx]

/-- The identity changes nothing about a program. -/
theorem id_map (x : Prog ε ev α) : id <$> x = x := by
  funext h
  match hx : x h with
  | (.ok a, t) => exact (bind_of_ok hx rfl).trans (by rw [List.append_nil, id])
  | (.error e, t) => exact bind_of_error hx

/-- An end with a value is neutral. -/
theorem pure_bind (a : α) (f : α → Prog ε ev β) : pure a >>= f = f a := by
  funext h
  show ((f a (h ++ [])).1, [] ++ (f a (h ++ [])).2) = f a h
  rw [List.append_nil, List.nil_append]

/-- Sequencing is associative. -/
theorem bind_assoc {γ : Type} (x : Prog ε ev α) (f : α → Prog ε ev β) (g : β → Prog ε ev γ) :
    x >>= f >>= g = x >>= fun a => f a >>= g := by
  funext h
  match hx : x h with
  | (.error e, t) => rw [bind_of_error hx, bind_of_error (bind_of_error hx)]
  | (.ok a, t) =>
      match hf : f a (h ++ t) with
      | (.error e, t') =>
          rw [bind_of_error (bind_of_ok hx hf), bind_of_ok hx (bind_of_error hf)]
      | (.ok b, t') =>
          rw [bind_of_ok (bind_of_ok hx hf) rfl, bind_of_ok hx (bind_of_ok hf rfl),
            List.append_assoc, List.append_assoc]

instance : LawfulMonad (Prog ε ev) := LawfulMonad.mk' _ id_map pure_bind bind_assoc

/-- **The run of a sequence divides**: the first part fails, or it ends with a value and the
second part runs behind its events. -/
theorem bind_inv {x : Prog ε ev α} {f : α → Prog ε ev β} {h t : List ev} {r : Except ε β}
    (heq : (x >>= f) h = (r, t)) :
    (∃ e, r = .error e ∧ x h = (.error e, t)) ∨
      ∃ a t₁ t₂, x h = (.ok a, t₁) ∧ f a (h ++ t₁) = (r, t₂) ∧ t = t₁ ++ t₂ := by
  match hx : x h with
  | (.ok a, t₁) =>
      rw [bind_apply, hx] at heq
      obtain ⟨hr, ht⟩ := Prod.mk.inj heq
      exact .inr ⟨a, t₁, _, rfl, Prod.ext hr rfl, ht.symm⟩
  | (.error e, t₁) =>
      rw [bind_of_error hx] at heq
      obtain ⟨rfl, rfl⟩ := Prod.mk.inj heq
      exact .inl ⟨e, rfl, rfl⟩

end Prog

/-! ### Scripts -/

/-- `x` ends with `a` after exactly the events of the script, or with an error after some of
them and, in the place of the next one, its failed counterpart: `Fails e e' err` says that
`e'` is what is left of `e` when it fails, with error `err`. -/
def Follows (Fails : ev → ev → ε → Prop) (x : Prog ε ev α) (a : α) (script : List ev) : Prop :=
  ∀ h, x h = (.ok a, script) ∨
    ∃ pre e post e' err, script = pre ++ e :: post ∧ Fails e e' err ∧
      x h = (.error err, pre ++ [e'])

variable {Fails : ev → ev → ε → Prop}

/-- A value follows the empty script. -/
theorem follows_pure (a : α) : Follows Fails (pure a) a [] := fun _ => .inl rfl

/-- **Scripts compose.** -/
theorem Follows.bind {x : Prog ε ev α} {f : α → Prog ε ev β} {a : α} {b : β}
    {script script' : List ev} (hx : Follows Fails x a script)
    (hf : Follows Fails (f a) b script') : Follows Fails (x >>= f) b (script ++ script') := by
  intro h
  rcases hx h with hx | ⟨pre, e, post, e', err, rfl, hfail, hx⟩
  · rcases hf (h ++ script) with hf | ⟨pre, e, post, e', err, rfl, hfail, hf⟩
    · exact .inl (Prog.bind_of_ok hx hf)
    · exact .inr ⟨script ++ pre, e, post, e', err, by simp, hfail, by
        rw [Prog.bind_of_ok hx hf, List.append_assoc]⟩
  · exact .inr ⟨pre, e, post ++ script', e', err, by simp, hfail, Prog.bind_of_error hx⟩

/-! ### Guards -/

/-- Each of the events `t` satisfies `φ`, given the history before it; the run has the
history `h` behind it. -/
def GuardsFrom (φ : List ev → ev → Prop) (h t : List ev) : Prop :=
  ∀ pre e post, t = pre ++ e :: post → φ (h ++ pre) e

variable {φ : List ev → ev → Prop}

/-- Without events there is nothing to guard. -/
@[simp] theorem guardsFrom_nil (h : List ev) : GuardsFrom φ h [] := by
  intro pre e post heq
  simp at heq

/-- The first event is guarded behind the history, and the rest behind it. -/
@[simp] theorem guardsFrom_cons {h t : List ev} {e : ev} :
    GuardsFrom φ h (e :: t) ↔ φ h e ∧ GuardsFrom φ (h ++ [e]) t := by
  constructor
  · intro hg
    refine ⟨by simpa using hg [] e t rfl, ?_⟩
    intro pre e' post heq
    have := hg (e :: pre) e' post (by rw [heq]; rfl)
    rwa [List.append_cons] at this
  · rintro ⟨he, hg⟩ pre e' post heq
    cases pre with
    | nil =>
        obtain ⟨rfl, -⟩ := List.cons.inj heq
        simpa using he
    | cons e₀ pre =>
        obtain ⟨rfl, htail⟩ := List.cons.inj heq
        rw [List.append_cons]
        exact hg pre e' post htail

/-- **Guards compose.** -/
theorem guardsFrom_append {h t t' : List ev} :
    GuardsFrom φ h (t ++ t') ↔ GuardsFrom φ h t ∧ GuardsFrom φ (h ++ t) t' := by
  induction t generalizing h with
  | nil => simp
  | cons e t ih => simp [ih, and_assoc]

/-- Guards that hold of each event whatever has happened before. -/
theorem guardsFrom_of_forall {h t : List ev} (hall : ∀ h', ∀ e ∈ t, φ h' e) :
    GuardsFrom φ h t := by
  intro pre e post heq
  exact hall _ e (by rw [heq]; exact List.mem_append_right _ List.mem_cons_self)

/-- Guards that agree on each event of a run hold of it together. -/
theorem guardsFrom_congr {ψ : List ev → ev → Prop} {h t : List ev}
    (heq : GuardsFrom (fun h e => φ h e ↔ ψ h e) h t) :
    GuardsFrom φ h t ↔ GuardsFrom ψ h t := by
  constructor
  · intro hg pre e post ht
    exact (heq pre e post ht).mp (hg pre e post ht)
  · intro hg pre e post ht
    exact (heq pre e post ht).mpr (hg pre e post ht)

instance decidableGuardsFrom [∀ h, DecidablePred (φ h)] :
    ∀ h t : List ev, Decidable (GuardsFrom φ h t)
  | h, [] => isTrue (guardsFrom_nil h)
  | h, e :: t =>
      have := decidableGuardsFrom (h ++ [e]) t
      decidable_of_iff _ guardsFrom_cons.symm

/-- A failed call satisfies the guards its successful counterpart does. -/
theorem GuardsFrom.fail {h pre post : List ev} {e e' : ev}
    (hg : GuardsFrom φ h (pre ++ e :: post)) (hfail : φ (h ++ pre) e → φ (h ++ pre) e') :
    GuardsFrom φ h (pre ++ [e']) := by
  rw [guardsFrom_append, guardsFrom_cons] at hg
  rw [guardsFrom_append, guardsFrom_cons]
  exact ⟨hg.1, hfail hg.2.1, guardsFrom_nil _⟩

/-! ### The events since one of a kind -/

/-- The events since the last one that satisfies `p`; all of them, if none does. -/
def since (p : ev → Bool) (h : List ev) : List ev :=
  h.foldl (fun acc e => if p e then [] else acc ++ [e]) []

variable {p : ev → Bool}

/-- Events of another kind are added. -/
theorem since_append {h t : List ev} (ht : ∀ e ∈ t, p e = false) :
    since p (h ++ t) = since p h ++ t := by
  induction t generalizing h with
  | nil => simp
  | cons e t ih =>
      have he : since p (h ++ [e]) = since p h ++ [e] := by
        simp [since, List.foldl_append, ht e List.mem_cons_self]
      rw [List.append_cons, ih fun e' h' => ht e' (List.mem_cons_of_mem e h'), he]
      simp

/-- An event of the kind starts over. -/
theorem since_hit {h t : List ev} {e : ev} (he : p e = true) (ht : ∀ e ∈ t, p e = false) :
    since p (h ++ e :: t) = t := by
  have hhit : since p (h ++ [e]) = [] := by simp [since, List.foldl_append, he]
  rw [List.append_cons, since_append ht, hhit, List.nil_append]

/-- What has happened before an event of the kind does not matter. -/
theorem since_append_of_any {h t : List ev} (ht : t.any p = true) :
    since p (h ++ t) = since p t := by
  have hfold : ∀ (t : List ev) (acc acc' : List ev), t.any p = true →
      t.foldl (fun acc e => if p e then [] else acc ++ [e]) acc =
        t.foldl (fun acc e => if p e then [] else acc ++ [e]) acc' := by
    intro t
    induction t with
    | nil => exact fun _ _ hbad => by cases hbad
    | cons e t ih =>
        intro acc acc' hany
        rw [List.foldl_cons, List.foldl_cons]
        by_cases he : p e = true
        · rw [if_pos he, if_pos he]
        · exact ih _ _ (by simpa [he] using hany)
  rw [since, since, List.foldl_append]
  exact hfold t _ _ ht

/-! ### Words of a stream -/

/-- The words occur in the stream one behind the other, without overlap and in order. -/
def InOrder : List (List α) → List α → Prop
  | [], _ => True
  | w :: ws, s => ∃ a b, s = a ++ w ++ b ∧ InOrder ws b

/-- Words lie in a longer stream, too. -/
theorem InOrder.append {ws : List (List α)} {s : List α} (h : InOrder ws s) (t : List α) :
    InOrder ws (s ++ t) := by
  induction ws generalizing s with
  | nil => trivial
  | cons w ws ih =>
      obtain ⟨a, b, rfl, hb⟩ := h
      exact ⟨a, b ++ t, by simp, ih hb⟩

/-- **A further word behind the stream** so far lies in the longer stream. -/
theorem InOrder.concat {ws : List (List α)} {s : List α} (h : InOrder ws s) (d w : List α) :
    InOrder (ws ++ [w]) (s ++ d ++ w) := by
  induction ws generalizing s with
  | nil => exact ⟨s ++ d, [], by simp, trivial⟩
  | cons w' ws ih =>
      obtain ⟨a, b, rfl, hb⟩ := h
      exact ⟨a, b ++ d ++ w, by simp, ih hb⟩

end Traced
