import Mathlib

/-!
# Runs of a labelled transition system

A transition system is a relation `step s a t`: the label `a` takes the state
`s` to the state `t`. A *run* chains steps, recording the labels; the steps of a
partial function are executed by `List.foldlM` (`Run.of_foldlM`). Invariants
of all runs follow from one step lemma (`Run.invariant_of_labels`), and two relations with
the same steps wherever an invariant holds have the same runs
(`Run.iff_of_invariant`).
-/

namespace Redpanda.Lib

variable {S A : Type*} {step : S → A → S → Prop}

/-- A run from the first state to the last one, with the labels of its steps. -/
inductive Run (step : S → A → S → Prop) : S → List A → S → Prop
  | nil (s : S) : Run step s [] s
  | cons {s t u : S} {a : A} {l : List A} : step s a t → Run step t l u → Run step s (a :: l) u

namespace Run

variable {s t : S} {l : List A} {P : S → Prop} {step' : S → A → S → Prop}

theorem single {a : A} (h : step s a t) : Run step s [a] t :=
  .cons h (.nil t)

theorem imp (hstep : ∀ {s a t}, step s a t → step' s a t)
    (h : Run step s l t) : Run step' s l t := by
  induction h with
  | nil s => exact .nil s
  | cons h _ ih => exact .cons (hstep h) ih

/-- Executing the steps of a partial function is a run. -/
theorem of_foldlM {next : S → A → Option S} (h : l.foldlM next s = some t) :
    Run (fun s a t => next s a = some t) s l t := by
  induction l generalizing s with
  | nil => exact (Option.some.inj h) ▸ .nil s
  | cons a l ih =>
    rw [List.foldlM_cons] at h
    obtain ⟨u, hu, h⟩ := Option.bind_eq_some_iff.1 h
    exact .cons hu (ih h)

section

variable {next : S → A → Option S} {α : Type*} {f : S → α} {a : α}

/-- Executing the steps of a partial function, with what is observed in the end. -/
theorem exists_of_map_foldlM (h : (l.foldlM next s).map f = some a) :
    ∃ t, Run (fun s u t => next s u = some t) s l t ∧ f t = a := by
  obtain ⟨t, ht, hf⟩ := Option.map_eq_some_iff.1 h
  exact ⟨t, of_foldlM ht, hf⟩

/-- Executing the steps of a partial function as long as a condition is met. -/
theorem exists_of_foldlM {P : S → A → Prop} [∀ s, DecidablePred (P s)]
    (h : (l.foldlM (fun s u => if P s u then next s u else none) s).map f = some a) :
    ∃ t, Run (fun s u t => P s u ∧ next s u = some t) s l t ∧ f t = a := by
  obtain ⟨t, hrun, hf⟩ := exists_of_map_foldlM h
  exact ⟨t, hrun.imp fun hstep => Option.ite_none_right_eq_some.1 hstep, hf⟩

end

/-- What holds initially and is preserved by every step with a label in a set holds after
    every run with labels in the set. -/
theorem invariant_of_labels {Q : A → Prop} (hstep : ∀ {s a t}, P s → Q a → step s a t → P t)
    (h : Run step s l t) (hl : ∀ a ∈ l, Q a) (hs : P s) : P t := by
  induction h with
  | nil s => exact hs
  | cons h _ ih =>
    rw [List.forall_mem_cons] at hl
    exact ih hl.2 (hstep hs hl.1 h)

/-- What holds initially and is preserved by every step holds after every run. -/
theorem invariant (hstep : ∀ {s a t}, P s → step s a t → P t) (h : Run step s l t) (hs : P s) :
    P t :=
  h.invariant_of_labels (Q := fun _ => True) (fun hs _ h => hstep hs h) (fun _ _ => trivial) hs

/-- Relations with the same steps from states with an invariant of the steps have
    the same runs from these states. -/
theorem iff_of_invariant
    (hiff : ∀ {s a t}, P s → (step s a t ↔ step' s a t)) (hstep : ∀ {s a t}, P s → step s a t → P t)
    (hs : P s) : Run step s l t ↔ Run step' s l t := by
  constructor
  · intro h
    induction h with
    | nil s => exact .nil s
    | cons h _ ih => exact .cons ((hiff hs).1 h) (ih (hstep hs h))
  · intro h
    induction h with
    | nil s => exact .nil s
    | cons h _ ih =>
      have h' := (hiff hs).2 h
      exact .cons h' (ih (hstep hs h'))

end Run

end Redpanda.Lib
