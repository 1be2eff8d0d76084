import Mathlib

/-!
# Binary search

`lowerBound p xs` is the binary search of `std::lower_bound`, where `p x` says that the element `x`
is below the value that is searched for. On a list that is not partitioned by `p`, the result is
not the first element that is not below the value. But whatever the list, the element before the
result is below the value (`exists_of_lowerBound_pos`), and the one at the result is not
(`not_of_lowerBound_eq`).
-/

namespace Redpanda.Lib

variable {α : Type*} (p : α → Bool) (xs : List α)

/-- The loop of the search, from an index and over a number of elements. Each iteration is left with
    fewer elements, so as many iterations as there are elements are enough. -/
def lowerBoundLoop : Nat → Nat → Nat → Nat
  | 0, first, _ => first
  | fuel + 1, first, len =>
    if len = 0 then first
    else if xs[first + len / 2]?.any p then
      lowerBoundLoop fuel (first + len / 2 + 1) (len - len / 2 - 1)
    else lowerBoundLoop fuel first (len / 2)

/-- The index that the search finds, which is the length of the list if all elements are below. -/
def lowerBound : Nat :=
  lowerBoundLoop p xs xs.length 0 xs.length

variable {p xs}

/-- The search returns the index it starts from, or one after an element below the value. -/
theorem lowerBoundLoop_eq_or_exists (fuel first len : Nat) :
    lowerBoundLoop p xs fuel first len = first ∨
      ∃ i x, lowerBoundLoop p xs fuel first len = i + 1 ∧ xs[i]? = some x ∧ p x := by
  induction fuel generalizing first len with
  | zero => exact .inl rfl
  | succ fuel ih =>
    rw [lowerBoundLoop]
    split_ifs with hlen hmid
    · exact .inl rfl
    · obtain ⟨x, hx, hp⟩ := (Option.any_eq_true _ _).1 hmid
      rcases ih (first + len / 2 + 1) (len - len / 2 - 1) with heq | hexists
      · exact .inr ⟨first + len / 2, x, heq, hx, hp⟩
      · exact .inr hexists
    · exact ih first (len / 2)

/-- The element before the result is below the value. -/
theorem exists_of_lowerBound_pos (h : 0 < lowerBound p xs) :
    ∃ i x, lowerBound p xs = i + 1 ∧ xs[i]? = some x ∧ p x := by
  rcases lowerBoundLoop_eq_or_exists (p := p) (xs.length) 0 xs.length with heq | hexists
  · exact absurd heq (Nat.ne_of_gt h)
  · exact hexists

/-- The search ends where it may end at the latest, or at an element that is not below the value. -/
theorem lowerBoundLoop_eq_or_not (fuel first len : Nat) (hlen : len ≤ fuel) :
    lowerBoundLoop p xs fuel first len = first + len ∨
      ¬ xs[lowerBoundLoop p xs fuel first len]?.any p := by
  induction fuel generalizing first len with
  | zero => exact .inl (by rw [lowerBoundLoop]; omega)
  | succ fuel ih =>
    rw [lowerBoundLoop]
    split_ifs with hzero hmid
    · exact .inl (by omega)
    · exact (ih _ _ (by omega)).imp_left fun heq => by omega
    · rcases ih first (len / 2) (by omega) with heq | hnot
      · exact .inr (heq ▸ hmid)
      · exact .inr hnot

/-- The element that is found is not below the value. -/
theorem not_of_lowerBound_eq {i : Nat} {x : α} (h : lowerBound p xs = i) (hx : xs[i]? = some x) :
    ¬ p x := by
  obtain ⟨hi, -⟩ := List.getElem?_eq_some_iff.1 hx
  have hnot : lowerBound p xs = 0 + xs.length ∨ ¬ xs[lowerBound p xs]?.any p :=
    lowerBoundLoop_eq_or_not _ _ _ Nat.le.refl
  rw [h, hx, Option.any_some] at hnot
  exact hnot.resolve_left (by omega)

/-- On a list that is partitioned, the search finds where the second part begins. -/
theorem lowerBound_append {ys : List α} (h : ∀ x ∈ xs, p x) (h' : ∀ y ∈ ys, ¬ p y) :
    lowerBound p (xs ++ ys) = xs.length := by
  rcases lt_trichotomy (lowerBound p (xs ++ ys)) xs.length with hlt | heq | hgt
  · have hx : (xs ++ ys)[lowerBound p (xs ++ ys)]? = some (xs.get ⟨_, hlt⟩) := by
      rw [List.getElem?_append_left hlt]
      exact List.getElem?_eq_getElem hlt
    exact absurd (h _ (List.get_mem _ _)) (not_of_lowerBound_eq rfl hx)
  · exact heq
  · obtain ⟨i, x, heq, hx, hp⟩ := exists_of_lowerBound_pos (Nat.zero_lt_of_lt hgt)
    rw [List.getElem?_append_right (by omega)] at hx
    exact absurd hp (h' x (List.mem_of_getElem? hx))

end Redpanda.Lib
