import Mathlib

/-!
# Lists in order

Of two elements of a list in order, one comes before the other (`eq_or_rel_of_pairwise`), the
first one with a property before all others that have it (`eq_or_rel_of_find?`), and the last
one behind all others (`eq_or_rel_of_getLast?`). A predicate that holds up to some element
splits the list as a filter does (`takeWhile_eq_filter`, `dropWhile_eq_filter`). What holds of a
list with a new last element is said of the list and the element (`forall_mem_concat`,
`pairwise_concat`).
-/

namespace Redpanda.Lib

open List

variable {α : Type*} {R : α → α → Prop} {l : List α} {a b : α}

theorem mem_concat : b ∈ l ++ [a] ↔ b ∈ l ∨ b = a := by
  rw [mem_append, mem_singleton]

theorem forall_mem_concat {p : α → Prop} : (∀ b ∈ l ++ [a], p b) ↔ (∀ b ∈ l, p b) ∧ p a := by
  rw [forall_mem_append, forall_mem_singleton]

theorem pairwise_concat : (l ++ [a]).Pairwise R ↔ l.Pairwise R ∧ ∀ b ∈ l, R b a := by
  simp [pairwise_append]

theorem exists_find?_eq_some {p : α → Bool} (ha : a ∈ l) (hp : p a) : ∃ b, l.find? p = some b :=
  Option.isSome_iff_exists.1 (find?_isSome.2 ⟨a, ha, hp⟩)

theorem exists_getLast?_eq_some (ha : a ∈ l) : ∃ b, l.getLast? = some b :=
  Option.isSome_iff_exists.1 (getLast?_isSome.2 (ne_nil_of_mem ha))

variable (hl : l.Pairwise R)

include hl

/-- Two elements are the same, or related in one of the two orders. -/
theorem eq_or_rel_of_pairwise (ha : a ∈ l) (hb : b ∈ l) : a = b ∨ R a b ∨ R b a := by
  obtain ⟨s, t, rfl⟩ := append_of_mem ha
  obtain ⟨-, ht, hs⟩ := pairwise_append.1 hl
  rcases mem_append.1 hb with hb | hb
  · exact .inr (.inr (hs b hb a mem_cons_self))
  · exact (mem_cons.1 hb).imp Eq.symm fun hb => .inl (rel_of_pairwise_cons ht hb)

/-- What is found first comes before all others that could have been found. -/
theorem eq_or_rel_of_find? {p : α → Bool} (ha : l.find? p = some a) (hb : b ∈ l) (hp : p b) :
    b = a ∨ R a b := by
  obtain ⟨-, s, t, rfl, hs⟩ := find?_eq_some_iff_append.1 ha
  rcases mem_append.1 hb with hb | hb
  · exact absurd hp (by simpa using hs b hb)
  · exact (mem_cons.1 hb).imp_right fun hb => rel_of_pairwise_cons (pairwise_append.1 hl).2.1 hb

/-- The last element comes behind all others. -/
theorem eq_or_rel_of_getLast? (ha : l.getLast? = some a) (hb : b ∈ l) : b = a ∨ R b a := by
  obtain ⟨s, rfl⟩ := getLast?_eq_some_iff.1 ha
  exact (mem_concat.1 hb).symm.imp_right ((pairwise_concat.1 hl).2 b)

omit hl

variable {p : α → Bool} (h : l.Pairwise fun x y => p y = true → p x = true)

include h

/-- If a predicate does not come back, its elements stand at the front. -/
theorem takeWhile_eq_filter : l.takeWhile p = l.filter p := by
  induction l with
  | nil => rfl
  | cons x l ih =>
    rw [pairwise_cons] at h
    by_cases hx : p x = true
    · rw [takeWhile_cons_of_pos hx, filter_cons_of_pos hx, ih h.2]
    · rw [takeWhile_cons_of_neg hx, filter_cons_of_neg hx]
      exact (filter_eq_nil_iff.2 fun y hy hpy => hx (h.1 y hy hpy)).symm

theorem dropWhile_eq_filter : l.dropWhile p = l.filter (fun x => !p x) := by
  induction l with
  | nil => rfl
  | cons x l ih =>
    rw [pairwise_cons] at h
    by_cases hx : p x = true
    · rw [dropWhile_cons_of_pos hx, filter_cons_of_neg (by simp [hx]), ih h.2]
    · rw [dropWhile_cons_of_neg hx]
      refine (filter_eq_self.2 (forall_mem_cons.2 ⟨by simp [hx], fun y hy => ?_⟩)).symm
      have : p y ≠ true := fun hpy => hx (h.1 y hy hpy)
      simpa using this

end Redpanda.Lib
