import Mathlib

/-!
# Majorities of a list

A predicate is satisfied by a *majority* of a list if more than half of the
entries of the list satisfy it, repeated entries counting as often as they
occur. Two majorities of the same list meet (`IsMajority.exists_mem`), and so
do majorities of two lists one of which has a single entry more
(`IsMajority.exists_mem_append_singleton`).
-/

namespace Redpanda.Lib

variable {α : Type*} {p q : α → Bool} {l : List α}

/-- More than half of the entries of `l` satisfy `p`. -/
def IsMajority (p : α → Bool) (l : List α) : Prop :=
  l.length / 2 + 1 ≤ l.countP p
  deriving Decidable

/-- Entries satisfying `p` and entries satisfying `q` are at most all the
    entries, those satisfying both counted twice. -/
theorem countP_add_countP_le (p q : α → Bool) (l : List α) :
    l.countP p + l.countP q ≤ l.length + l.countP fun a => p a && q a := by
  induction l with
  | nil => simp
  | cons a l ih =>
    simp only [List.countP_cons, List.length_cons]
    cases p a <;> cases q a <;> simp <;> omega

/-- Two predicates satisfied by more entries than there are share an entry. -/
theorem exists_mem_of_length_lt (h : l.length < l.countP p + l.countP q) : ∃ a ∈ l, p a ∧ q a := by
  have hle := countP_add_countP_le p q l
  have hpos : 0 < l.countP fun a => p a && q a := by omega
  obtain ⟨a, ha, hpq⟩ := List.countP_pos_iff.1 hpos
  exact ⟨a, ha, by simpa using hpq⟩

/-- Two majorities of the same list meet. -/
theorem IsMajority.exists_mem (hp : IsMajority p l) (hq : IsMajority q l) : ∃ a ∈ l, p a ∧ q a := by
  unfold IsMajority at hp hq
  exact exists_mem_of_length_lt (by omega)

/-- A majority of a list meets every majority of the list with one more entry. -/
theorem IsMajority.exists_mem_append_singleton {b : α} (hp : IsMajority p l)
    (hq : IsMajority q (l ++ [b])) : ∃ a ∈ l ++ [b], p a ∧ q a := by
  unfold IsMajority at hp hq
  refine exists_mem_of_length_lt ?_
  rw [List.countP_append]
  simp only [List.length_append, List.length_cons, List.length_nil] at hq ⊢
  omega

end Redpanda.Lib
