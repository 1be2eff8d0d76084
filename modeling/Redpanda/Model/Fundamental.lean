import Mathlib

/-!
# Offsets

The arithmetic of `kafka::offset` and `model::offset`. Both are 64 bit integers,
here unbounded ones, with the functions below made for the ends of their range: the
offset after the largest one is itself, and there is none before zero.
-/

namespace Redpanda.Model

namespace Offset

/-- `offset::max()`. -/
def max : Int := 2 ^ 63 - 1

/-- `offset::min()`, which is also the value of `offset{}`. -/
def min : Int := -2 ^ 63

end Offset

/-- `next_offset`. -/
def nextOffset (o : Int) : Int :=
  if o < 0 then 0 else if o = Offset.max then Offset.max else o + 1

/-- `prev_offset`. -/
def prevOffset (o : Int) : Int :=
  if o ≤ 0 then Offset.min else o - 1

variable {o : Int}

theorem nextOffset_eq (h : -1 ≤ o) (h' : o < Offset.max) : nextOffset o = o + 1 := by
  simp only [nextOffset]
  split_ifs <;> omega

theorem le_nextOffset (o : Int) : o ≤ nextOffset o := by
  simp only [nextOffset]
  split_ifs <;> omega

theorem lt_nextOffset (h : o < Offset.max) : o < nextOffset o := by
  simp only [nextOffset]
  split_ifs <;> omega

theorem nextOffset_nonneg (o : Int) : 0 ≤ nextOffset o := by
  simp only [nextOffset, Offset.max]
  split_ifs <;> omega

theorem nextOffset_le_max (h : o ≤ Offset.max) : nextOffset o ≤ Offset.max := by
  simp only [nextOffset, Offset.max] at h ⊢
  split_ifs <;> omega

theorem nextOffset_mono {o' : Int} (h : o ≤ o') : nextOffset o ≤ nextOffset o' := by
  simp only [nextOffset, Offset.max]
  split_ifs <;> omega

theorem prevOffset_eq (h : 0 < o) : prevOffset o = o - 1 :=
  if_neg h.not_ge

end Redpanda.Model
