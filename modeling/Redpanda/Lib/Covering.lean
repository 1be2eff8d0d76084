import Redpanda.Lib.Pairwise
import Redpanda.Lib.Tiling

/-!
# Inserting a piece over those it covers

Pieces stand for the integers from their base to their last one. A list keeps *separated* pieces
in their order, and a new piece takes the place of the pieces that lie inside it
(`insertCovering`). If it *cuts* a piece of the list, with one of its ends inside it, the list is
not separated any more (`Separated.not_cuts`); otherwise the new list has exactly the pieces
beside the new one (`Separated.insertCovering_eq`). What was covered by the pieces stays covered
in any case (`exists_mem_insertCovering`).

Consecutive pieces stay so if the new one also touches their range
(`Consecutive.insertCovering`).
-/

namespace Redpanda.Lib

open List

variable {E : Type*}

/-! ## Separated pieces -/

variable (base last : E → Int)

/-- Pieces in their order, none of which is empty. -/
structure Separated (l : List E) : Prop where
  base_le_last : ∀ x ∈ l, base x ≤ last x
  pairwise : l.Pairwise fun x y => last x < base y

/-- An end of the first piece is inside the second one, which is not covered by the first. -/
def Cuts (x y : E) : Prop :=
  base y < base x ∧ base x ≤ last y ∨ base y ≤ last x ∧ last x < last y
  deriving Decidable

/-- A new piece, in the place of those it covers. -/
def insertCovering (x : E) (l : List E) : List E :=
  l.takeWhile (base · < base x) ++ x :: (l.dropWhile (base · < base x)).dropWhile fun y =>
    base x ≤ base y ∧ last y ≤ last x

variable {l : List E} {x y : E}

/-- The pieces of a list that a new one covers. -/
def covered (x : E) (l : List E) : List E :=
  (l.dropWhile (base · < base x)).takeWhile fun y => base x ≤ base y ∧ last y ≤ last x

/-- A new piece leaves what is before and what is after the pieces it covers. -/
theorem exists_insertCovering_eq (x : E) (l : List E) :
    ∃ pre post, l = pre ++ covered base last x l ++ post ∧
      insertCovering base last x l = pre ++ x :: post := by
  refine ⟨l.takeWhile (base · < base x), _, ?_, rfl⟩
  rw [covered, append_assoc, takeWhile_append_dropWhile, takeWhile_append_dropWhile]

theorem covered_sublist (x : E) (l : List E) : (covered base last x l).Sublist l :=
  (takeWhile_sublist _).trans (dropWhile_sublist _)

variable {base last}

theorem covers_of_mem_covered (hy : y ∈ covered base last x l) :
    base x ≤ base y ∧ last y ≤ last x := by
  simpa using mem_takeWhile_imp hy

theorem mem_of_mem_covered (hy : y ∈ covered base last x l) : y ∈ l :=
  (covered_sublist base last x l).subset hy

theorem mem_of_mem_insertCovering (h : y ∈ insertCovering base last x l) : y = x ∨ y ∈ l := by
  obtain ⟨pre, post, hl, hinsert⟩ := exists_insertCovering_eq base last x l
  rw [hinsert] at h
  rw [hl]
  simp only [mem_append, mem_cons] at h ⊢
  rcases h with h | rfl | h
  · exact .inr (.inl (.inl h))
  · exact .inl rfl
  · exact .inr (.inr h)

/-- What is covered by a piece stays covered. -/
theorem exists_mem_insertCovering {o : Int} (h : ∃ y ∈ l, base y ≤ o ∧ o ≤ last y) :
    ∃ y ∈ insertCovering base last x l, base y ≤ o ∧ o ≤ last y := by
  obtain ⟨y, hy, ho⟩ := h
  obtain ⟨pre, post, hl, hinsert⟩ := exists_insertCovering_eq base last x l
  rw [hl, mem_append, mem_append] at hy
  rw [hinsert]
  obtain (hy | hy) | hy := hy
  · exact ⟨y, by simp [hy], ho⟩
  · have := covers_of_mem_covered hy
    exact ⟨x, by simp, by omega, by omega⟩
  · exact ⟨y, by simp [hy], ho⟩

/-- Sums over the pieces change by the new piece and the covered ones. -/
theorem sum_insertCovering (base last : E → Int) (f : E → Nat) (x : E) (l : List E) :
    ((insertCovering base last x l).map f).sum + ((covered base last x l).map f).sum =
      (l.map f).sum + f x := by
  obtain ⟨pre, post, hl, hinsert⟩ := exists_insertCovering_eq base last x l
  rw [hinsert, congrArg (fun l => (l.map f).sum) hl]
  simp only [map_append, map_cons, sum_append, sum_cons]
  omega

namespace Separated

theorem nil : Separated base last ([] : List E) :=
  ⟨nofun, .nil⟩

section

variable (h : Separated base last l)

include h

theorem sublist {l' : List E} (hl : l'.Sublist l) : Separated base last l' :=
  ⟨fun x hx => h.base_le_last x (hl.subset hx), h.pairwise.sublist hl⟩

theorem pairwise_base : l.Pairwise (base · < base ·) := by
  refine h.pairwise.imp_of_mem fun hx _ hlt => ?_
  have := h.base_le_last _ hx
  omega

theorem lt_or_lt {y : E} (hx : x ∈ l) (hy : y ∈ l) (hne : x ≠ y) :
    last x < base y ∨ last y < base x :=
  (eq_or_rel_of_pairwise h.pairwise hx hy).resolve_left hne

/-- Pieces with the same base are the same. -/
theorem eq_of_base_eq {y : E} (hx : x ∈ l) (hy : y ∈ l) (heq : base x = base y) : x = y := by
  by_contra hne
  have := h.base_le_last x hx
  have := h.base_le_last y hy
  have := h.lt_or_lt hx hy hne
  omega

/-- A new piece that cuts none takes the place of the pieces not beside it. -/
theorem insertCovering_eq (hx : base x ≤ last x) (hcut : ∀ y ∈ l, ¬ Cuts base last x y) :
    insertCovering base last x l =
      l.filter (last · < base x) ++ x :: l.filter (last x < base ·) := by
  have hbefore : l.Pairwise fun y z =>
      decide (base z < base x) = true → decide (base y < base x) = true := by
    refine h.pairwise_base.imp fun hlt => ?_
    simp only [decide_eq_true_eq]
    omega
  rw [insertCovering, takeWhile_eq_filter hbefore, dropWhile_eq_filter hbefore]
  have hinside : (l.filter fun y => !decide (base y < base x)).Pairwise fun y z =>
      decide (base x ≤ base z ∧ last z ≤ last x) = true →
        decide (base x ≤ base y ∧ last y ≤ last x) = true := by
    refine (h.pairwise.filter _).imp_of_mem fun hy hz hlt => ?_
    have := h.base_le_last _ (mem_filter.1 hz).1
    have := (mem_filter.1 hy).2
    simp only [Bool.not_eq_true', decide_eq_false_iff_not, decide_eq_true_eq] at this ⊢
    omega
  rw [dropWhile_eq_filter hinside, filter_filter]
  congr 1
  · refine filter_congr fun y hy => ?_
    have := h.base_le_last y hy
    have := hcut y hy
    simp only [Cuts, decide_eq_decide] at this ⊢
    omega
  · refine congrArg _ (filter_congr fun y hy => ?_)
    have := h.base_le_last y hy
    have := hcut y hy
    rw [Cuts] at this
    rw [Bool.eq_iff_iff]
    simp only [Bool.and_eq_true, Bool.not_eq_true', decide_eq_false_iff_not, decide_eq_true_eq]
    omega

/-- A new piece that cuts none leaves the pieces separated. -/
theorem insertCovering (hx : base x ≤ last x) (hcut : ∀ y ∈ l, ¬ Cuts base last x y) :
    Separated base last (Lib.insertCovering base last x l) := by
  refine ⟨fun y hy => ?_, ?_⟩
  · rcases mem_of_mem_insertCovering hy with rfl | hy
    · exact hx
    · exact h.base_le_last y hy
  · rw [h.insertCovering_eq hx hcut, pairwise_append, pairwise_cons]
    refine ⟨h.pairwise.filter _, ⟨fun y hy => ?_, h.pairwise.filter _⟩, fun y hy z hz => ?_⟩
    · simpa using (mem_filter.1 hy).2
    · have hy : last y < base x := by simpa using (mem_filter.1 hy).2
      rcases mem_cons.1 hz with rfl | hz
      · exact hy
      · have hz : last x < base z := by simpa using (mem_filter.1 hz).2
        omega

end

/-- A new piece that leaves the pieces separated cuts none. -/
theorem not_cuts (h : Separated base last (Lib.insertCovering base last x l)) :
    ∀ y ∈ l, ¬ Cuts base last x y := by
  obtain ⟨pre, post, hl, hinsert⟩ := exists_insertCovering_eq base last x l
  have hpairwise := h.pairwise
  rw [hinsert, pairwise_append, pairwise_cons] at hpairwise
  obtain ⟨-, ⟨hpost, -⟩, hpre⟩ := hpairwise
  have hx := h.base_le_last x (by simp [hinsert])
  intro y hy
  rw [hl, mem_append, mem_append] at hy
  rw [Cuts]
  obtain (hy | hy) | hy := hy
  · have := hpre y hy x mem_cons_self
    omega
  · have := covers_of_mem_covered hy
    omega
  · have := hpost y hy
    have := h.base_le_last y (by simp [hinsert, hy])
    omega

end Separated

/-! ## Consecutive pieces -/

namespace Consecutive

variable {start stop : Int} (h : Consecutive base last start l stop)

include h

theorem separated : Separated base last l := by
  refine ⟨h.base_le_last, ?_⟩
  induction l generalizing start with
  | nil => exact .nil
  | cons x l ih =>
    refine pairwise_cons.2 ⟨fun y hy => ?_, ih h.2.2⟩
    have := h.2.2.start_le_base y hy
    omega

/-- The pieces from an integer on which no piece has inside. -/
theorem filter_le_base {o : Int}
    (hl : ∀ x ∈ l, last x < o ∨ o ≤ base x) (hstart : start ≤ o) (hstop : o ≤ stop) :
    Consecutive base last o (l.filter (o ≤ base ·)) stop := by
  induction l generalizing start with
  | nil =>
    obtain rfl : start = stop := h
    exact le_antisymm hstop hstart
  | cons x l ih =>
    rcases hl x mem_cons_self with hx | hx
    · have := h.2.1
      rw [filter_cons_of_neg (by simp only [decide_eq_true_eq]; omega)]
      exact ih h.2.2 (forall_mem_cons.1 hl).2 hx
    · -- all the pieces are above
      have hall : (x :: l).filter (o ≤ base ·) = x :: l := by
        refine filter_eq_self.2 fun y hy => ?_
        have := h.start_le_base y hy
        have := h.1
        simp only [decide_eq_true_eq]
        omega
      rw [hall]
      exact le_antisymm (h.1 ▸ hx) hstart ▸ h

/-- A new piece that cuts none and touches the range of the pieces leaves them consecutive. -/
theorem insertCovering (hx : base x ≤ last x)
    (hcut : ∀ y ∈ l, ¬ Cuts base last x y) (hstop : base x ≤ stop) (hstart : start ≤ last x + 1) :
    Consecutive base last (min start (base x)) (Lib.insertCovering base last x l)
      (max stop (last x + 1)) := by
  rw [h.separated.insertCovering_eq hx hcut]
  have hpre : Consecutive base last (min start (base x)) (l.filter (last · < base x)) (base x) := by
    by_cases hle : start ≤ base x
    · rw [min_eq_left hle]
      refine h.filter_lt (fun y hy => ?_) hle hstop
      have := hcut y hy
      rw [Cuts] at this
      omega
    · rw [min_eq_right (by omega), h.filter_lt_eq_nil (by omega)]
      rfl
  refine hpre.append ⟨rfl, hx, ?_⟩
  by_cases hle : last x + 1 ≤ stop
  · rw [max_eq_left hle]
    refine h.filter_le_base (fun y hy => ?_) hstart hle
    have := hcut y hy
    rw [Cuts] at this
    omega
  · rw [max_eq_right (by omega), filter_eq_nil_iff.2]
    · rfl
    · intro y hy
      have := h.last_lt_stop y hy
      have := h.base_le_last y hy
      simp only [decide_eq_true_eq]
      omega

end Consecutive

end Redpanda.Lib
