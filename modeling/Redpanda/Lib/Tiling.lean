import Mathlib

/-!
# Tilings of ranges of integers

Pieces stand for the integers from their base to their last one, both included.
The pieces of a set *tile* the range from `start` to (below) `stop` if each integer
of the range is in exactly one of them and each piece ends inside the range. The
first piece may begin below the range.

A tiling is a property of the set of pieces, so that operations on it are operations
on sets: putting tilings next to each other (`Tiling.union`), taking away what ends
below a new start (`Tiling.truncate`), and replacing pieces by others that cover the
same integers (`Tiling.replace`). For a list of pieces in the order of their bases it
means that each piece begins right after the one before (`Tiling.isChain`).
-/

namespace Redpanda.Lib

open List

variable {E : Type*} (base last : E → Int)

/-- The pieces of `S` tile the range from `start` to below `stop`. -/
structure Tiling (start stop : Int) (S : Set E) : Prop where
  start_le_stop : start ≤ stop
  base_le_last : ∀ x ∈ S, base x ≤ last x
  start_le_last : ∀ x ∈ S, start ≤ last x
  last_lt_stop : ∀ x ∈ S, last x < stop
  disjoint : ∀ x ∈ S, ∀ y ∈ S, x ≠ y → last x < base y ∨ last y < base x
  covers : ∀ o, start ≤ o → o < stop → ∃ x ∈ S, base x ≤ o ∧ o ≤ last x

/-- Each piece of a list begins right after the one before, the first one at `start`
    and the last one ending right before `stop`. -/
def Consecutive : Int → List E → Int → Prop
  | start, [], stop => start = stop
  | start, x :: l, stop => base x = start ∧ base x ≤ last x ∧ Consecutive (last x + 1) l stop

variable {base last} {start stop : Int} {S T : Set E}

namespace Tiling

/-- Two pieces with a common integer are the same. -/
theorem eq_of_mem (h : Tiling base last start stop S) {x y : E} (hx : x ∈ S) (hy : y ∈ S)
    {o : Int} (hxo : base x ≤ o ∧ o ≤ last x) (hyo : base y ≤ o ∧ o ≤ last y) : x = y := by
  by_contra hne
  have := h.disjoint x hx y hy hne
  omega

theorem empty (start : Int) : Tiling base last start start (∅ : Set E) where
  start_le_stop := le_rfl
  base_le_last _ hx := hx.elim
  start_le_last _ hx := hx.elim
  last_lt_stop _ hx := hx.elim
  disjoint _ hx := hx.elim
  covers _ h h' := absurd h' h.not_gt

theorem start_eq_stop (h : Tiling base last start stop (∅ : Set E)) : start = stop := by
  by_contra hne
  have := h.start_le_stop
  obtain ⟨x, hx, -⟩ := h.covers start le_rfl (by omega)
  exact hx

/-- Tilings of adjacent ranges, where the pieces of the second begin inside its range. -/
theorem union {mid : Int} (hS : Tiling base last start mid S) (hT : Tiling base last mid stop T)
    (hbase : ∀ x ∈ T, mid ≤ base x) : Tiling base last start stop (S ∪ T) where
  start_le_stop := hS.start_le_stop.trans hT.start_le_stop
  base_le_last x hx := hx.elim (hS.base_le_last x) (hT.base_le_last x)
  start_le_last x hx :=
    hx.elim (hS.start_le_last x) fun hx => hS.start_le_stop.trans (hT.start_le_last x hx)
  last_lt_stop x hx :=
    hx.elim (fun hx => (hS.last_lt_stop x hx).trans_le hT.start_le_stop) (hT.last_lt_stop x)
  disjoint := by
    rintro x (hx | hx) y (hy | hy) hne
    · exact hS.disjoint x hx y hy hne
    · exact .inl ((hS.last_lt_stop x hx).trans_le (hbase y hy))
    · exact .inr ((hS.last_lt_stop y hy).trans_le (hbase x hx))
    · exact hT.disjoint x hx y hy hne
  covers o ho ho' := by
    rcases lt_or_ge o mid with hmid | hmid
    · obtain ⟨x, hx, hxo⟩ := hS.covers o ho hmid
      exact ⟨x, .inl hx, hxo⟩
    · obtain ⟨x, hx, hxo⟩ := hT.covers o hmid ho'
      exact ⟨x, .inr hx, hxo⟩

/-- Raising the start, without the pieces that end below it. -/
theorem truncate (h : Tiling base last start stop S) {start' : Int} (hle : start ≤ start')
    (hle' : start' ≤ stop) : Tiling base last start' stop {x ∈ S | start' ≤ last x} where
  start_le_stop := hle'
  base_le_last x hx := h.base_le_last x hx.1
  start_le_last x hx := hx.2
  last_lt_stop x hx := h.last_lt_stop x hx.1
  disjoint x hx y hy := h.disjoint x hx.1 y hy.1
  covers o ho ho' := by
    obtain ⟨x, hx, hxo⟩ := h.covers o (hle.trans ho) ho'
    exact ⟨x, ⟨hx, ho.trans hxo.2⟩, hxo⟩

section

variable (h : Tiling base last start stop S) {R N : Set E} (hR : R ⊆ S)
  (hN : ∀ x ∈ N, base x ≤ last x ∧ start ≤ last x)
  (hcovers : ∀ o, start ≤ o →
    ((∃ x ∈ R, base x ≤ o ∧ o ≤ last x) ↔ ∃ x ∈ N, base x ≤ o ∧ o ≤ last x))

include h hR hN hcovers

/-- Pieces that cover the same integers from the start on as some of a tiling are apart
    from the others of the tiling. -/
theorem disjoint_of_covers : ∀ x ∈ S \ R, ∀ y ∈ N, last x < base y ∨ last y < base x := by
  intro x hx y hy
  by_contra hover
  push Not at hover
  -- they would share an integer that is not below the start
  obtain ⟨o, hxo, hyo, ho⟩ : ∃ o, (base x ≤ o ∧ o ≤ last x) ∧ (base y ≤ o ∧ o ≤ last y) ∧
      start ≤ o := by
    refine ⟨min (last x) (last y), ?_, ?_, ?_⟩
    · exact ⟨le_min (h.base_le_last x hx.1) hover.2, min_le_left _ _⟩
    · exact ⟨le_min hover.1 (hN y hy).1, min_le_right _ _⟩
    · exact le_min (h.start_le_last x hx.1) (hN y hy).2
  obtain ⟨z, hz, hzo⟩ := (hcovers o ho).2 ⟨y, hy, hyo⟩
  exact hx.2 (h.eq_of_mem hx.1 (hR hz) hxo hzo ▸ hz)

/-- Replacing some pieces by others, which reach the start and cover the same integers
    from the start on. -/
theorem replace (hdisjoint : ∀ x ∈ N, ∀ y ∈ N, x ≠ y → last x < base y ∨ last y < base x) :
    Tiling base last start stop (S \ R ∪ N) := by
  have hcross := h.disjoint_of_covers hR hN hcovers
  refine ⟨h.start_le_stop, ?_, ?_, ?_, ?_, ?_⟩
  · rintro x (hx | hx)
    · exact h.base_le_last x hx.1
    · exact (hN x hx).1
  · rintro x (hx | hx)
    · exact h.start_le_last x hx.1
    · exact (hN x hx).2
  · rintro x (hx | hx)
    · exact h.last_lt_stop x hx.1
    · obtain ⟨z, hz, hzo⟩ := (hcovers _ (hN x hx).2).2 ⟨x, hx, (hN x hx).1, le_rfl⟩
      exact hzo.2.trans_lt (h.last_lt_stop z (hR hz))
  · rintro x (hx | hx) y (hy | hy) hne
    · exact h.disjoint x hx.1 y hy.1 hne
    · exact hcross x hx y hy
    · exact (hcross y hy x hx).symm
    · exact hdisjoint x hx y hy hne
  · intro o ho ho'
    obtain ⟨x, hx, hxo⟩ := h.covers o ho ho'
    by_cases hxR : x ∈ R
    · obtain ⟨y, hy, hyo⟩ := (hcovers o ho).1 ⟨x, hxR, hxo⟩
      exact ⟨y, .inr hy, hyo⟩
    · exact ⟨x, .inl ⟨hx, hxR⟩, hxo⟩

end

/-- The pieces from one to another cover the integers between their ends. -/
theorem covers_between (h : Tiling base last start stop S) {x₀ x₁ : E} (h₀ : x₀ ∈ S)
    (h₁ : x₁ ∈ S) (o : Int) :
    (∃ x ∈ S, (base x₀ ≤ base x ∧ base x ≤ base x₁) ∧ base x ≤ o ∧ o ≤ last x) ↔
      base x₀ ≤ o ∧ o ≤ last x₁ := by
  have hle₁ := h.base_le_last x₁ h₁
  constructor
  · rintro ⟨x, hx, hbetween, hxo⟩
    refine ⟨hbetween.1.trans hxo.1, ?_⟩
    by_cases hx₁ : x = x₁
    · exact hx₁ ▸ hxo.2
    · have := h.disjoint x hx x₁ h₁ hx₁
      omega
  · rintro ⟨ho, ho'⟩
    obtain ⟨x, hx, hxo⟩ : ∃ x ∈ S, base x ≤ o ∧ o ≤ last x := by
      rcases le_or_gt start o with hstart | hstart
      · exact h.covers o hstart (ho'.trans_lt (h.last_lt_stop x₁ h₁))
      · exact ⟨x₀, h₀, ho, hstart.le.trans (h.start_le_last x₀ h₀)⟩
    refine ⟨x, hx, ⟨?_, ?_⟩, hxo⟩
    · by_cases hx₀ : x = x₀
      · exact hx₀ ▸ le_rfl
      · have := h.disjoint x hx x₀ h₀ hx₀
        have := h.base_le_last x₀ h₀
        omega
    · by_cases hx₁ : x = x₁
      · exact hx₁ ▸ le_rfl
      · have := h.disjoint x hx x₁ h₁ hx₁
        omega

/-- A piece with no other piece between it and an earlier one begins right after that. -/
theorem base_eq_last_add_one (h : Tiling base last start stop S) {x y : E} (hx : x ∈ S)
    (hy : y ∈ S) (hlt : base x < base y)
    (hbetween : ∀ z ∈ S, base z ≤ base x ∨ base y ≤ base z) : base y = last x + 1 := by
  have hdisjoint := h.disjoint x hx y hy fun heq => by simp [heq] at hlt
  have hle := h.base_le_last y hy
  by_contra hgap
  -- an integer between the two pieces would be in a piece between them
  obtain ⟨z, hz, hzo⟩ := h.covers (last x + 1) (by have := h.start_le_last x hx; omega)
    (by have := h.last_lt_stop y hy; omega)
  have := hbetween z hz
  by_cases hzx : z = x
  · rw [hzx] at hzo
    omega
  · have := h.disjoint z hz x hx hzx
    have := h.base_le_last x hx
    omega

end Tiling

/-! ## Lists of pieces -/

namespace Consecutive

variable {l : List E}

section

variable (h : Consecutive base last start l stop)

include h

theorem start_le_base : ∀ x ∈ l, start ≤ base x := by
  induction l generalizing start with
  | nil => exact nofun
  | cons y l ih =>
    obtain ⟨hbase, hle, h⟩ := h
    refine forall_mem_cons.2 ⟨hbase.ge, fun x hx => ?_⟩
    have := ih h x hx
    omega

/-- Consecutive pieces are different. -/
theorem nodup : l.Nodup := by
  induction l generalizing start with
  | nil => exact .nil
  | cons x l ih =>
    refine nodup_cons.2 ⟨fun hx => ?_, ih h.2.2⟩
    have := h.2.2.start_le_base x hx
    have := h.2.1
    omega

/-- Consecutive pieces tile the range between their ends. -/
theorem tiling : Tiling base last start stop {x | x ∈ l} := by
  induction l generalizing start with
  | nil =>
    obtain rfl : start = stop := h
    simpa using Tiling.empty start
  | cons y l ih =>
    obtain ⟨rfl, hle, h⟩ := h
    have hy : Tiling base last (base y) (last y + 1) {y} := by
      refine ⟨by omega, ?_, ?_, ?_, ?_, fun o ho ho' => ⟨y, rfl, ho, by omega⟩⟩
      · rintro x rfl
        exact hle
      · rintro x rfl
        exact hle
      · rintro x rfl
        omega
      · rintro x rfl z rfl hne
        exact absurd rfl hne
    convert hy.union (ih h) h.start_le_base using 1
    ext x
    simp

theorem start_le_stop : start ≤ stop :=
  h.tiling.start_le_stop

theorem base_le_last : ∀ x ∈ l, base x ≤ last x :=
  h.tiling.base_le_last

theorem start_le_last : ∀ x ∈ l, start ≤ last x :=
  h.tiling.start_le_last

theorem last_lt_stop : ∀ x ∈ l, last x < stop :=
  h.tiling.last_lt_stop

theorem filter_lt_eq_nil {o : Int} (ho : o ≤ start) : l.filter (last · < o) = [] :=
  filter_eq_nil_iff.2 fun x hx => by simpa using ho.trans (h.start_le_last x hx)

end

theorem append {mid : Int} {l' : List E} (h : Consecutive base last start l mid)
    (h' : Consecutive base last mid l' stop) : Consecutive base last start (l ++ l') stop := by
  induction l generalizing start with
  | nil =>
    obtain rfl : start = mid := h
    exact h'
  | cons x l ih => exact ⟨h.1, h.2.1, ih h.2.2⟩

/-- Consecutive pieces can be split anywhere. -/
theorem of_append {l' : List E} (h : Consecutive base last start (l ++ l') stop) :
    ∃ mid, Consecutive base last start l mid ∧ Consecutive base last mid l' stop := by
  induction l generalizing start with
  | nil => exact ⟨start, rfl, h⟩
  | cons x l ih =>
    obtain ⟨mid, hl, hl'⟩ := ih h.2.2
    exact ⟨mid, ⟨h.1, h.2.1, hl⟩, hl'⟩

theorem last_add_one_eq (h : Consecutive base last start l stop) {x : E}
    (hx : x ∈ l.getLast?) : last x + 1 = stop := by
  induction l generalizing start with
  | nil => exact absurd hx (Option.not_mem_none x)
  | cons y l ih =>
    rcases l with _ | ⟨z, l⟩
    · obtain rfl : y = x := Option.some.inj hx
      exact h.2.2
    · exact ih h.2.2 hx

/-- Each piece begins right after the one before. -/
theorem isChain (h : Consecutive base last start l stop) :
    l.IsChain (fun x y => base y = last x + 1) := by
  induction l generalizing start with
  | nil => exact .nil
  | cons x l ih =>
    refine isChain_cons.2 ⟨fun y hy => ?_, ih h.2.2⟩
    obtain ⟨l, rfl⟩ := head?_eq_some_iff.1 hy
    exact h.2.2.1

/-- Pieces of a list where each one begins right after the one before are consecutive. -/
theorem exists_of_isChain {x : E}
    (h : (x :: l).IsChain (fun x y => base y = last x + 1)) (hle : ∀ y ∈ x :: l, base y ≤ last y) :
    ∃ stop, Consecutive base last (base x) (x :: l) stop := by
  induction l generalizing x with
  | nil => exact ⟨_, rfl, hle x mem_cons_self, rfl⟩
  | cons y l ih =>
    obtain ⟨hxy, h⟩ := isChain_cons_cons.1 h
    obtain ⟨stop, h⟩ := ih h (forall_mem_cons.1 hle).2
    exact ⟨stop, rfl, hle x mem_cons_self, hxy ▸ h⟩

section

variable (h : Consecutive base last start l stop)

include h

/-- Dropping the pieces at the front up to the one that ends at `o`. -/
theorem dropWhile {x : E} (hx : x ∈ l) :
    Consecutive base last (last x + 1) (l.dropWhile fun y => last y ≤ last x) stop := by
  induction l generalizing start with
  | nil => cases hx
  | cons y l ih =>
    rcases mem_cons.1 hx with rfl | hx
    · -- what follows ends above `o`
      rw [dropWhile_cons_of_pos (by simp)]
      rcases l with _ | ⟨z, l⟩
      · exact h.2.2
      · have hz := h.2.2.1
        have hle := h.2.2.2.1
        rw [dropWhile_cons_of_neg (by simp only [decide_eq_true_eq]; omega)]
        exact h.2.2
    · have := h.2.2.start_le_last x hx
      rw [dropWhile_cons_of_pos (by simp only [decide_eq_true_eq]; omega)]
      exact ih h.2.2 hx

/-- The pieces below an integer which no piece has inside. -/
theorem filter_lt {o : Int}
    (hl : ∀ x ∈ l, last x < o ∨ o ≤ base x) (hstart : start ≤ o) (hstop : o ≤ stop) :
    Consecutive base last start (l.filter (last · < o)) o := by
  induction l generalizing start with
  | nil =>
    obtain rfl : start = stop := h
    exact le_antisymm hstart hstop
  | cons x l ih =>
    rcases hl x mem_cons_self with hx | hx
    · rw [filter_cons_of_pos (by simpa using hx)]
      exact ⟨h.1, h.2.1, ih h.2.2 (forall_mem_cons.1 hl).2 hx⟩
    · -- all the pieces are above
      rw [h.1] at hx
      rw [h.filter_lt_eq_nil hx]
      exact le_antisymm hstart hx

/-- The pieces from an integer on. -/
theorem filter_ge {o : Int} (hstart : start ≤ o) :
    ∃ start' ≤ o, Consecutive base last start' (l.filter (o ≤ last ·)) stop := by
  induction l generalizing start with
  | nil => exact ⟨start, hstart, h⟩
  | cons x l ih =>
    by_cases hx : o ≤ last x
    · have hall : (x :: l).filter (o ≤ last ·) = x :: l := by
        refine filter_eq_self.2 (forall_mem_cons.2 ⟨by simpa using hx, fun y hy => ?_⟩)
        have := h.2.2.start_le_last y hy
        simp only [decide_eq_true_eq]
        omega
      rw [hall]
      exact ⟨start, hstart, h⟩
    · rw [filter_cons_of_neg (by simpa using hx)]
      exact ih h.2.2 (by omega)

/-- The first pieces are those below an integer. -/
theorem take (n : Nat) :
    ∃ o ≤ stop, Consecutive base last start (l.take n) o ∧ l.take n = l.filter (last · < o) ∧
      ∀ x ∈ l, last x < o ∨ o ≤ base x := by
  induction l generalizing start n with
  | nil => exact ⟨stop, le_rfl, by simpa using h, by simp, by simp⟩
  | cons x l ih =>
    cases n with
    | zero =>
      exact ⟨start, h.start_le_stop, rfl, (h.filter_lt_eq_nil le_rfl).symm,
        fun y hy => .inr (h.start_le_base y hy)⟩
    | succ n =>
      obtain ⟨o, ho, htake, heq, hl⟩ := ih h.2.2 n
      have hx : last x < o := htake.start_le_stop
      refine ⟨o, ho, ⟨h.1, h.2.1, htake⟩, ?_, forall_mem_cons.2 ⟨.inl hx, hl⟩⟩
      rw [take_succ_cons, filter_cons_of_pos (by simpa using hx), heq]

end

end Consecutive

namespace Tiling

/-- In the order of their bases, each piece of a tiling begins right after the one
    before, the first one contains the start, and the last one ends right before the
    stop. -/
theorem isChain {l : List E} (h : Tiling base last start stop {x | x ∈ l})
    (hl : l.Pairwise (base · < base ·)) :
    l.IsChain (fun x y => base y = last x + 1) ∧
      (∀ x ∈ l.head?, base x ≤ start ∧ start ≤ last x) ∧
      (∀ x ∈ l.getLast?, last x + 1 = stop) ∧ (l = [] → start = stop) := by
  refine ⟨?_, fun x hx => ?_, fun x hx => ?_, ?_⟩
  · rw [isChain_iff_getElem]
    intro i hi
    refine h.base_eq_last_add_one (getElem_mem _) (getElem_mem _)
      (pairwise_iff_getElem.1 hl i (i + 1) (by omega) hi (by omega)) fun z hz => ?_
    obtain ⟨j, hj, rfl⟩ := getElem_of_mem hz
    -- no tile stands between two neighbours of the sorted list
    have hmono : ∀ {i j} (hi : i < l.length) (hj : j < l.length), i ≤ j → base l[i] ≤ base l[j] := by
      intro i j hi hj hij
      rcases hij.eq_or_lt with rfl | hij
      · exact le_rfl
      · exact (pairwise_iff_getElem.1 hl i j hi hj hij).le
    rcases Nat.lt_or_ge i j with hij | hij
    · exact .inr (hmono hi hj hij)
    · exact .inl (hmono hj (by omega) hij)
  · obtain ⟨l, rfl⟩ := head?_eq_some_iff.1 hx
    have hlast := h.start_le_last x (by simp)
    refine ⟨?_, hlast⟩
    obtain ⟨z, hz, hzo⟩ := h.covers start le_rfl (hlast.trans_lt (h.last_lt_stop x (by simp)))
    rcases mem_cons.1 hz with rfl | hz
    · exact hzo.1
    · exact ((pairwise_cons.1 hl).1 z hz).le.trans hzo.1
  · obtain ⟨l, rfl⟩ := getLast?_eq_some_iff.1 hx
    have hlast := h.last_lt_stop x (by simp)
    -- otherwise a tile covers the next position and ends behind the last one
    by_contra hne
    obtain ⟨z, hz, hzo⟩ := h.covers (last x + 1) (by have := h.start_le_last x (by simp); omega)
      (by omega)
    have := h.base_le_last x (by simp)
    rcases mem_append.1 hz with hz' | hz'
    · have hlt := (pairwise_append.1 hl).2.2 z hz' x (by simp)
      have := h.disjoint z hz x (by simp) fun heq => by simp [heq] at hlt
      omega
    · rw [mem_singleton.1 hz'] at hzo
      omega
  · rintro rfl
    exact start_eq_stop (by simpa using h)

end Tiling

end Redpanda.Lib
