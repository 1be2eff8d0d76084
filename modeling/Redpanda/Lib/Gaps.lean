import Redpanda.Lib.Pairwise

/-!
# Gaps

Some integers above a bound are missing, in the intervals `Gap` of an ascending list. The integers
that are left are numbered consecutively: `rank` maps an integer to its number, which for a missing
one is the number of the next integer that is left, and `select` maps a number to the integer.

* `countBelow` counts the missing integers below one (`card_covered`), and
  `rank o = o - countBelow o`;
* `not_covers_select` and `rank_select`: `select` gives an integer that is left, and with the
  right number;
* `select_rank`: and every integer that is left is given.
-/

namespace Redpanda.Lib

open List

/-- The integers from `base` to `last`. -/
structure Gap where
  base : Int
  last : Int
  deriving DecidableEq

variable (g : Gap) (gs gs' : List Gap) (o : Int)

namespace Gap

/-- How many integers there are. -/
def length : Int := g.last - g.base + 1

/-- How many of the integers are below one. -/
def below : Int := max 0 (min o (g.last + 1) - g.base)

/-- The integer is in the gap. -/
def Covers : Prop := g.base ≤ o ∧ o ≤ g.last
  deriving Decidable

variable {g o}

theorem below_of_le (h : o ≤ g.base) : g.below o = 0 := by
  rw [below]
  omega

theorem below_of_lt (hg : g.base ≤ g.last) (h : g.last < o) : g.below o = g.length := by
  rw [below, length]
  omega

theorem last_lt_add_length (h : g.base ≤ o) : g.last < o + g.length := by
  rw [length]
  omega

end Gap

/-- Gaps above `b`, one after the other. -/
def Ascending : Int → List Gap → Prop
  | _, [] => True
  | b, g :: gs => b < g.base ∧ g.base ≤ g.last ∧ Ascending g.last gs

/-- How many of the missing integers are below one. -/
def countBelow : Int := (gs.map (·.below o)).sum

/-- How many integers are missing. -/
def totalLength : Int := (gs.map Gap.length).sum

/-- The number of an integer. -/
def rank : Int := o - countBelow gs o

/-- The integer with a number. -/
def select : List Gap → Int → Int
  | [], d => d
  | g :: gs, d => if d < g.base then d else select gs (d + g.length)

/-- The upper end of the last gap, or the bound if there is none. -/
def lastOf (b : Int) : List Gap → Int
  | [] => b
  | g :: gs => lastOf g.last gs

@[simp]
theorem countBelow_nil : countBelow [] o = 0 := rfl

@[simp]
theorem countBelow_cons : countBelow (g :: gs) o = g.below o + countBelow gs o := by
  simp [countBelow]

theorem countBelow_append : countBelow (gs ++ gs') o = countBelow gs o + countBelow gs' o := by
  simp [countBelow]

@[simp]
theorem totalLength_nil : totalLength [] = 0 := rfl

@[simp]
theorem totalLength_cons : totalLength (g :: gs) = g.length + totalLength gs := by
  simp [totalLength]

/-! ## Ascending gaps -/

variable {b d : Int} {g gs gs' o}

namespace Ascending

section

variable (h : Ascending b gs)

include h

/-- Only the first gap matters for the bound. -/
theorem of_lt_base {b' : Int} (hlt : ∀ g ∈ gs, b' < g.base) : Ascending b' gs := by
  cases gs with
  | nil => trivial
  | cons g gs => exact ⟨hlt g mem_cons_self, h.2⟩

theorem base_le_last : ∀ g ∈ gs, g.base ≤ g.last := by
  induction gs generalizing b with
  | nil => exact nofun
  | cons g gs ih => exact forall_mem_cons.2 ⟨h.2.1, ih h.2.2⟩

theorem lt_base : ∀ g ∈ gs, b < g.base := by
  induction gs generalizing b with
  | nil => exact nofun
  | cons g gs ih =>
    exact forall_mem_cons.2 ⟨h.1, fun g' hg' => (h.1.trans_le h.2.1).trans (ih h.2.2 g' hg')⟩

theorem mono {b' : Int} (hb : b' ≤ b) : Ascending b' gs :=
  h.of_lt_base fun g hg => hb.trans_lt (h.lt_base g hg)

theorem lt_last : ∀ g ∈ gs, b < g.last := fun g hg =>
  (h.lt_base g hg).trans_le (h.base_le_last g hg)

theorem le_lastOf : b ≤ lastOf b gs := by
  induction gs generalizing b with
  | nil => exact le_rfl
  | cons g gs ih => exact (h.lt_last g mem_cons_self).le.trans (ih h.2.2)

theorem last_le_lastOf : ∀ g ∈ gs, g.last ≤ lastOf b gs := by
  induction gs generalizing b with
  | nil => exact nofun
  | cons g gs ih => exact forall_mem_cons.2 ⟨h.2.2.le_lastOf, ih h.2.2⟩

end

theorem lastOf_lt (hb : b < o) (h : ∀ g ∈ gs, g.last < o) : lastOf b gs < o := by
  induction gs generalizing b with
  | nil => exact hb
  | cons g gs ih =>
    exact ih (h g mem_cons_self) (forall_mem_cons.1 h).2

/-- What comes after a list of gaps begins above the last one. -/
theorem append_iff : Ascending b (gs ++ gs') ↔ Ascending b gs ∧ Ascending (lastOf b gs) gs' := by
  induction gs generalizing b with
  | nil => simp [Ascending, lastOf]
  | cons g gs ih => simp [Ascending, lastOf, ih, and_assoc]

variable (h : Ascending b gs)

include h

theorem concat (hg : lastOf b gs < g.base) (hle : g.base ≤ g.last) : Ascending b (gs ++ [g]) :=
  append_iff.2 ⟨h, hg, hle, trivial⟩

/-- Gaps may be left out. -/
theorem sublist (hsub : gs'.Sublist gs) : Ascending b gs' := by
  induction hsub generalizing b with
  | slnil => trivial
  | cons g _ ih => exact (ih h.2.2).mono (h.lt_last g mem_cons_self).le
  | cons_cons g _ ih => exact ⟨h.1, h.2.1, ih h.2.2⟩

theorem filter (p : Gap → Bool) : Ascending b (gs.filter p) :=
  h.sublist filter_sublist

/-- Each gap ends before the later ones begin. -/
theorem pairwise : gs.Pairwise fun g g' => g.last < g'.base ∧ g.last < g'.last := by
  induction gs generalizing b with
  | nil => exact .nil
  | cons g gs ih =>
    exact pairwise_cons.2
      ⟨fun g' hg' => ⟨h.2.2.lt_base g' hg', h.2.2.lt_last g' hg'⟩, ih h.2.2⟩

/-- Two gaps are the same or one is above the other. -/
theorem last_le_or_lt_base {g' : Gap} (hg : g ∈ gs) (hg' : g' ∈ gs) :
    g'.last ≤ g.last ∨ g.last < g'.base := by
  obtain rfl | hlt | hlt := eq_or_rel_of_pairwise h.pairwise hg hg'
  · exact .inl le_rfl
  · exact .inr hlt.1
  · exact .inl hlt.2.le

/-- The gaps which are not after a bound are the first ones. -/
theorem pairwise_lt (o : Int) :
    gs.Pairwise fun g g' => decide (g'.last < o) = true → decide (g.last < o) = true :=
  h.pairwise.imp fun hlt => by simpa using hlt.2.trans

theorem takeWhile_eq_filter (o : Int) : gs.takeWhile (·.last < o) = gs.filter (·.last < o) :=
  Lib.takeWhile_eq_filter (h.pairwise_lt o)

theorem dropWhile_eq_filter (o : Int) : gs.dropWhile (·.last < o) = gs.filter (o ≤ ·.last) := by
  rw [Lib.dropWhile_eq_filter (h.pairwise_lt o)]
  exact filter_congr fun g _ => by simp [← decide_not]

end Ascending

/-- Two filters in a row are one. -/
theorem filter_filter_eq {p q r : Gap → Prop} [DecidablePred p] [DecidablePred q]
    [DecidablePred r] (h : ∀ g ∈ gs, q g ∧ p g ↔ r g) :
    (gs.filter (p ·)).filter (q ·) = gs.filter (r ·) := by
  rw [filter_filter]
  exact filter_congr fun g hg => by rw [← Bool.decide_and, decide_eq_decide, h g hg]

/-! ## Counting -/

theorem countBelow_nonneg (gs : List Gap) (o : Int) : 0 ≤ countBelow gs o :=
  sum_nonneg (forall_mem_map.2 fun _ _ => le_max_left _ _)

/-- Nothing is missing below the gaps. -/
theorem countBelow_eq_zero (h : ∀ g ∈ gs, o ≤ g.base) : countBelow gs o = 0 :=
  sum_eq_zero (forall_mem_map.2 fun g hg => Gap.below_of_le (h g hg))

section

variable (h : Ascending b gs)

include h

/-- All is missing above them. -/
theorem countBelow_eq_totalLength (hlt : ∀ g ∈ gs, g.last < o) : countBelow gs o = totalLength gs :=
  congrArg List.sum (map_congr_left fun g hg => Gap.below_of_lt (h.base_le_last g hg) (hlt g hg))

omit h in
/-- No gap after the first one counts for an integer that is not above the first. -/
theorem countBelow_cons_of_le (h : Ascending b (g :: gs)) (ho : o ≤ g.last) :
    countBelow (g :: gs) o = max 0 (o - g.base) := by
  have hzero : countBelow gs o = 0 := countBelow_eq_zero fun g' hg' => by
    have := h.2.2.lt_base g' hg'
    omega
  rw [countBelow_cons, hzero, Gap.below]
  omega

/-- There are not more missing integers than integers. -/
theorem countBelow_le (ho : b < o) : countBelow gs o ≤ o - b - 1 := by
  induction gs generalizing b with
  | nil =>
    rw [countBelow_nil]
    omega
  | cons g gs ih =>
    have hb := h.1
    rcases lt_or_ge g.last o with hlast | hlast
    · have ih := ih h.2.2 hlast
      rw [countBelow_cons, Gap.below_of_lt h.2.1 hlast, Gap.length]
      omega
    · rw [countBelow_cons_of_le h hlast]
      omega

/-- `countBelow` counts. -/
theorem card_covered (hb : -1 ≤ b) (o : Int) :
    (((Finset.Ico 0 o).filter fun i => ∃ g ∈ gs, g.Covers i).card : Int) = countBelow gs o := by
  induction gs generalizing b with
  | nil => simp
  | cons g gs ih =>
    have hbase := h.1
    have hlast := h.2.1
    have hcovers : (Finset.Ico 0 o).filter g.Covers = Finset.Ico g.base (min o (g.last + 1)) := by
      ext i
      simp only [Finset.mem_filter, Finset.mem_Ico, Gap.Covers]
      omega
    have hdisjoint : Disjoint ((Finset.Ico 0 o).filter g.Covers)
        ((Finset.Ico 0 o).filter fun i => ∃ g' ∈ gs, g'.Covers i) := by
      refine Finset.disjoint_filter.2 fun i _ hc ⟨g', hg', hc'⟩ => ?_
      exact (hc.2.trans_lt (h.2.2.lt_base g' hg')).not_ge hc'.1
    simp only [exists_mem_cons_iff, Finset.filter_or]
    rw [Finset.card_union_of_disjoint hdisjoint, hcovers, Nat.cast_add, ih h.2.2 (by omega),
      Int.card_Ico, countBelow_cons, Gap.below]
    omega

theorem totalLength_nonneg : 0 ≤ totalLength gs := by
  refine sum_nonneg (forall_mem_map.2 fun g hg => ?_)
  have := h.base_le_last g hg
  rw [Gap.length]
  omega

/-- The gaps below and above an integer, one after the other. -/
theorem Ascending.filter_append_filter (o : Int) :
    gs.filter (·.last < o) ++ gs.filter (o ≤ ·.last) = gs := by
  rw [← h.takeWhile_eq_filter, ← h.dropWhile_eq_filter, takeWhile_append_dropWhile]

/-- The gaps below an integer count in full. -/
theorem countBelow_eq_add (o : Int) :
    countBelow gs o = totalLength (gs.filter (·.last < o)) +
      countBelow (gs.filter (o ≤ ·.last)) o := by
  have hlt : ∀ g ∈ gs.filter (·.last < o), g.last < o := fun g hg => by
    simpa using (mem_filter.1 hg).2
  rw [← countBelow_eq_totalLength (h.filter _) hlt, ← countBelow_append, h.filter_append_filter]

end

theorem sum_filter_add (f : Gap → Int) (p : Gap → Bool) (gs : List Gap) :
    ((gs.filter p).map f).sum + ((gs.filter (!p ·)).map f).sum = (gs.map f).sum := by
  simpa using ((filter_append_perm p gs).map f).sum_eq

/-- If no gap has an integer inside, those that do not end below are above. -/
theorem le_base_of_mem_filter (hgs : ∀ g ∈ gs, g.last < o ∨ o ≤ g.base) :
    ∀ g ∈ gs.filter (o ≤ ·.last), o ≤ g.base := by
  intro g hg
  obtain ⟨hg, hle⟩ := mem_filter.1 hg
  exact (hgs g hg).resolve_left (not_lt.2 (of_decide_eq_true hle))

/-- If no gap has an integer inside, those below count in full. -/
theorem countBelow_eq_filter (h : Ascending b gs) (hgs : ∀ g ∈ gs, g.last < o ∨ o ≤ g.base) :
    countBelow gs o = totalLength (gs.filter (·.last < o)) := by
  rw [countBelow_eq_add h o, countBelow_eq_zero (le_base_of_mem_filter hgs), add_zero]

/-- Gaps from the offset on do not count. -/
theorem countBelow_filter (p : Gap → Bool) (h : ∀ g ∈ gs, p g = false → o ≤ g.base) :
    countBelow (gs.filter p) o = countBelow gs o := by
  have hzero : countBelow (gs.filter (!p ·)) o = 0 := countBelow_eq_zero fun g hg => by
    obtain ⟨hg, hp⟩ := mem_filter.1 hg
    exact h g hg (Bool.not_eq_true' _ ▸ hp)
  have hsum := sum_filter_add (·.below o) p gs
  rwa [← countBelow, ← countBelow, ← countBelow, hzero, add_zero] at hsum

/-- At an integer that no gap has inside, the gaps below and above are counted apart. -/
theorem countBelow_split {c : Int} (h : ∀ g ∈ gs, g.base ≤ g.last ∧ (g.last ≤ c ∨ c < g.base))
    (ho : c < o) :
    countBelow gs o = countBelow gs (c + 1) + countBelow (gs.filter (c < ·.base)) o := by
  induction gs with
  | nil => rfl
  | cons g gs ih =>
    have ih := ih (forall_mem_cons.1 h).2
    have hg := h g mem_cons_self
    rw [filter_cons]
    split_ifs with hbase <;> simp only [countBelow_cons, ih, Gap.below] <;>
      simp only [decide_eq_true_eq] at hbase <;> omega

/-! ## Rank and select -/

section

variable (h : Ascending b gs)

include h

/-- The offset that is found is above the bound. -/
theorem lt_select (hd : b < d) : b < select gs d := by
  induction gs generalizing b d with
  | nil => exact hd
  | cons g gs ih =>
    rw [select]
    split
    · exact hd
    · have := h.1
      have := h.2.1
      have := ih h.2.2 (d := d + g.length) (Gap.last_lt_add_length (by omega))
      omega

/-- The offset that is found is in no gap. -/
theorem not_covers_select (hd : b < d) : ∀ g ∈ gs, ¬ g.Covers (select gs d) := by
  induction gs generalizing b d with
  | nil => exact nofun
  | cons g gs ih =>
    intro g' hg' hc
    rw [select] at hc
    split at hc
    · rename_i hlt
      -- the first gap is above `d`, and so are the others
      rcases mem_cons.1 hg' with rfl | hg'
      · exact hc.1.not_gt hlt
      · have := h.2.2.lt_base g' hg'
        have := h.2.1
        have := hc.1
        omega
    · have hlt : g.last < d + g.length := Gap.last_lt_add_length (by omega)
      rcases mem_cons.1 hg' with rfl | hg'
      · exact hc.2.not_gt (lt_select h.2.2 hlt)
      · exact ih h.2.2 hlt g' hg' hc

/-- The offset that is found has the given rank. -/
theorem rank_select (hd : b < d) : rank gs (select gs d) = d := by
  rw [rank]
  induction gs generalizing b d with
  | nil => rw [select, countBelow_nil, sub_zero]
  | cons g gs ih =>
    rw [select]
    split
    · rename_i hlt
      rw [countBelow_cons_of_le h (hlt.le.trans h.2.1)]
      omega
    · have hlt : g.last < d + g.length := Gap.last_lt_add_length (by omega)
      have ih := ih h.2.2 hlt
      rw [countBelow_cons, Gap.below_of_lt h.2.1 (lt_select h.2.2 hlt)]
      omega

/-- An offset in no gap is found by its rank. -/
theorem select_rank (ho : ∀ g ∈ gs, ¬ g.Covers o) : select gs (rank gs o) = o := by
  rw [rank]
  induction gs generalizing b with
  | nil => rw [select, countBelow_nil, sub_zero]
  | cons g gs ih =>
    rcases lt_or_ge o g.base with hlt | hge
    · have hzero : countBelow (g :: gs) o = 0 := by
        rw [countBelow_cons_of_le h (hlt.le.trans h.2.1)]
        omega
      rw [hzero, sub_zero, select, if_pos hlt]
    · have hlast : g.last < o := by
        by_contra hle
        exact ho g mem_cons_self ⟨hge, by omega⟩
      have ih := ih h.2.2 (forall_mem_cons.1 ho).2
      rw [countBelow_cons, Gap.below_of_lt h.2.1 hlast, select, if_neg, ← sub_sub, sub_right_comm,
        sub_add_cancel, ih]
      -- the number is still at least the base, as `select` is above the gap
      intro hlt
      have : countBelow gs o ≤ o - g.last - 1 := countBelow_le h.2.2 hlast
      rw [Gap.length] at hlt
      omega

/-- The search may begin after some gaps. -/
theorem select_filter {s : Int} (hs : s ≤ select gs d) :
    select (gs.filter (s ≤ ·.last)) (d + totalLength (gs.filter (·.last < s))) = select gs d := by
  rw [← h.takeWhile_eq_filter, ← h.dropWhile_eq_filter]
  induction gs generalizing b d with
  | nil => simp
  | cons g gs ih =>
    by_cases hg : g.last < s
    · rw [dropWhile_cons_of_pos (by simpa using hg),
        takeWhile_cons_of_pos (by simpa using hg), totalLength_cons, ← add_assoc]
      rw [select] at hs ⊢
      split at hs
      · have := h.2.1
        omega
      · rename_i hd
        rw [if_neg hd]
        exact ih h.2.2 hs
    · rw [dropWhile_cons_of_neg (by simpa using hg),
        takeWhile_cons_of_neg (by simpa using hg), totalLength_nil, add_zero]

end

end Redpanda.Lib
