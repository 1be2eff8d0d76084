import Redpanda.Lib.Pairwise

/-!
# Interval sets

The container `interval_set`: a sorted map from the starts of intervals to their
(exclusive) ends, in which intervals that overlap or touch are merged. Its invariant
is part of the type (`IntervalSet`): the intervals are non-empty, in order, and there
is a gap between any two of them. An insertion adds exactly the integers of the
inserted interval (`IntervalSet.mem_insert`).
-/

namespace Redpanda.Container

open Lib List

/-- Intervals in order, none of them empty, with gaps between them. -/
structure Separated (l : List (Int × Int)) : Prop where
  nonempty : ∀ i ∈ l, i.1 < i.2
  gaps : l.Pairwise fun i j => i.2 < j.1

/-- An integer is in one of the intervals. -/
def Covered (l : List (Int × Int)) (p : Int) : Prop :=
  ∃ i ∈ l, i.1 ≤ p ∧ p < i.2

/-- `interval_set::merge_right`: the interval from `start` to `stop` followed by others,
    those reached by it merged into it. -/
def mergeRight (start stop : Int) : List (Int × Int) → List (Int × Int)
  | [] => [(start, stop)]
  | (s, e) :: rest =>
    if s ≤ stop then mergeRight start (max e stop) rest else (start, stop) :: (s, e) :: rest

/-- The end of `interval_set::insert`, where no interval begins at `start`: merging with
    the interval before, if that reaches `start`. -/
def insertBetween (before : List (Int × Int)) (start stop : Int) (rest : List (Int × Int)) :
    List (Int × Int) :=
  match before.getLast? with
  | some (s, e) =>
    if start ≤ e then before.dropLast ++ mergeRight s (max stop e) rest
    else before ++ mergeRight start stop rest
  | none => mergeRight start stop rest

/-- `interval_set::insert` of a non-empty interval. -/
def insertInterval (l : List (Int × Int)) (start stop : Int) : List (Int × Int) :=
  let before := l.filter (·.1 < start)
  match l.filter (start ≤ ·.1) with
  | [] => insertBetween before start stop []
  | (s, e) :: rest =>
    if s = start then before ++ mergeRight s (max stop e) rest
    else insertBetween before start stop ((s, e) :: rest)

variable {l m : List (Int × Int)} {start stop p : Int}

theorem covered_append : Covered (l ++ m) p ↔ Covered l p ∨ Covered m p := by
  simp only [Covered, mem_append, or_and_right, exists_or]

theorem covered_cons {i : Int × Int} : Covered (i :: l) p ↔ (i.1 ≤ p ∧ p < i.2) ∨ Covered l p := by
  simp only [Covered, mem_cons, or_and_right, exists_or, exists_eq_left]

@[simp]
theorem not_covered_nil : ¬ Covered [] p := by
  simp [Covered]

namespace Separated

theorem nil : Separated [] :=
  ⟨nofun, .nil⟩

theorem sublist (hl : Separated l) (h : m <+ l) : Separated m :=
  ⟨fun i hi => hl.nonempty i (h.subset hi), hl.gaps.sublist h⟩

theorem tail {i : Int × Int} (h : Separated (i :: l)) : Separated l :=
  h.sublist (sublist_cons_self i l)

theorem append (hl : Separated l) (hm : Separated m) (h : ∀ i ∈ l, ∀ j ∈ m, i.2 < j.1) :
    Separated (l ++ m) :=
  ⟨fun i hi => (mem_append.1 hi).elim (hl.nonempty i) (hm.nonempty i),
    pairwise_append.2 ⟨hl.gaps, hm.gaps, h⟩⟩

/-- An integer is in one interval at most, or just behind it. -/
theorem eq_of_le {i j : Int × Int} (hl : Separated l) (hi : i ∈ l) (hj : j ∈ l)
    (hip : i.1 ≤ p ∧ p ≤ i.2) (hjp : j.1 ≤ p ∧ p ≤ j.2) : i = j := by
  obtain heq | hlt | hlt := eq_or_rel_of_pairwise hl.gaps hi hj
  · exact heq
  · omega
  · omega

/-- The intervals cannot be extended. -/
theorem not_covered {i : Int × Int} (hl : Separated l) (hi : i ∈ l) :
    ¬ Covered l (i.1 - 1) ∧ ¬ Covered l i.2 := by
  have hlt := hl.nonempty i hi
  refine ⟨fun ⟨j, hj, hle, hlt'⟩ => ?_, fun ⟨j, hj, hle, hlt'⟩ => ?_⟩
  · obtain rfl := hl.eq_of_le (p := i.1) hi hj (by omega) (by omega)
    omega
  · obtain rfl := hl.eq_of_le hi hj ⟨hlt.le, le_rfl⟩ ⟨hle, hlt'.le⟩
    omega

end Separated

/-! ## Merging and inserting -/

variable {rest : List (Int × Int)}

theorem le_of_mem_mergeRight (hrest : ∀ j ∈ rest, start ≤ j.1) :
    ∀ j ∈ mergeRight start stop rest, start ≤ j.1 := by
  induction rest generalizing stop with
  | nil => simp [mergeRight]
  | cons j rest ih =>
    rw [mergeRight]
    split_ifs
    · exact ih (forall_mem_cons.1 hrest).2
    · exact forall_mem_cons.2 ⟨le_rfl, hrest⟩

theorem separated_mergeRight (h : start < stop) (hrest : Separated rest) :
    Separated (mergeRight start stop rest) := by
  induction rest generalizing stop with
  | nil => exact ⟨by simpa [mergeRight] using h, pairwise_singleton _ _⟩
  | cons i rest ih =>
    obtain ⟨s, e⟩ := i
    rw [mergeRight]
    split_ifs with hs
    · exact ih (h.trans_le (le_max_right _ _)) hrest.tail
    · refine ⟨forall_mem_cons.2 ⟨h, hrest.nonempty⟩,
        pairwise_cons.2 ⟨forall_mem_cons.2 ⟨lt_of_not_ge hs, fun j hj => ?_⟩, hrest.gaps⟩⟩
      have hgap := (pairwise_cons.1 hrest.gaps).1 j hj
      have hlt := hrest.nonempty (s, e) mem_cons_self
      dsimp only at hgap hlt ⊢
      omega

theorem covered_mergeRight (hrest : ∀ j ∈ rest, start ≤ j.1) :
    Covered (mergeRight start stop rest) p ↔ (start ≤ p ∧ p < stop) ∨ Covered rest p := by
  induction rest generalizing stop with
  | nil => simp [mergeRight, Covered]
  | cons i rest ih =>
    obtain ⟨s, e⟩ := i
    have hs : start ≤ s := hrest (s, e) mem_cons_self
    rw [mergeRight]
    split_ifs with h
    · rw [ih (forall_mem_cons.1 hrest).2, covered_cons, ← or_assoc]
      refine or_congr_left ?_
      simp only [lt_max_iff]
      omega
    · exact covered_cons

/-- The parts of an insertion between intervals are as they should be. -/
theorem separated_insertBetween (hl : Separated (l ++ rest))
    (h : start < stop) (hbefore : ∀ i ∈ l, i.1 < start) (hrest : ∀ j ∈ rest, start < j.1) :
    Separated (insertBetween l start stop rest) ∧ ∀ p, Covered (insertBetween l start stop rest) p ↔
        (start ≤ p ∧ p < stop) ∨ Covered (l ++ rest) p := by
  have hsep := hl.sublist (sublist_append_left l rest)
  have hsep' := hl.sublist (sublist_append_right l rest)
  have hle : ∀ j ∈ rest, start ≤ j.1 := fun j hj => (hrest j hj).le
  rw [insertBetween]
  rcases hlast : l.getLast? with - | ⟨s, e⟩
  · obtain rfl := getLast?_eq_none_iff.1 hlast
    exact ⟨separated_mergeRight h hsep', fun p => by simp [covered_mergeRight hle]⟩
  · obtain ⟨l, rfl⟩ := getLast?_eq_some_iff.1 hlast
    have hs : s < start := hbefore (s, e) (by simp)
    have hse : s < e := hsep.nonempty (s, e) (by simp)
    have hl' : ∀ i ∈ l, i.2 < s := fun i hi =>
      (pairwise_append.1 hsep.gaps).2.2 i hi (s, e) (by simp)
    dsimp only
    split_ifs with hmerge
    · -- the interval before is extended
      have hle' : ∀ j ∈ rest, s ≤ j.1 := fun j hj => hs.le.trans (hle j hj)
      rw [dropLast_concat]
      refine ⟨(hsep.sublist (sublist_append_left l _)).append
        (separated_mergeRight (hse.trans_le (le_max_right _ _)) hsep')
        fun i hi j hj => (hl' i hi).trans_le (le_of_mem_mergeRight hle' j hj), fun p => ?_⟩
      simp only [covered_append, covered_mergeRight hle', covered_cons, not_covered_nil, or_false,
        lt_max_iff]
      have : s ≤ p ∧ (p < stop ∨ p < e) ↔ (start ≤ p ∧ p < stop) ∨ (s ≤ p ∧ p < e) := by omega
      simp only [this, or_assoc, or_left_comm]
    · refine ⟨hsep.append (separated_mergeRight h hsep') fun i hi j hj => ?_, fun p => ?_⟩
      · refine lt_of_lt_of_le ?_ (le_of_mem_mergeRight hle j hj)
        rcases mem_append.1 hi with hi | hi
        · exact (hl' i hi).trans hs
        · rw [mem_singleton.1 hi]
          exact lt_of_not_ge hmerge
      · rw [covered_append, covered_mergeRight hle, or_left_comm, ← covered_append]

theorem filter_append_filter (hl : Separated l) (start : Int) :
    l.filter (·.1 < start) ++ l.filter (start ≤ ·.1) = l := by
  have hdown : l.Pairwise fun i j => decide (j.1 < start) = true → decide (i.1 < start) = true :=
    hl.gaps.imp_of_mem fun {i _} hi _ hgap => by
      have := hl.nonempty i hi
      simp only [decide_eq_true_eq]
      omega
  have hdrop := dropWhile_eq_filter hdown
  simp only [← decide_not, not_lt] at hdrop
  rw [← takeWhile_eq_filter hdown, ← hdrop, takeWhile_append_dropWhile]

/-- An insertion keeps the intervals separated, and adds exactly the integers of the
    inserted interval. -/
theorem separated_insertInterval (hl : Separated l) (h : start < stop) :
    Separated (insertInterval l start stop) ∧
      ∀ p, Covered (insertInterval l start stop) p ↔ (start ≤ p ∧ p < stop) ∨ Covered l p := by
  have hsplit := filter_append_filter hl start
  have hbefore : ∀ i ∈ l.filter (·.1 < start), i.1 < start := fun i hi => by
    simpa using (mem_filter.1 hi).2
  have hatOrAbove : ∀ i ∈ l.filter (start ≤ ·.1), start ≤ i.1 := fun i hi => by
    simpa using (mem_filter.1 hi).2
  rw [insertInterval]
  generalize l.filter (·.1 < start) = before at *
  generalize l.filter (start ≤ ·.1) = atOrAbove at *
  subst hsplit
  rcases atOrAbove with - | ⟨⟨s, e⟩, rest⟩
  · exact separated_insertBetween hl h hbefore nofun
  have hsep' := hl.sublist (sublist_append_right before _)
  have hse : s < e := hsep'.nonempty (s, e) mem_cons_self
  have hlt : ∀ j ∈ rest, s < j.1 := fun j hj =>
    hse.trans ((pairwise_cons.1 hsep'.gaps).1 j hj)
  have hs : start ≤ s := hatOrAbove (s, e) mem_cons_self
  dsimp only
  split_ifs with heq
  · -- the interval with the same start is extended
    subst heq
    have hle : ∀ j ∈ rest, s ≤ j.1 := fun j hj => (hlt j hj).le
    refine ⟨(hl.sublist (sublist_append_left before _)).append
      (separated_mergeRight (h.trans_le (le_max_left _ _)) hsep'.tail)
      fun i hi j hj => ((pairwise_append.1 hl.gaps).2.2 i hi (s, e) mem_cons_self).trans_le
        (le_of_mem_mergeRight hle j hj), fun p => ?_⟩
    simp only [covered_append, covered_mergeRight hle, covered_cons, lt_max_iff]
    have : s ≤ p ∧ (p < stop ∨ p < e) ↔ (s ≤ p ∧ p < stop) ∨ (s ≤ p ∧ p < e) := by omega
    simp only [this, or_assoc, or_left_comm]
  · exact separated_insertBetween hl h hbefore
      (forall_mem_cons.2 ⟨lt_of_le_of_ne hs (Ne.symm heq), fun j hj => hs.trans_lt (hlt j hj)⟩)

/-! ## The container -/

/-- `interval_set`, with the intervals as pairs of their starts and ends. -/
structure IntervalSet where
  intervals : List (Int × Int)
  separated : Separated intervals

namespace IntervalSet

/-- The set without intervals. -/
def empty : IntervalSet := ⟨[], .nil⟩

instance : Membership Int IntervalSet := ⟨fun s p => Covered s.intervals p⟩

variable {s : IntervalSet}

theorem mem_def {p : Int} : p ∈ s ↔ ∃ i ∈ s.intervals, i.1 ≤ p ∧ p < i.2 :=
  Iff.rfl

@[simp]
theorem not_mem_empty : p ∉ empty :=
  not_covered_nil

/-- `interval_set::insert`, which also tells if the interval was inserted. -/
def insert (s : IntervalSet) (start length : Int) : IntervalSet × Bool :=
  if h : length ≤ 0 then (s, false)
  else (⟨insertInterval s.intervals start (start + length),
    (separated_insertInterval s.separated (by omega)).1⟩, true)

/-- `interval_set::erase` of the first interval. -/
def eraseFirst (s : IntervalSet) : IntervalSet :=
  ⟨s.intervals.tail, s.separated.sublist (tail_sublist _)⟩

theorem mem_insert {length : Int} :
    p ∈ (s.insert start length).1 ↔ (start ≤ p ∧ p < start + length) ∨ p ∈ s := by
  rw [insert]
  split_ifs with h
  · exact ⟨.inr, fun hp => hp.resolve_left (by omega)⟩
  · exact (separated_insertInterval s.separated (by omega)).2 p

/-- Every interval of the set after an insertion begins where one did before, or where the
    inserted one does, and the same for the ends. -/
theorem forall_mem_insert {length : Int} {P Q : Int → Prop} (hs : ∀ i ∈ s.intervals, P i.1 ∧ Q i.2)
    (hstart : P start) (hstop : Q (start + length)) :
    ∀ i ∈ (s.insert start length).1.intervals, P i.1 ∧ Q i.2 := by
  have hmem : ∀ {p}, p ∈ (s.insert start length).1 ↔
      Covered ((start, start + length) :: s.intervals) p :=
    mem_insert.trans (covered_cons (i := (start, start + length))).symm
  have hall : ∀ j ∈ (start, start + length) :: s.intervals, P j.1 ∧ Q j.2 :=
    forall_mem_cons.2 ⟨⟨hstart, hstop⟩, hs⟩
  intro i hi
  have hlt := (s.insert start length).1.separated.nonempty i hi
  obtain ⟨hbefore, hbehind⟩ := (s.insert start length).1.separated.not_covered hi
  obtain ⟨j, hj, hfirst⟩ := hmem.1 ⟨i, hi, le_rfl, hlt⟩
  obtain ⟨k, hk, hlast⟩ := hmem.1 ⟨i, hi, Int.le_sub_one_of_lt hlt, Int.sub_one_lt_of_le le_rfl⟩
  have hfst : j.1 = i.1 := by
    by_contra hne
    exact hbefore (hmem.2 ⟨j, hj, by omega, by omega⟩)
  have hsnd : k.2 = i.2 := by
    by_contra hne
    exact hbehind (hmem.2 ⟨k, hk, by omega, by omega⟩)
  exact ⟨hfst ▸ (hall j hj).1, hsnd ▸ (hall k hk).2⟩

end IntervalSet

end Redpanda.Container
