import Redpanda.Storage.OffsetTranslatorState

/-!
# The map of an offset translator as a list of gaps

What a translator knows is a base offset, the delta after it and the filtered batches above, as the
list of gaps they leave in the offsets (`OffsetTranslatorState.Represents`). The lookups are then
`countBelow` and `select` of the gaps (`Represents.delta_eq`, `Represents.toLogOffset_eq`) and the
updates add and remove gaps: one lemma for each of `addGap`, `truncate`, `prefixTruncate` and the
round trip through `serializeMap`.
-/

namespace Redpanda.Storage

open Model Lib List

/-! ## Entries of gaps -/

/-- The entries for gaps above which there is a delta already. -/
def entriesFrom (delta : Int) : List Gap → List BatchInfo
  | [] => []
  | g :: gs => ⟨g.last, g.base, delta + g.length⟩ :: entriesFrom (delta + g.length) gs

section

variable {b d : Int} {gs : List Gap}

theorem entriesFrom_append (d : Int) (gs gs' : List Gap) :
    entriesFrom d (gs ++ gs') = entriesFrom d gs ++ entriesFrom (d + totalLength gs) gs' := by
  induction gs generalizing d with
  | nil => simp [entriesFrom]
  | cons g gs ih => simp [entriesFrom, ih, add_assoc]

theorem takeWhile_entriesFrom (p : Int → Bool) (d : Int) (gs : List Gap) :
    (entriesFrom d gs).takeWhile (fun e => p e.lastOffset) =
      entriesFrom d (gs.takeWhile fun g => p g.last) := by
  induction gs generalizing d with
  | nil => rfl
  | cons g gs ih =>
    rcases hp : p g.last with - | -
    · simp [entriesFrom, hp]
    · simp [entriesFrom, hp, ih]

theorem dropWhile_entriesFrom (p : Int → Bool) (d : Int) (gs : List Gap) :
    (entriesFrom d gs).dropWhile (fun e => p e.lastOffset) =
      entriesFrom (d + totalLength (gs.takeWhile fun g => p g.last))
        (gs.dropWhile fun g => p g.last) := by
  induction gs generalizing d with
  | nil => rfl
  | cons g gs ih =>
    rcases hp : p g.last with - | -
    · simp [entriesFrom, hp]
    · simp [entriesFrom, hp, ih, add_assoc]

/-- The last entry has the delta of all the gaps. -/
theorem getLast?_entriesFrom (b b' d : Int) (gs : List Gap) :
    ∃ base, (⟨b, b', d⟩ :: entriesFrom d gs).getLast? =
      some ⟨lastOf b gs, base, d + totalLength gs⟩ := by
  induction gs generalizing b b' d with
  | nil => exact ⟨b', by simp [entriesFrom, lastOf]⟩
  | cons g gs ih =>
    obtain ⟨base, h⟩ := ih g.last g.base (d + g.length)
    refine ⟨base, ?_⟩
    rw [entriesFrom, getLast?_cons_cons, h, lastOf, totalLength_cons, add_assoc]

variable {e : BatchInfo} {l : List BatchInfo}

theorem mem_entriesFrom (h : e ∈ entriesFrom d gs) :
    ∃ g ∈ gs, e.lastOffset = g.last := by
  induction gs generalizing d with
  | nil => cases h
  | cons g gs ih =>
    rcases mem_cons.1 h with rfl | h
    · exact ⟨g, mem_cons_self, rfl⟩
    · obtain ⟨g', hg', heq⟩ := ih h
      exact ⟨g', mem_cons_of_mem _ hg', heq⟩

/-- An entry above all others goes to the end. -/
theorem emplace_eq (h : ∀ e' ∈ l, e'.lastOffset < e.lastOffset) : emplace l e = l ++ [e] := by
  have htake : l.takeWhile (·.lastOffset < e.lastOffset) = l :=
    takeWhile_eq_self_iff.2 fun e' he' => by simpa using h e' he'
  have hdrop : l.dropWhile (·.lastOffset < e.lastOffset) = [] :=
    dropWhile_eq_nil_iff.2 fun e' he' => by simpa using h e' he'
  rw [emplace, lowerBound, htake, hdrop]

/-- An entry below all others goes to the front. -/
theorem emplace_eq_cons (h : ∀ e' ∈ l, e.lastOffset < e'.lastOffset) : emplace l e = e :: l := by
  cases l with
  | nil => rfl
  | cons it l =>
    have hit := h it mem_cons_self
    rw [emplace, lowerBound, takeWhile_cons_of_neg (by simpa using hit.le),
      dropWhile_cons_of_neg (by simpa using hit.le)]
    simp [hit.ne']

end

namespace OffsetTranslatorState

/-- The offset translation starts after. -/
def base? (s : OffsetTranslatorState) : Option Int := s.lastOffset2batch.head?.map (·.lastOffset)

/-- The translator knows the filtered batches above a base, and how many offsets are filtered below:
    `delta`. -/
structure Represents (s : OffsetTranslatorState) (base delta : Int) (gaps : List Gap) : Prop where
  eq : s.lastOffset2batch = ⟨base, base, delta⟩ :: entriesFrom delta gaps
  ascending : Ascending base gaps
  nonneg : ∀ g ∈ gaps, 0 ≤ g.base

theorem represents_ofBase (base delta : Int) : (ofBase base delta).Represents base delta [] where
  eq := rfl
  ascending := trivial
  nonneg := by simp

namespace Represents

variable {s : OffsetTranslatorState} {base delta o : Int} {gaps : List Gap}

section

variable (h : s.Represents base delta gaps)

include h

theorem base?_eq : s.base? = some base := by
  rw [base?, h.eq]
  rfl

/-- The gaps are above the base and not below zero. -/
theorem ascending_nextOffset (hbase : base < Offset.max) :
    Ascending (nextOffset base - 1) gaps := by
  refine h.ascending.of_lt_base fun g hg => ?_
  have := h.nonneg g hg
  have := h.ascending.lt_base g hg
  simp only [nextOffset]
  split_ifs <;> omega

theorem lastDelta_eq : s.lastDelta = .ok (delta + totalLength gaps) := by
  obtain ⟨_, hlast⟩ := getLast?_entriesFrom base base delta gaps
  rw [lastDelta, h.eq, hlast]

end

/-! ## Lookups -/

/-- The entries before and after an offset above the base. -/
theorem lowerBound_eq (h : Ascending base gaps) (ho : base < o) :
    lowerBound o (⟨base, base, delta⟩ :: entriesFrom delta gaps) =
      (⟨base, base, delta⟩ :: entriesFrom delta (gaps.filter (·.last < o)),
        entriesFrom (delta + totalLength (gaps.filter (·.last < o)))
          (gaps.filter (o ≤ ·.last))) := by
  rw [lowerBound, takeWhile_cons_of_pos (by simpa using ho),
    dropWhile_cons_of_pos (by simpa using ho), takeWhile_entriesFrom (fun k => decide (k < o)),
    dropWhile_entriesFrom (fun k => decide (k < o)), h.takeWhile_eq_filter, h.dropWhile_eq_filter]

section

variable (h : s.Represents base delta gaps)

include h

/-- The delta counts the filtered offsets. -/
theorem delta_eq (ho : base < o) : s.delta o = .ok (delta + countBelow gaps o) := by
  obtain ⟨_, hlast⟩ := getLast?_entriesFrom base base delta (gaps.filter (·.last < o))
  have hafter := h.ascending.filter (o ≤ ·.last)
  have hge : ∀ g ∈ gaps.filter (o ≤ ·.last), o ≤ g.last := fun g hg => by
    simpa using (mem_filter.1 hg).2
  simp only [OffsetTranslatorState.delta, h.eq, lowerBound_eq h.ascending ho, hlast]
  rw [countBelow_eq_add h.ascending o, ← add_assoc]
  generalize delta + totalLength (gaps.filter (·.last < o)) = d
  generalize gaps.filter (o ≤ ·.last) = after at hafter hge ⊢
  cases after with
  | nil => simp [entriesFrom]
  | cons g gs =>
    rw [countBelow_cons_of_le hafter (hge g mem_cons_self)]
    simp only [entriesFrom]
    split_ifs with hlt
    · rw [max_eq_left (by omega), add_zero]
    · rw [max_eq_right (by omega)]

theorem fromLogOffset_eq (ho : base < o) :
    s.fromLogOffset o = .ok (o - (delta + countBelow gaps o)) := by
  rw [fromLogOffset, h.delta_eq ho]
  rfl

omit h in
/-- The loop of `to_log_offset` selects in the gaps it has not passed. -/
theorem searchInterval_eq {d D : Int} (hnonneg : ∀ g ∈ gaps, 0 ≤ g.base) {b : Int}
    (h : Ascending b gaps) (hd : 0 ≤ d + D) :
    d + searchInterval d D (entriesFrom D gaps) = select gaps (d + D) := by
  induction gaps generalizing b D with
  | nil => rfl
  | cons g gs ih =>
    have hbase := hnonneg g mem_cons_self
    have hlen : 0 ≤ g.length := by
      have := h.2.1
      rw [Gap.length]
      omega
    -- there is no offset before zero, and then none in the interval
    have hprev : d ≤ prevOffset g.base - D ↔ d + D < g.base := by
      rw [prevOffset, Offset.min]
      split_ifs <;> omega
    rw [entriesFrom, searchInterval, select]
    simp only [hprev]
    split_ifs
    · rfl
    · rw [ih (forall_mem_cons.1 hnonneg).2 h.2.2 (by omega), add_assoc]

/-- A log offset that is not filtered is found by its data offset, from any hint not above it. -/
theorem toLogOffset_eq (hdelta : 0 ≤ delta)
    (ho : nextOffset base ≤ o) (hmax : o ≤ Offset.max) (hbase : base < Offset.max)
    (hcovers : ∀ g ∈ gaps, ¬ g.Covers o) {hint : Int} (hhint : hint ≤ o) :
    s.toLogOffset (o - (delta + countBelow gaps o)) hint = .ok o := by
  have hcount := countBelow_nonneg gaps o
  have hlt := lt_nextOffset hbase
  have hnonneg := nextOffset_nonneg base
  have hle := countBelow_le (h.ascending_nextOffset hbase) (o := o) (by omega)
  have hselect := select_rank h.ascending hcovers
  rw [rank] at hselect
  simp only [OffsetTranslatorState.toLogOffset, h.eq]
  split_ifs with hdmax hmin
  · -- the largest data offset is the largest log offset, if nothing is filtered
    simp only [Except.ok.injEq]
    omega
  · omega
  · generalize hd : o - (delta + countBelow gaps o) = d at *
    have hstart : max (max hint d) (nextOffset base) ≤ o := by omega
    have hstart' : base < max (max hint d) (nextOffset base) := by omega
    generalize max (max hint d) (nextOffset base) = start at *
    obtain ⟨_, hlast⟩ := getLast?_entriesFrom base base delta (gaps.filter (·.last < start))
    have htotal := totalLength_nonneg (h.ascending.filter (·.last < start))
    simp only [lowerBound_eq h.ascending hstart', hlast]
    rw [searchInterval_eq (fun g hg => h.nonneg g (mem_filter.1 hg).1)
      (h.ascending.filter _) (by omega), ← add_assoc, select_filter h.ascending,
      show d + delta = o - countBelow gaps o by omega, hselect]
    rwa [show d + delta = o - countBelow gaps o by omega, hselect]

end

/-! ## Updates -/

section

variable (h : s.Represents base delta gaps)

include h

theorem addGap_of_lt {g : Gap} (hg : lastOf base gaps < g.base)
    (hle : g.base ≤ g.last) (hnonneg : 0 ≤ g.base) :
    ∃ s', s.addGap g.base g.last = .ok s' ∧ s'.Represents base delta (gaps ++ [g]) := by
  obtain ⟨_, hlast⟩ := getLast?_entriesFrom base base delta gaps
  have hbase := h.ascending.le_lastOf
  have hempl : emplace (⟨base, base, delta⟩ :: entriesFrom delta gaps)
      ⟨g.last, g.base, delta + totalLength gaps + g.length⟩ =
      ⟨base, base, delta⟩ :: entriesFrom delta (gaps ++ [g]) := by
    rw [emplace_eq, entriesFrom_append]
    · rfl
    · intro e he
      rcases mem_cons.1 he with rfl | he
      · exact lt_of_le_of_lt hbase (hg.trans_le hle)
      · obtain ⟨g', hg', heq⟩ := mem_entriesFrom he
        have := h.ascending.last_le_lastOf g' hg'
        simp only
        omega
  refine ⟨⟨_⟩, ?_, rfl, h.ascending.concat hg hle,
    forall_mem_concat.2 ⟨h.nonneg, hnonneg⟩⟩
  simp only [addGap, h.eq, hlast, head?_cons, ← hempl, Gap.length]
  rw [if_neg (by omega), if_neg (by omega)]

/-- A gap that is known or removed already does not change the state, whether or not it is
    refused. -/
theorem addGap_of_le {g : Gap}
    (hg : g.base ≤ lastOf base gaps ∨ g.last ≤ base) (hle : g.base ≤ g.last)
    {s' : OffsetTranslatorState} (hadd : s.addGap g.base g.last = .ok s') : s' = s := by
  obtain ⟨_, hlast⟩ := getLast?_entriesFrom base base delta gaps
  have hbase := h.ascending.le_lastOf
  simp only [addGap, h.eq, hlast, head?_cons] at hadd
  split_ifs at hadd with h₁ h₂
  · exact (Except.ok.inj hadd).symm
  · split at hadd
    · exact nomatch hadd
    · split_ifs at hadd
      exact (Except.ok.inj hadd).symm
  · omega

/-- The state after a truncation at an offset which no gap has inside. -/
theorem truncate_eq (ho : base < o) (hgaps : ∀ g ∈ gaps, g.last < o ∨ o ≤ g.base) :
    ∃ s' changed, s.truncate o = .ok (s', changed) ∧
      s'.Represents base delta (gaps.filter (·.last < o)) ∧ (changed = false → s' = s) := by
  have hge := le_base_of_mem_filter hgaps
  have hall := h.ascending.filter_append_filter o
  simp only [truncate, h.eq, lowerBound_eq h.ascending ho]
  generalize gaps.filter (o ≤ ·.last) = after at hge hall ⊢
  cases after with
  | nil =>
    refine ⟨s, false, rfl, ?_, fun _ => rfl⟩
    rw [append_nil] at hall
    rwa [hall]
  | cons g gs =>
    refine ⟨_, true, ?_, ⟨rfl, h.ascending.filter _, fun g hg => h.nonneg g (mem_filter.1 hg).1⟩,
      by simp⟩
    simp only [entriesFrom]
    rw [if_neg (hge g mem_cons_self).not_gt]

/-- The state after a prefix truncation at an offset which no gap has inside: if it is
    not below the base, it is the new base. -/
theorem prefixTruncate_eq (ho : base ≤ o) (hgaps : ∀ g ∈ gaps, g.last ≤ o ∨ o < g.base) :
    ∃ s' changed, s.prefixTruncate o = .ok (s', changed) ∧
      s'.Represents o (delta + totalLength (gaps.filter (·.last < o + 1)))
        (gaps.filter (o + 1 ≤ ·.last)) ∧ (changed = false → s' = s) := by
  have hupper : upperBound o = lowerBound (o + 1) := by
    funext l
    simp only [upperBound, lowerBound, Int.lt_add_one_iff]
  obtain ⟨_, hlast⟩ := getLast?_entriesFrom base base delta (gaps.filter (·.last < o + 1))
  have hgt : ∀ g ∈ gaps.filter (o + 1 ≤ ·.last), o < g.base :=
    le_base_of_mem_filter fun g hg => (hgaps g hg).imp_left Int.lt_add_one_of_le
  have hnone : (entriesFrom (delta + totalLength (gaps.filter (·.last < o + 1)))
      (gaps.filter (o + 1 ≤ ·.last))).head?.filter (·.baseOffset ≤ o) = none := by
    generalize gaps.filter (o + 1 ≤ ·.last) = after at hgt ⊢
    cases after with
    | nil => rfl
    | cons g gs => simpa [entriesFrom] using hgt g mem_cons_self
  simp only [prefixTruncate, h.eq, hupper,
    lowerBound_eq h.ascending (by omega : base < o + 1), hnone, hlast, length_cons]
  split_ifs with hfirst
  · -- nothing is removed
    obtain ⟨hlength, hbase⟩ := hfirst
    have hnil : gaps.filter (·.last < o + 1) = [] := by
      generalize gaps.filter (·.last < o + 1) = before at hlength
      cases before with
      | nil => rfl
      | cons g gs => simp [entriesFrom] at hlength
    have hall := h.ascending.filter_append_filter (o + 1)
    rw [hnil, nil_append] at hall
    rw [hnil, lastOf] at hbase
    subst hbase
    refine ⟨s, false, rfl, ?_, fun _ => rfl⟩
    rw [hnil, hall, totalLength_nil, add_zero]
    exact h
  · refine ⟨_, true, rfl, ?_, by simp⟩
    rw [emplace_eq_cons]
    · exact ⟨rfl, (h.ascending.filter _).of_lt_base hgt, fun g hg => h.nonneg g (mem_filter.1 hg).1⟩
    · intro e he
      obtain ⟨g, hg, hlast⟩ := mem_entriesFrom he
      have := hgt g hg
      have := h.ascending.base_le_last g (mem_filter.1 hg).1
      simp only
      omega

/-- A prefix truncation below the base does nothing. -/
theorem prefixTruncate_of_lt (ho : o < base) : s.prefixTruncate o = .ok (s, false) := by
  have htake : upperBound o (⟨base, base, delta⟩ :: entriesFrom delta gaps) =
      ([], ⟨base, base, delta⟩ :: entriesFrom delta gaps) := by
    rw [upperBound, takeWhile_cons_of_neg (by simpa using ho),
      dropWhile_cons_of_neg (by simpa using ho)]
  simp only [prefixTruncate, h.eq, htake, head?_cons, getLast?_nil]
  rw [Option.filter_some_neg (by simpa using ho)]

end

end Represents

/-! ## Serialization -/

theorem int32_eq {x : Int} (h : 0 ≤ x) (hlt : x < 2 ^ 31) : int32 x = x := by
  rw [int32]
  exact Int.bmod_eq_of_le (by omega) (by omega)

/-- The length of a batch is an `int32_t`. -/
theorem int32_length {g : Gap} (hle : g.base ≤ g.last) (hlt : g.length < 2 ^ 31) :
    int32 (int32 (g.last - g.base) + 1) = g.length := by
  rw [Gap.length] at hlt ⊢
  have hdelta : int32 (g.last - g.base) = g.last - g.base := int32_eq (by omega) (by omega)
  rw [hdelta]
  exact int32_eq (by omega) hlt

theorem restoreBatches_eq {b d : Int} {gs : List Gap} (h : Ascending b gs)
    (hlt : ∀ g ∈ gs, g.length < 2 ^ 31) {map : List BatchInfo}
    (hmap : ∀ e ∈ map, e.lastOffset ≤ b) :
    restoreBatches map d b ((entriesFrom d gs).map fun e =>
      ⟨e.baseOffset, int32 (int32 (e.lastOffset - e.baseOffset) + 1)⟩) =
      .ok (map ++ entriesFrom d gs) := by
  induction gs generalizing b d map with
  | nil => simp [entriesFrom, restoreBatches]
  | cons g gs ih =>
    obtain ⟨hb, hle, h⟩ := h
    have hlast : g.base + (g.length - 1) = g.last := by
      rw [Gap.length]
      omega
    simp only [entriesFrom, map_cons, restoreBatches, int32_length hle (hlt g mem_cons_self), hlast]
    rw [if_neg hb.not_ge, emplace_eq, ih h (forall_mem_cons.1 hlt).2]
    · simp
    · intro e he
      rcases mem_concat.1 he with he | rfl
      · have := hmap e he
        omega
      · rfl
    · intro e he
      have := hmap e he
      simp only
      omega

/-- What is written is read back. -/
theorem Represents.roundTrip {s : OffsetTranslatorState} {base delta : Int} {gaps : List Gap}
    (h : s.Represents base delta gaps) (hlt : ∀ g ∈ gaps, g.length < 2 ^ 31) :
    s.serializeMap.bind fromSerializedMap = .ok s := by
  have hone : int32 (int32 0 + 1) = 1 := rfl
  simp only [serializeMap, h.eq, Except.bind, fromSerializedMap, map_cons, sub_self, hone, add_zero]
  rw [restoreBatches_eq h.ascending hlt (by simp)]
  simp only [Except.map, singleton_append, ← h.eq]

end OffsetTranslatorState

end Redpanda.Storage
