import Redpanda.Compaction.SlidingWindow

/-!
# The latest state of every key

Compaction removes records, but the latest state of each key has to stay: a newest record with a
value stays itself, and a newest tombstone may only go together with all records of its key. That
it may go at all is due to the clean mark of its segment: no older segment has a key of a clean
segment (`CleanPair`). Every function of a round rewrites segments so that a record goes only if
it is stale or a tombstone of a clean segment (`Thins`).

* `LogSegment.selfCompact_spec`, `LogSegment.compactWith_spec`: the functions that rewrite a
  segment.
* `KeyOffsetMap.covers_of_putAll`, `covers_of_buildOffsetMap`: what is in the map.
* `compactRange_spec`: a round keeps the clean marks right.
* `latestPreserved_of_run`: the latest state of every key is in the log after any steps that are
  `Sound`: keys are short enough for the index, the last record of a segment is not kept only to
  have one, and the segments that a round skips share no key with its window.
* `exists_newest_lost`: a key that is longer than those of the index takes the place of another
  one.
-/

namespace Redpanda.Compaction

open Lib List

/-- There is a newer record of the key. -/
def Stale (h : List LogRecord) (r : LogRecord) : Prop :=
  ∃ r' ∈ h, r'.key = r.key ∧ r.offset < r'.offset

/-- The records that were appended have different offsets, and keys that fit the index. -/
structure History (h : List LogRecord) : Prop where
  sorted : h.Pairwise fun r r' => r.offset < r'.offset
  fits : ∀ r ∈ h, r.key.length ≤ maxKeySize

namespace History

variable {h : List LogRecord} {r r' : LogRecord}

/-- Offsets are not reused. -/
theorem eq_of_offset_eq (hh : History h) (hr : r ∈ h) (hr' : r' ∈ h)
    (heq : r.offset = r'.offset) : r = r' := by
  have hnodup : (h.map LogRecord.offset).Nodup := pairwise_map.2 (hh.sorted.imp fun h => h.ne)
  exact inj_on_of_nodup_map hnodup hr hr' heq

/-- Keys that are short enough are in the index as they are. -/
theorem entry_eq (hh : History h) (hr : r ∈ h) : r.entry = (r.key, r.offset) := by
  rw [LogRecord.entry, cutKey, take_of_length_le (hh.fits r hr)]

end History

/-- The records and the index of a segment come from the history, and all records are indexed. -/
structure Wf (h : List LogRecord) (s : LogSegment) : Prop where
  bounds : s.baseOffset ≤ s.stableOffset + 1
  sorted : s.records.Pairwise fun r r' => r.offset < r'.offset
  range : ∀ r ∈ s.records, s.baseOffset ≤ r.offset ∧ r.offset ≤ s.stableOffset
  history : ∀ r ∈ s.records, r ∈ h
  entry : ∀ r ∈ s.records, r.entry ∈ s.index
  indexed : ∀ e ∈ s.index, ∃ r ∈ h, r.entry = e

/-- Each key has one record at most. -/
def Distinct (s : LogSegment) : Prop :=
  ∀ r ∈ s.records, ∀ r' ∈ s.records, r.key = r'.key → r = r'

/-- A segment whose marks are right. -/
structure Good (h : List LogRecord) (s : LogSegment) : Prop extends Wf h s where
  distinct : s.hasSelfCompactTimestamp → Distinct s
  clean : s.isClean → s.hasSelfCompactTimestamp

/-- A segment that the sliding window may take, since it is self-compacted. -/
def Ready (h : List LogRecord) (s : LogSegment) : Prop :=
  Good h s ∧ s.hasSelfCompactTimestamp

/-- The segment `s'` is `s` without some records that are stale, or tombstones if `s` is clean. -/
structure Thins (h : List LogRecord) (s s' : LogSegment) : Prop where
  baseOffset : s'.baseOffset = s.baseOffset
  stableOffset : s'.stableOffset = s.stableOffset
  sublist : s'.records <+ s.records
  removed : ∀ r ∈ s.records, r ∈ s'.records ∨ Stale h r ∨ (r.isTombstone ∧ s.isClean)

/-- A segment without some records, whose marks are right. -/
structure Refined (h : List LogRecord) (s s' : LogSegment) : Prop where
  thins : Thins h s s'
  good : Good h s'

variable {h : List LogRecord} {s s' s'' t t' : LogSegment} {cfg : WindowConfig} {m : KeyOffsetMap}
  {e : CompactionKey × Int} {l : List LogSegment}

theorem Thins.refl (h : List LogRecord) (s : LogSegment) : Thins h s s :=
  ⟨rfl, rfl, Sublist.refl _, fun _ hr => .inl hr⟩

theorem Thins.trans (h₁ : Thins h s s') (h₂ : Thins h s' s'') (hclean : s'.isClean → s.isClean) :
    Thins h s s'' where
  baseOffset := h₂.baseOffset.trans h₁.baseOffset
  stableOffset := h₂.stableOffset.trans h₁.stableOffset
  sublist := h₂.sublist.trans h₁.sublist
  removed r hr := by
    rcases h₁.removed r hr with hr' | hgone
    · exact (h₂.removed r hr').imp_right fun h => h.imp_right fun h => ⟨h.1, hclean h.2⟩
    · exact .inr hgone

/-- An entry is kept if no entry of its key has a larger offset. -/
theorem mem_newestEntries {l : List (CompactionKey × Int)} :
    e ∈ newestEntries l ↔ e ∈ l ∧ ∀ e' ∈ l, e'.1 = e.1 → e'.2 ≤ e.2 := by
  rw [newestEntries, mem_filter, decide_eq_true_iff]

/-- A thinner segment is well formed if its index still fits it. -/
theorem Wf.of_thins (hs : Wf h s) (ht : Thins h s s')
    (hentry : ∀ r ∈ s'.records, r.entry ∈ s'.index)
    (hindexed : ∀ e ∈ s'.index, ∃ r ∈ h, r.entry = e) : Wf h s' where
  bounds := by
    rw [ht.baseOffset, ht.stableOffset]
    exact hs.bounds
  sorted := hs.sorted.sublist ht.sublist
  range r hr := by
    rw [ht.baseOffset, ht.stableOffset]
    exact hs.range r (ht.sublist.subset hr)
  history r hr := hs.history r (ht.sublist.subset hr)
  entry := hentry
  indexed := hindexed

namespace LogSegment

/-! ## Rewriting a segment -/

/-- Only a clean segment has a horizon for its tombstones. -/
theorem isClean_of_isPast (h : s.isPastTombstoneDeleteHorizon cfg) : s.isClean := by
  rw [isPastTombstoneDeleteHorizon] at h
  rw [isClean]
  rcases hc : s.cleanCompactTimestamp with _ | t
  · simp [hc] at h
  · rfl

variable {r : LogRecord} {isLatest : LogRecord → Bool}

/-- With placeholders, the latest record of a key is kept, unless it is a tombstone past its
    horizon. -/
theorem shouldKeep_iff (hcfg : cfg.compactionPlaceholderEnabled) :
    s.shouldKeep cfg isLatest r ↔
      ¬ (r.isTombstone ∧ s.isPastTombstoneDeleteHorizon cfg) ∧ isLatest r := by
  rw [shouldKeep, if_neg (fun h => h.1 hcfg)]
  split
  · rename_i hpast
    exact iff_of_false Bool.false_ne_true fun h => h.1 hpast
  · rename_i hpast
    exact (and_iff_right hpast).symm

/-- Only records that are not the latest ones go, apart from tombstones. -/
theorem thins_filter (hcfg : cfg.compactionPlaceholderEnabled)
    (hstale : ∀ r ∈ s.records, ¬ isLatest r → Stale h r)
    (hbase : s'.baseOffset = s.baseOffset) (hstable : s'.stableOffset = s.stableOffset)
    (hrecords : s'.records = s.records.filter (s.shouldKeep cfg isLatest)) : Thins h s s' where
  baseOffset := hbase
  stableOffset := hstable
  sublist := hrecords ▸ filter_sublist
  removed r hr := by
    by_cases hpast : r.isTombstone ∧ s.isPastTombstoneDeleteHorizon cfg
    · exact .inr (.inr ⟨hpast.1, isClean_of_isPast hpast.2⟩)
    · by_cases hlatest : isLatest r
      · left
        rw [hrecords]
        exact mem_filter.2 ⟨hr, (shouldKeep_iff hcfg).2 ⟨hpast, hlatest⟩⟩
      · exact .inr (.inl (hstale r hr hlatest))

/-- A record whose offset is left in the index is the newest one of its key there. -/
theorem entry_mem_newestEntries (hh : History h) (hs : Wf h s) (hr : r ∈ s.records)
    (hmem : r.offset ∈ (newestEntries s.index).map Prod.snd) : r.entry ∈ newestEntries s.index := by
  obtain ⟨e, he, heq⟩ := mem_map.1 hmem
  obtain ⟨r', hr', rfl⟩ := hs.indexed e (mem_newestEntries.1 he).1
  rwa [← hh.eq_of_offset_eq hr' (hs.history r hr) heq]

/-- What self compaction drops has a newer record of its key. -/
theorem stale_of_not_mem_newestEntries (hh : History h) (hs : Wf h s) (hr : r ∈ s.records)
    (hmem : r.offset ∉ (newestEntries s.index).map Prod.snd) : Stale h r := by
  have hnot : r.entry ∉ newestEntries s.index := fun he => hmem (mem_map.2 ⟨_, he, rfl⟩)
  rw [mem_newestEntries, not_and] at hnot
  have hnewer := hnot (hs.entry r hr)
  push Not at hnewer
  obtain ⟨e, he, hkey, hlt⟩ := hnewer
  obtain ⟨r', hr', rfl⟩ := hs.indexed e he
  rw [hh.entry_eq hr', hh.entry_eq (hs.history r hr)] at hkey hlt
  exact ⟨r', hr', hkey, hlt⟩

/-- Self compaction leaves the newest record of each key of the segment. -/
theorem selfCompact_spec (hh : History h) (hcfg : cfg.compactionPlaceholderEnabled) (hs : Wf h s) :
    Thins h s (s.selfCompact cfg) ∧ Wf h (s.selfCompact cfg) ∧ Distinct (s.selfCompact cfg) := by
  have hthins : Thins h s (s.selfCompact cfg) := by
    refine thins_filter hcfg (fun r hr hlatest => ?_) rfl rfl rfl
    exact stale_of_not_mem_newestEntries hh hs hr fun h => hlatest (decide_eq_true h)
  have hentry : ∀ r ∈ (s.selfCompact cfg).records, r.entry ∈ newestEntries s.index := by
    intro r hr
    obtain ⟨hr, hkeep⟩ := mem_filter.1 hr
    exact entry_mem_newestEntries hh hs hr
      (of_decide_eq_true ((shouldKeep_iff hcfg).1 hkeep).2)
  have hwf : Wf h (s.selfCompact cfg) :=
    hs.of_thins hthins hentry fun e he => hs.indexed e (mem_newestEntries.1 he).1
  refine ⟨hthins, hwf, fun r hr r' hr' hkey => ?_⟩
  -- both are the newest one of their key
  have hcut : r.entry.1 = r'.entry.1 := congrArg cutKey hkey
  obtain ⟨hmem, hnewest⟩ := mem_newestEntries.1 (hentry r hr)
  obtain ⟨hmem', hnewest'⟩ := mem_newestEntries.1 (hentry r' hr')
  exact hh.eq_of_offset_eq (hwf.history r hr) (hwf.history r' hr')
    (le_antisymm (hnewest' _ hmem hcut) (hnewest _ hmem' hcut.symm))

/-- Self compaction thins a segment, and does not make it clean. -/
theorem selfCompactSegment_spec (hh : History h) (hcfg : cfg.compactionPlaceholderEnabled)
    (hs : Good h s) :
    Refined h s (s.selfCompactSegment cfg) ∧
      (s.selfCompactSegment cfg).isClean = s.isClean := by
  rw [selfCompactSegment]
  split
  · obtain ⟨hthins, hwf, hdistinct⟩ := selfCompact_spec hh hcfg hs.toWf
    exact ⟨⟨hthins, hwf, fun _ => hdistinct, fun _ => rfl⟩, rfl⟩
  · exact ⟨⟨.refl h s, hs⟩, rfl⟩

theorem hasSelfCompactTimestamp_selfCompactSegment (hs : s.isCompactible cfg) :
    (s.selfCompactSegment cfg).hasSelfCompactTimestamp := by
  rw [selfCompactSegment]
  split
  · rfl
  · rename_i hnot
    by_contra hself
    exact hnot ⟨hs, .inl hself⟩

/-- A pass that ends here marks the segment. -/
theorem Good.markFinished (hs : Good h s) (hself : s.hasSelfCompactTimestamp) (c : Bool) :
    Good h (s.markFinished cfg c) := by
  rw [LogSegment.markFinished]
  split
  · exact ⟨{ hs with }, hs.distinct, fun _ => hself⟩
  · exact hs

end LogSegment

/-! ## The map -/

/-- The map has the key, with this offset or a higher one. -/
def KeyOffsetMap.Covers (m : KeyOffsetMap) (e : CompactionKey × Int) : Prop :=
  ∃ o, m.get e.1 = some o ∧ e.2 ≤ o

/-- The offsets in the map are those of records of the history, up to the maximum. -/
structure KeyOffsetMap.Sound (h : List LogRecord) (m : KeyOffsetMap) : Prop where
  history : ∀ k o, m.get k = some o → ∃ r ∈ h, r.key = k ∧ r.offset = o
  le_max : ∀ k o, m.get k = some o → ∃ M, m.maxOffset = some M ∧ o ≤ M

namespace KeyOffsetMap

variable {capacity : Nat} {m' : KeyOffsetMap} {e e' : CompactionKey × Int}
  {l : List (CompactionKey × Int)}

theorem get_set (k k' : CompactionKey) (o : Int) :
    (m.set k o).get k' = if k' = k then some o else m.get k' := by
  rw [get, set]
  split
  · rename_i heq
    rw [heq]
    exact AList.lookup_insert _
  · rename_i hne
    exact AList.lookup_insert_ne hne

/-- The maximal offset of the map covers what is put. -/
theorem le_maxOffset_set (k : CompactionKey) (o : Int) :
    ∃ M, (m.set k o).maxOffset = some M ∧ o ≤ M ∧ ∀ M' ∈ m.maxOffset, M' ≤ M := by
  rcases hM : m.maxOffset with _ | M
  · exact ⟨o, by rw [set, hM]; rfl, le_rfl, nofun⟩
  · refine ⟨max o M, by rw [set, hM]; rfl, le_max_left _ _, fun M' hM' => ?_⟩
    rw [← Option.some.inj hM']
    exact le_max_right _ _

/-- A successful put either finds a newer offset in the map or enters its own. -/
theorem put_eq_some (hput : m.put capacity e = some m') :
    m' = m.set e.1 e.2 ∧ (∀ o, m.get e.1 = some o → o < e.2) ∨
      m' = m ∧ ∃ o, m.get e.1 = some o ∧ e.2 ≤ o := by
  rw [put] at hput
  rcases hget : m.get e.1 with _ | o
  · rw [hget] at hput
    cases (Option.ite_none_right_eq_some.1 hput).2
    exact .inl ⟨rfl, nofun⟩
  · rw [hget] at hput
    dsimp only at hput
    split_ifs at hput with hlt <;> cases hput
    · refine .inl ⟨rfl, fun o' ho' => ?_⟩
      rwa [← Option.some.inj ho']
    · exact .inr ⟨rfl, o, rfl, not_lt.1 hlt⟩

/-- What is put is covered. -/
theorem covers_of_put (hput : m.put capacity e = some m') : m'.Covers e := by
  rcases put_eq_some hput with ⟨rfl, -⟩ | ⟨rfl, hcovers⟩
  · exact ⟨e.2, by rw [get_set, if_pos rfl], le_rfl⟩
  · exact hcovers

/-- What is covered stays covered. -/
theorem Covers.put (hcovers : m.Covers e') (hput : m.put capacity e = some m') : m'.Covers e' := by
  rcases put_eq_some hput with ⟨rfl, hnewer⟩ | ⟨rfl, -⟩
  · obtain ⟨o, ho, hle⟩ := hcovers
    by_cases hkey : e'.1 = e.1
    · refine ⟨e.2, by rw [get_set, if_pos hkey], hle.trans ?_⟩
      exact (hnewer o (hkey ▸ ho)).le
    · exact ⟨o, by rw [get_set, if_neg hkey, ho], hle⟩
  · exact hcovers

/-- Entries that come from records of the history keep the map sound. -/
theorem Sound.put (hm : m.Sound h) (he : ∃ r ∈ h, r.key = e.1 ∧ r.offset = e.2)
    (hput : m.put capacity e = some m') : m'.Sound h := by
  rcases put_eq_some hput with ⟨rfl, -⟩ | ⟨rfl, -⟩
  · obtain ⟨M, hM, hle, hmono⟩ := le_maxOffset_set (m := m) e.1 e.2
    refine ⟨fun k o ho => ?_, fun k o ho => ⟨M, hM, ?_⟩⟩
    · rw [get_set] at ho
      split at ho
      · rename_i hkey
        rw [hkey, ← Option.some.inj ho]
        exact he
      · exact hm.history k o ho
    · rw [get_set] at ho
      split at ho
      · rwa [← Option.some.inj ho]
      · obtain ⟨M', hM', hoM⟩ := hm.le_max k o ho
        exact hoM.trans (hmono M' hM')
  · exact hm

theorem sound_empty : Sound h {} :=
  ⟨nofun, nofun⟩

/-- What every put keeps holds after all of them. -/
theorem putAll_induct {P : KeyOffsetMap → Prop}
    (hput : ∀ e ∈ l, ∀ m m', P m → m.put capacity e = some m' → P m') (hm : P m) :
    P (m.putAll capacity l).1 := by
  induction l generalizing m with
  | nil => exact hm
  | cons e l ih =>
    rw [forall_mem_cons] at hput
    rw [KeyOffsetMap.putAll]
    rcases h : m.put capacity e with _ | m'
    · exact hm
    · exact ih hput.2 (hput.1 m m' hm h)

theorem Sound.putAll (hm : m.Sound h) (hl : ∀ e ∈ l, ∃ r ∈ h, r.key = e.1 ∧ r.offset = e.2) :
    (m.putAll capacity l).1.Sound h :=
  putAll_induct (fun e he _ _ hm => hm.put (hl e he)) hm

theorem Covers.putAll (hcovers : m.Covers e) : (m.putAll capacity l).1.Covers e :=
  putAll_induct (P := (Covers · e)) (fun _ _ _ _ hm => hm.put) hcovers

/-- All entries are in the map if they fit. -/
theorem covers_of_putAll (hfull : (m.putAll capacity l).2) :
    ∀ e ∈ l, (m.putAll capacity l).1.Covers e := by
  induction l generalizing m with
  | nil => exact nofun
  | cons e l ih =>
    rw [KeyOffsetMap.putAll] at hfull ⊢
    rcases hput : m.put capacity e with _ | m'
    · simp [hput] at hfull
    · rw [hput] at hfull
      rw [forall_mem_cons]
      exact ⟨(covers_of_put hput).putAll, ih hfull⟩

/-- If they do not fit, those up to the maximum offset are in the map. -/
theorem covers_of_le_maxOffset (hl : l.Pairwise fun e e' => e.2 < e'.2)
    (hmax : ∀ M ∈ m.maxOffset, ∀ e ∈ l, M < e.2) :
    ∀ e ∈ l, ∀ M ∈ (m.putAll capacity l).1.maxOffset, e.2 ≤ M →
      (m.putAll capacity l).1.Covers e := by
  induction l generalizing m with
  | nil => exact nofun
  | cons e l ih =>
    obtain ⟨he, hl⟩ := pairwise_cons.1 hl
    rw [KeyOffsetMap.putAll]
    rcases hput : m.put capacity e with _ | m'
    · intro e' he' M hM hle
      exact absurd (hmax M hM e' he') (not_lt.2 hle)
    · -- the maximum is now at most the offset of `e`
      have hmax' : ∀ M ∈ m'.maxOffset, ∀ e' ∈ l, M < e'.2 := by
        intro M hM e' he'
        rcases put_eq_some hput with ⟨rfl, -⟩ | ⟨rfl, -⟩
        · rcases hM' : m.maxOffset with _ | M' <;> rw [set, hM'] at hM <;> cases hM
          · exact he e' he'
          · exact max_lt (he e' he') (hmax M' hM' e' (mem_cons_of_mem e he'))
        · exact hmax M hM e' (mem_cons_of_mem e he')
      rw [forall_mem_cons]
      exact ⟨fun _ _ _ => (covers_of_put hput).putAll, ih hl hmax'⟩

end KeyOffsetMap

open KeyOffsetMap

/-- The entries of a segment are those of records. -/
theorem exists_of_mem_index (hh : History h) (hs : Wf h s)
    (he : e ∈ s.index) : ∃ r ∈ h, r.key = e.1 ∧ r.offset = e.2 := by
  obtain ⟨r, hr, rfl⟩ := hs.indexed e he
  rw [hh.entry_eq hr]
  exact ⟨r, hr, rfl, rfl⟩

/-- What every put keeps holds of the map that is built. -/
theorem buildOffsetMap_induct {P : KeyOffsetMap → Prop} (capacity : Nat)
    (minIndexed : Option Int)
    (hput : ∀ s ∈ l, ∀ e ∈ s.index, ∀ m m', P m → m.put capacity e = some m' → P m')
    (hm : P m) : P (buildOffsetMap capacity m minIndexed l).1 := by
  induction l generalizing m minIndexed with
  | nil => exact hm
  | cons s l ih =>
    rw [forall_mem_cons] at hput
    have hall := putAll_induct hput.1 hm
    rw [buildOffsetMap]
    split
    · exact ih _ hput.2 hm
    · rcases hput' : m.putAll capacity s.index with ⟨m', _ | _⟩
      · rwa [hput'] at hall
      · rw [hput'] at hall
        exact ih _ hput.2 hall

/-- The keys of the segments from the resulting offset on are in the map, unless they are clean. -/
theorem covers_of_buildOffsetMap (capacity : Nat) (minIndexed : Option Int)
    {o : Int} (hl : l.Pairwise fun s s' => s'.baseOffset < s.baseOffset)
    (hmin : ∀ o ∈ minIndexed, ∀ s ∈ l, s.baseOffset < o)
    (hresult : (buildOffsetMap capacity m minIndexed l).2 = some o) :
    ∀ s ∈ l, o ≤ s.baseOffset → ¬ s.isClean → ∀ e ∈ s.index,
      (buildOffsetMap capacity m minIndexed l).1.Covers e := by
  induction l generalizing m minIndexed with
  | nil => exact nofun
  | cons t l ih =>
    obtain ⟨ht, hl⟩ := pairwise_cons.1 hl
    have hmin' : ∀ o ∈ some t.baseOffset, ∀ s ∈ l, s.baseOffset < o := by
      intro o ho s hs
      rw [← Option.some.inj ho]
      exact ht s hs
    have hfull : (m.putAll capacity t.index).2 →
        ∀ e ∈ t.index, (m.putAll capacity t.index).1.Covers e := covers_of_putAll
    rw [buildOffsetMap] at hresult ⊢
    by_cases hclean : t.isClean
    · rw [if_pos hclean] at hresult ⊢
      rw [forall_mem_cons]
      exact ⟨fun _ hnot => absurd hclean hnot, ih _ hl hmin' hresult⟩
    · rw [if_neg hclean] at hresult ⊢
      rcases hall : m.putAll capacity t.index with ⟨m', _ | _⟩
      · -- the segment does not fit: it and the older ones are below the offset
        rw [hall] at hresult
        intro s hs hle
        exact absurd (hmin o hresult s hs) (not_lt.2 hle)
      · rw [hall] at hresult hfull
        have hcov : ∀ e, m'.Covers e →
            (buildOffsetMap capacity m' (some t.baseOffset) l).1.Covers e := fun e =>
          buildOffsetMap_induct (P := (Covers · e)) _ _ fun _ _ _ _ _ _ hm => hm.put
        rw [forall_mem_cons]
        exact ⟨fun _ _ e he => hcov e (hfull rfl e he), ih _ hl hmin' hresult⟩

/-! ## A segment of the window -/

/-- The segment `s'` is `s` without the records for which the map `m` has a newer one, and clean if
    `c` says so. -/
structure Compacted (h : List LogRecord) (m : KeyOffsetMap) (c : Bool) (s s' : LogSegment) :
    Prop where
  thins : Thins h s s'
  good : Good h s'
  hasSelfCompactTimestamp : s'.hasSelfCompactTimestamp = s.hasSelfCompactTimestamp
  isClean : s'.isClean = (s.isClean || c)
  latest : ∀ r ∈ s'.records, ∀ o, m.get r.key = some o → o ≤ r.offset

namespace LogSegment

/-- A segment that has no record for the map to remove is only marked. -/
theorem compacted_markFinished (cfg : WindowConfig) (hs : Good h s)
    (hself : s.hasSelfCompactTimestamp) (c : Bool)
    (hlatest : ∀ r ∈ s.records, ∀ o, m.get r.key = some o → o ≤ r.offset) :
    Compacted h m c s (s.markFinished cfg c) := by
  have hgood : Good h (s.markFinished cfg c) := Good.markFinished hs hself c
  cases c with
  | false => exact ⟨.refl h s, hgood, rfl, (Bool.or_false _).symm, hlatest⟩
  | true => exact ⟨{ Thins.refl h s with }, hgood, rfl, (Bool.or_true _).symm, hlatest⟩

/-- The map has no larger offset for the key of the record. -/
theorem isLatestRecord_iff {r : LogRecord} :
    isLatestRecord m r ↔ ∀ o, m.get r.key = some o → o ≤ r.offset := by
  rw [isLatestRecord]
  rcases m.get r.key with _ | o
  · exact iff_of_true rfl nofun
  · rw [Option.all_some, decide_eq_true_iff]
    refine ⟨fun hle o' ho' => ?_, fun h => h o rfl⟩
    rwa [← Option.some.inj ho']

/-- Deduplication drops stale records only, and leaves none that the map knows a newer one of. -/
theorem deduplicate_spec (hh : History h) (hcfg : cfg.compactionPlaceholderEnabled)
    (hm : m.Sound h) (hs : Good h s) (hself : s.hasSelfCompactTimestamp) :
    Thins h s (s.deduplicate cfg m) ∧ Good h (s.deduplicate cfg m) ∧
      ∀ r ∈ (s.deduplicate cfg m).records, ∀ o, m.get r.key = some o → o ≤ r.offset := by
  have hthins : Thins h s (s.deduplicate cfg m) := by
    refine thins_filter hcfg (fun r hr hlatest => ?_) rfl rfl rfl
    rw [isLatestRecord_iff] at hlatest
    push Not at hlatest
    obtain ⟨o, ho, hlt⟩ := hlatest
    obtain ⟨r', hr', hkey, rfl⟩ := hm.history r.key o ho
    exact ⟨r', hr', hkey, hlt⟩
  have hdistinct : Distinct (s.deduplicate cfg m) := fun r hr r' hr' =>
    hs.distinct hself r (hthins.sublist.subset hr) r' (hthins.sublist.subset hr')
  have hhistory : ∀ r ∈ (s.deduplicate cfg m).records, r ∈ h := fun r hr =>
    hs.history r (hthins.sublist.subset hr)
  -- the new index has all records, as no two have the same key
  have hentry : ∀ r ∈ (s.deduplicate cfg m).records, r.entry ∈ (s.deduplicate cfg m).index := by
    intro r hr
    refine mem_newestEntries.2 ⟨mem_map_of_mem hr, fun e he hkey => ?_⟩
    obtain ⟨r', hr', rfl⟩ := mem_map.1 he
    rw [hh.entry_eq (hhistory r hr), hh.entry_eq (hhistory r' hr')] at hkey
    rw [hdistinct r' hr' r hr hkey]
  have hindexed : ∀ e ∈ (s.deduplicate cfg m).index, ∃ r ∈ h, r.entry = e := by
    intro e he
    obtain ⟨r, hr, rfl⟩ := mem_map.1 (mem_newestEntries.1 he).1
    exact ⟨r, hhistory r hr, rfl⟩
  refine ⟨hthins, ⟨hs.toWf.of_thins hthins hentry hindexed, fun _ => hdistinct, hs.clean⟩,
    fun r hr => ?_⟩
  exact isLatestRecord_iff.1 ((shouldKeep_iff hcfg).1 (mem_filter.1 hr).2).2

/-- What a round makes of a segment of its window. -/
theorem compactWith_spec (hh : History h) (hcfg : cfg.compactionPlaceholderEnabled)
    (hm : m.Sound h) (hs : Good h s) (hself : s.hasSelfCompactTimestamp) (c : Bool) :
    Compacted h m c s (s.compactWith cfg m c) := by
  rw [compactWith]
  split
  · rw [rewriteWithOffsetMap]
    split
    · rename_i hskip
      refine compacted_markFinished cfg hs hself c fun r hr o ho => ?_
      rcases hskip with hbelow | hempty
      · -- all offsets of the map are below the segment
        obtain ⟨M, hM, hle⟩ := hm.le_max r.key o ho
        rw [isBelow, hM, Option.all_some, decide_eq_true_iff] at hbelow
        exact hle.trans (hbelow.le.trans (hs.range r hr).1)
      · rw [mayHaveCompactibleRecords, decide_eq_true_iff, not_not] at hempty
        simp [hempty] at hr
    · obtain ⟨hthins, hgood, hlatest⟩ := deduplicate_spec hh hcfg hm hs hself
      have hmark := compacted_markFinished cfg hgood hself c hlatest
      exact ⟨hthins.trans hmark.thins id, hmark.good, hmark.hasSelfCompactTimestamp,
        hmark.isClean, hmark.latest⟩
  · rename_i hno
    refine compacted_markFinished cfg hs hself c fun r hr o ho => ?_
    by_contra hlt
    refine hno (.inr (any_eq_true.2 ⟨r.entry, hs.entry r hr, ?_⟩))
    rw [hh.entry_eq (hs.history r hr), ho, Option.any_some, decide_eq_true_iff]
    exact not_le.1 hlt

end LogSegment

open LogSegment

/-! ## Clean segments -/

/-- The segment `s` is before `t`. -/
structure Before (s t : LogSegment) : Prop where
  baseOffset : s.baseOffset < t.baseOffset
  stableOffset : s.stableOffset < t.baseOffset

/-- If `t` is clean, then `s`, which is before it, has none of its keys. -/
def CleanPair (s t : LogSegment) : Prop :=
  t.isClean → ∀ r ∈ t.records, ∀ x ∈ s.records, x.key ≠ r.key

/-- Dropping records keeps two segments clean towards each other. -/
theorem CleanPair.thins (hpair : CleanPair s t) (hs : Thins h s s') (ht : Thins h t t')
    (hclean : t'.isClean → t.isClean) : CleanPair s' t' := fun hc r hr x hx =>
  hpair (hclean hc) r (ht.sublist.subset hr) x (hs.sublist.subset hx)

theorem cleanPair_of_not_isClean (ht : ¬ t.isClean) : CleanPair s t :=
  fun hc => absurd hc ht

/-- Dropping records keeps the order of segments. -/
theorem Before.thins (hbefore : Before s t) (hs : Thins h s s') (ht : Thins h t t') :
    Before s' t' := by
  refine ⟨?_, ?_⟩
  · rw [hs.baseOffset, ht.baseOffset]
    exact hbefore.baseOffset
  · rw [hs.stableOffset, ht.baseOffset]
    exact hbefore.stableOffset

/-- The records of an older segment that are left have none of the keys that are in the map with
    offsets of the newer one. -/
theorem key_ne_of_covers {c : Bool} (hs : Compacted h m c s s') (ht : Wf h t)
    (hbefore : Before s t) {r : LogRecord} (hr : r ∈ t.records)
    (hcovers : m.Covers (r.key, r.offset)) : ∀ x ∈ s'.records, x.key ≠ r.key := by
  intro x hx hkey
  obtain ⟨o, ho, hle⟩ := hcovers
  have hox := hs.latest x hx o (hkey ▸ ho)
  have hxs := (hs.good.range x hx).2
  have hrt := (ht.range r hr).1
  have hlt := hbefore.stableOffset
  have hstable := hs.thins.stableOffset
  dsimp only at hle
  omega

/-! ## Several segments -/

/-- A segment without some records, with the same marks. -/
structure Rewritten (h : List LogRecord) (s s' : LogSegment) : Prop extends Refined h s s' where
  hasSelfCompactTimestamp : s'.hasSelfCompactTimestamp = s.hasSelfCompactTimestamp
  isClean : s'.isClean = s.isClean

theorem Rewritten.refl (hs : Good h s) : Rewritten h s s :=
  ⟨⟨.refl h s, hs⟩, rfl, rfl⟩

theorem Rewritten.trans (h₁ : Rewritten h s s') (h₂ : Rewritten h s' s'') : Rewritten h s s'' :=
  ⟨⟨h₁.thins.trans h₂.thins fun hc => h₁.isClean ▸ hc, h₂.good⟩,
    h₂.hasSelfCompactTimestamp.trans h₁.hasSelfCompactTimestamp, h₂.isClean.trans h₁.isClean⟩

theorem Compacted.rewritten (hs : Compacted h m false s s') : Rewritten h s s' :=
  ⟨⟨hs.thins, hs.good⟩, hs.hasSelfCompactTimestamp, hs.isClean.trans (Bool.or_false _)⟩

variable {l l' : List LogSegment} {n : Nat} {f : LogSegment → LogSegment}
  {R : LogSegment → LogSegment → Prop}

/-- Rewriting some segments relates all of them, if the relation is reflexive. -/
theorem forall₂_rewriteFirst (hf : ∀ t ∈ l, R t (f t)) (hrefl : ∀ t ∈ l, R t t) :
    Forall₂ R l (rewriteFirst n f l) := by
  have htake : Forall₂ R (l.take n) ((l.take n).map f) :=
    forall₂_map_right_iff.2 (forall₂_same.2 fun t ht => hf t (mem_of_mem_take ht))
  have hdrop : Forall₂ R (l.drop n) (l.drop n) :=
    forall₂_same.2 fun t ht => hrefl t (mem_of_mem_drop ht)
  have happend : Forall₂ R (l.take n ++ l.drop n) (rewriteFirst n f l) := rel_append htake hdrop
  rwa [take_append_drop] at happend

theorem forall₂_modify (hf : ∀ t ∈ l, R t (f t)) (hrefl : ∀ t ∈ l, R t t) :
    Forall₂ R l (l.modify n f) := by
  induction l generalizing n with
  | nil =>
    rw [modify_nil]
    exact .nil
  | cons t l ih =>
    rw [forall_mem_cons] at hf hrefl
    cases n with
    | zero =>
      rw [modify_zero_cons]
      exact .cons hf.1 (forall₂_same.2 hrefl.2)
    | succ n =>
      rw [modify_succ_cons]
      exact .cons hrefl.1 (ih hf.2 hrefl.2)

theorem exists_of_mem_forall₂ (hl : Forall₂ R l l') (hs' : s' ∈ l') : ∃ s ∈ l, R s s' := by
  obtain ⟨i, hi, rfl⟩ := mem_iff_getElem.1 hs'
  have hi' : i < l.length := hl.length_eq ▸ hi
  exact ⟨_, getElem_mem hi', hl.get hi' hi⟩

theorem exists_of_mem_forall₂_left (hl : Forall₂ R l l') (hs : s ∈ l) : ∃ s' ∈ l', R s s' :=
  exists_of_mem_forall₂ hl.flip hs

theorem forall₂_trans {R' R'' : LogSegment → LogSegment → Prop} {l'' : List LogSegment}
    (htrans : ∀ {s s' s''}, R s s' → R' s' s'' → R'' s s'') (hl : Forall₂ R l l')
    (hl' : Forall₂ R' l' l'') : Forall₂ R'' l l'' := by
  induction hl generalizing l'' with
  | nil =>
    cases hl'
    exact .nil
  | cons hs _ ih =>
    obtain _ | ⟨hs', hl'⟩ := hl'
    exact .cons (htrans hs hs') (ih hl')

/-- A relation of pairs that holds after a rewrite of each of the two segments holds after a
    rewrite of all of them. -/
theorem pairwise_of_forall₂ {P Q : LogSegment → LogSegment → Prop} (hl : Forall₂ R l l')
    (hP : l.Pairwise P)
    (himp : ∀ {s s' t t'}, R s s' → R t t' → P s t → Q s' t') : l'.Pairwise Q := by
  induction hl with
  | nil => exact Pairwise.nil
  | @cons s s' l l' hs hl ih =>
    obtain ⟨hsl, hP⟩ := pairwise_cons.1 hP
    refine pairwise_cons.2 ⟨fun t' ht' => ?_, ih hP⟩
    obtain ⟨t, ht, htt'⟩ := exists_of_mem_forall₂ hl ht'
    exact himp hs htt' (hsl t ht)

/-! ## The window -/

/-- The segments `l'` are those of `l` after a rewrite, and their clean marks are right. -/
def Compacts (h : List LogRecord) (l l' : List LogSegment) : Prop :=
  Forall₂ (Refined h) l l' ∧ l'.Pairwise CleanPair

/-- Two parts of a log are compacted one by one. -/
theorem Compacts.append {k k' : List LogSegment} (hl : Compacts h l l') (hk : Compacts h k k')
    (hcross : ∀ s ∈ l', ∀ t ∈ k', CleanPair s t) : Compacts h (l ++ k) (l' ++ k') :=
  ⟨rel_append hl.1 hk.1, pairwise_append.2 ⟨hl.2, hk.2, hcross⟩⟩

/-- Segments that stay as they are. -/
theorem Compacts.refl (hl : ∀ t ∈ l, Good h t) (hclean : l.Pairwise CleanPair) : Compacts h l l :=
  ⟨forall₂_same.2 fun t ht => ⟨.refl h t, hl t ht⟩, hclean⟩

/-- More segments follow that stay as they are. -/
theorem Compacts.append_right (hl : Compacts h l l') {k : List LogSegment}
    (hk : ∀ t ∈ k, Good h t) (hclean : (l ++ k).Pairwise CleanPair) :
    Compacts h (l ++ k) (l' ++ k) := by
  obtain ⟨-, hck, hcross⟩ := pairwise_append.1 hclean
  refine hl.append (.refl hk hck) fun s' hs' t ht => ?_
  obtain ⟨s, hs, hss'⟩ := exists_of_mem_forall₂ hl.1 hs'
  exact (hcross s hs t ht).thins hss'.thins (.refl h t) id

/-- The entries of a chunk are records of the history, in order. -/
theorem entriesAfter_spec (hs : Wf h s) (o : Option Int) :
    (∀ e ∈ s.entriesAfter o, ∃ r ∈ h, r.key = e.1 ∧ r.offset = e.2) ∧
      (s.entriesAfter o).Pairwise fun e e' => e.2 < e'.2 := by
  refine ⟨fun e he => ?_, ?_⟩
  · obtain ⟨r, hr, rfl⟩ := mem_map.1 he
    exact ⟨r, hs.history r (mem_filter.1 hr).1, rfl, rfl⟩
  · rw [entriesAfter, pairwise_map]
    exact hs.sorted.filter _

/-- If no segment becomes clean, rewriting them is a compaction. -/
theorem compacts_of_rewritten (hl : Forall₂ (Rewritten h) l l')
    (hclean : l.Pairwise CleanPair) : Compacts h l l' :=
  ⟨hl.imp fun _ _ ht => ht.toRefined, pairwise_of_forall₂ hl hclean fun hs ht hpair =>
    hpair.thins hs.thins ht.thins fun hc => ht.isClean ▸ hc⟩

/-- Segments without records are clean in any case. -/
theorem markFinished_of_empty (cfg : WindowConfig)
    (hgood : ∀ t ∈ l, Ready h t)
    (hempty : ∀ t ∈ l, t.records = []) :
    Forall₂ (Refined h) l (l.map (·.markFinished cfg true)) ∧
      (∀ t ∈ l.map (·.markFinished cfg true), t.records = []) := by
  refine ⟨forall₂_map_right_iff.2 (forall₂_same.2 fun t ht => ?_), ?_⟩
  · obtain ⟨ht, hself⟩ := hgood t ht
    exact ⟨{ Thins.refl h t with }, Good.markFinished ht hself true⟩
  · rw [forall_mem_map]
    exact hempty

theorem pairwise_cleanPair_of_empty (hempty : ∀ t ∈ l, t.records = []) : l.Pairwise CleanPair := by
  refine pairwise_iff_forall_sublist.2 fun {s t} hsub _ r hr => ?_
  simp [hempty t (hsub.subset (mem_cons_of_mem s mem_cons_self))] at hr

section

variable (hh : History h) (hcfg : cfg.compactionPlaceholderEnabled)

include hh hcfg

/-- The pass over the window, with the map of the segments from `o` on. -/
theorem pairwise_cleanPair_rewriteFirst (hm : m.Sound h) (hgood : ∀ t ∈ l, Ready h t)
    (hbefore : l.Pairwise Before) (hclean : l.Pairwise CleanPair) {o : Int}
    (hcovers : ∀ t ∈ l, o ≤ t.baseOffset → ¬ t.isClean → ∀ e ∈ t.index, m.Covers e) (n : Nat) :
    (rewriteFirst n (fun t => t.compactWith cfg m (o ≤ t.baseOffset)) l).Pairwise CleanPair := by
  have hspec : ∀ t ∈ l, Compacted h m (o ≤ t.baseOffset) t
      (t.compactWith cfg m (o ≤ t.baseOffset)) := fun t ht =>
    compactWith_spec hh hcfg hm (hgood t ht).1 (hgood t ht).2 _
  have hboth : (l.take n ++ l.drop n).Pairwise fun s t => Before s t ∧ CleanPair s t := by
    rw [take_append_drop]
    exact hbefore.and hclean
  obtain ⟨htake, hdrop, hcross⟩ := pairwise_append.1 hboth
  refine pairwise_append.2 ⟨?_, hdrop.imp fun h => h.2, fun s' hs' t ht => ?_⟩
  · rw [pairwise_map]
    refine htake.imp_of_mem fun {s t} hs ht hst => ?_
    have hsl := mem_of_mem_take hs
    have htl := mem_of_mem_take ht
    intro hc r hr
    rw [(hspec t htl).isClean, Bool.or_eq_true, decide_eq_true_iff] at hc
    by_cases hold : t.isClean
    · have hpair := hst.2.thins (hspec s hsl).thins (hspec t htl).thins fun _ => hold
      refine hpair ?_ r hr
      rw [(hspec t htl).isClean, hold, Bool.true_or]
    · -- `t` is clean from now on, because its keys are in the map
      have hrt := (hspec t htl).thins.sublist.subset hr
      have hcover := hcovers t htl (hc.resolve_left hold) hold r.entry ((hgood t htl).1.entry r hrt)
      rw [hh.entry_eq ((hgood t htl).1.history r hrt)] at hcover
      exact key_ne_of_covers (hspec s hsl) (hgood t htl).1.toWf hst.1 hrt hcover
  · obtain ⟨s, hs, rfl⟩ := mem_map.1 hs'
    exact (hcross s hs t ht).2.thins (hspec s (mem_of_mem_take hs)).thins (.refl h t) id

variable (progress : List Nat)

/-- The loop over the chunks of the segment `s`: no older segment has a key of the records that were
    indexed, which are all of them in the end. -/
theorem chunkLoop_spec (lastIndexed : Option Int) (hl : ∀ t ∈ l, Ready h t)
    (hs : Ready h s) (hbefore : ∀ t ∈ l, Before t s)
    (hindexed : ∀ o ∈ lastIndexed, ∀ r ∈ s.records, r.offset ≤ o →
      ∀ t ∈ l, ∀ x ∈ t.records, x.key ≠ r.key) :
    Forall₂ (Rewritten h) l (chunkLoop cfg progress lastIndexed l s).1.1 ∧
      Rewritten h s (chunkLoop cfg progress lastIndexed l s).1.2 ∧
      ((chunkLoop cfg progress lastIndexed l s).2 →
        ∀ t ∈ (chunkLoop cfg progress lastIndexed l s).1.1,
          ∀ r ∈ (chunkLoop cfg progress lastIndexed l s).1.2.records,
            ∀ x ∈ t.records, x.key ≠ r.key) := by
  induction progress generalizing lastIndexed l s with
  | nil =>
    refine ⟨forall₂_same.2 fun t ht => .refl (hl t ht).1, .refl hs.1, ?_⟩
    exact nofun
  | cons n progress ih =>
    obtain ⟨hentries, hsorted⟩ := entriesAfter_spec hs.1.toWf lastIndexed
    rw [chunkLoop]
    generalize hchunk : KeyOffsetMap.putAll cfg.keyOffsetMapMaxKeys {}
      (s.entriesAfter lastIndexed) = chunk
    have hm : chunk.1.Sound h := hchunk ▸ sound_empty.putAll hentries
    have hspec : ∀ t ∈ l, Compacted h chunk.1 false t (t.compactWith cfg chunk.1 false) :=
      fun t ht => compactWith_spec hh hcfg hm (hl t ht).1 (hl t ht).2 false
    have hspecs := compactWith_spec hh hcfg hm hs.1 hs.2 false
    have hl' : Forall₂ (Rewritten h) l (rewriteFirst n (·.compactWith cfg chunk.1 false) l) :=
      forall₂_rewriteFirst (fun t ht => (hspec t ht).rewritten) fun t ht => .refl (hl t ht).1
    dsimp only
    split
    · exact ⟨hl', .refl hs.1, nofun⟩
    rename_i hn
    -- all segments were rewritten with the map
    have hall : rewriteFirst n (·.compactWith cfg chunk.1 false) l =
        l.map (·.compactWith cfg chunk.1 false) := by
      rw [rewriteFirst, take_of_length_le (not_le.1 hn).le, drop_of_length_le (not_le.1 hn).le,
        append_nil]
    have hgone : ∀ r ∈ (s.compactWith cfg chunk.1 false).records,
        (∀ e ∈ s.entriesAfter lastIndexed, e = (r.key, r.offset) → chunk.1.Covers e) →
        ∀ t ∈ rewriteFirst n (·.compactWith cfg chunk.1 false) l, ∀ x ∈ t.records,
          x.key ≠ r.key := by
      intro r hr hcovers t' ht'
      rw [hall] at ht'
      obtain ⟨t, ht, rfl⟩ := mem_map.1 ht'
      have hrs := hspecs.thins.sublist.subset hr
      by_cases hafter : lastIndexed.all (· < r.offset)
      · have hmem : (r.key, r.offset) ∈ s.entriesAfter lastIndexed :=
          mem_map.2 ⟨r, mem_filter.2 ⟨hrs, hafter⟩, rfl⟩
        exact key_ne_of_covers (hspec t ht) hs.1.toWf (hbefore t ht) hrs (hcovers _ hmem rfl)
      · rcases lastIndexed with _ | o
        · exact absurd rfl hafter
        · rw [Option.all_some, decide_eq_true_iff, not_lt] at hafter
          intro x hx
          exact hindexed o rfl r hrs hafter t ht x ((hspec t ht).thins.sublist.subset hx)
    split
    · rename_i hfull
      refine ⟨hl', hspecs.rewritten, fun _ t ht r hr => hgone r hr (fun e he _ => ?_) t ht⟩
      rw [← hchunk] at hfull ⊢
      exact covers_of_putAll hfull e he
    · have hready : ∀ t ∈ rewriteFirst n (·.compactWith cfg chunk.1 false) l,
          Ready h t ∧ Before t (s.compactWith cfg chunk.1 false) := by
        intro t' ht'
        obtain ⟨t, ht, htt'⟩ := exists_of_mem_forall₂ hl' ht'
        exact ⟨⟨htt'.good, htt'.hasSelfCompactTimestamp ▸ (hl t ht).2⟩,
          (hbefore t ht).thins htt'.thins hspecs.thins⟩
      obtain ⟨hloop, hloops, hdone⟩ := ih chunk.1.maxOffset (fun t ht => (hready t ht).1)
        ⟨hspecs.good, hspecs.hasSelfCompactTimestamp ▸ hs.2⟩ (fun t ht => (hready t ht).2)
        fun o ho r hr hle => hgone r hr fun e he heq => by
          rw [← hchunk] at ho ⊢
          refine covers_of_le_maxOffset hsorted (fun M hM => absurd hM (Option.not_mem_none M)) e he
            o ho ?_
          rw [heq]
          exact hle
      refine ⟨?_, hspecs.rewritten.trans hloops, hdone⟩
      exact forall₂_trans (fun h₁ h₂ => h₁.trans h₂) hl' hloop

/-- Rounds over one segment that does not fit the map. -/
theorem chunkedSlidingWindowCompact_spec (hgood : ∀ t ∈ l ++ [s], Ready h t)
    (hbefore : (l ++ [s]).Pairwise Before) (hclean : (l ++ [s]).Pairwise CleanPair) :
    Compacts h (l ++ [s]) (chunkedSlidingWindowCompact cfg progress l s).1 := by
  rw [forall_mem_concat] at hgood
  have hlast : ∀ t ∈ l, Before t s := (pairwise_concat.1 hbefore).2
  obtain ⟨hl', hs', hdone⟩ := chunkLoop_spec hh hcfg progress none
    hgood.1 hgood.2 hlast nofun
  rw [chunkedSlidingWindowCompact]
  rcases hloop : chunkLoop cfg progress none l s with ⟨⟨l', s'⟩, _ | _⟩
  · rw [hloop] at hl' hs'
    exact compacts_of_rewritten (rel_append hl' (.cons hs' .nil)) hclean
  · rw [hloop] at hl' hs' hdone
    have hself : s'.hasSelfCompactTimestamp := hs'.hasSelfCompactTimestamp ▸ hgood.2.2
    have hmark : Refined h s (s'.markFinished cfg true) :=
      ⟨{ hs'.thins with }, Good.markFinished hs'.good hself true⟩
    refine (compacts_of_rewritten hl' (pairwise_append.1 hclean).1).append
      ⟨.cons hmark .nil, pairwise_singleton _ _⟩ fun t ht s'' hs'' _ => ?_
    rw [mem_singleton.1 hs'']
    exact hdone rfl t ht

/-- A round, with one map or in chunks. -/
theorem compactWindow_spec (hgood : ∀ t ∈ l ++ [s], Ready h t)
    (hbefore : (l ++ [s]).Pairwise Before) (hclean : (l ++ [s]).Pairwise CleanPair) :
    Compacts h (l ++ [s]) (compactWindow cfg progress l s).1 := by
  have hsound := buildOffsetMap_induct cfg.keyOffsetMapMaxKeys none (l := (l ++ [s]).reverse)
    (fun t ht e he _ _ hm => hm.put
      (exists_of_mem_index hh (hgood t (mem_reverse.1 ht)).1.toWf he)) (sound_empty (h := h))
  have hcovers := fun o => covers_of_buildOffsetMap cfg.keyOffsetMapMaxKeys none (m := {})
    (l := (l ++ [s]).reverse) (o := o)
    (pairwise_reverse.2 (hbefore.imp fun h => h.baseOffset))
    nofun
  rw [compactWindow]
  rcases hbuild : buildOffsetMap cfg.keyOffsetMapMaxKeys {} none (l ++ [s]).reverse with ⟨m, _ | o⟩
  · exact chunkedSlidingWindowCompact_spec hh hcfg progress hgood hbefore hclean
  · rw [hbuild] at hsound hcovers
    have hrewrite : Forall₂ (Refined h) (l ++ [s]) (rewriteFirst (progress.headD 0)
        (fun s => s.compactWith cfg m (o ≤ s.baseOffset)) (l ++ [s])) := by
      refine forall₂_rewriteFirst (fun t ht => ?_) fun t ht => ⟨.refl h t, (hgood t ht).1⟩
      have hspec := compactWith_spec hh hcfg hsound (hgood t ht).1 (hgood t ht).2
        (o ≤ t.baseOffset)
      exact ⟨hspec.thins, hspec.good⟩
    have hpairwise := pairwise_cleanPair_rewriteFirst hh hcfg hsound hgood hbefore hclean
      (fun t ht => hcovers o rfl t (mem_reverse.2 ht)) (progress.headD 0)
    dsimp only
    split <;> exact ⟨hrewrite, hpairwise⟩

/-- A round over segments that are all self compacted. -/
theorem compactSelfCompacted_spec (hgood : ∀ t ∈ l, Ready h t)
    (hbefore : l.Pairwise Before) (hclean : l.Pairwise CleanPair) :
    Compacts h l (compactSelfCompacted cfg progress l).1 := by
  rw [compactSelfCompacted]
  dsimp only
  generalize hp : (fun s : LogSegment => decide (¬ s.mayHaveCompactibleRecords = true)) = p
  have hsplit : l = (l.rdropWhile isClean).takeWhile p ++
      (l.rdropWhile isClean).dropWhile p ++ l.rtakeWhile isClean := by
    rw [takeWhile_append_dropWhile, rdropWhile_append_rtakeWhile]
  have hempty : ∀ t ∈ (l.rdropWhile isClean).takeWhile p, t.records = [] := by
    intro t ht
    have := mem_takeWhile_imp ht
    rw [← hp, decide_eq_true_iff, mayHaveCompactibleRecords, decide_eq_true_iff, not_not] at this
    exact this
  generalize (l.rdropWhile isClean).takeWhile p = empty at hsplit hempty ⊢
  generalize (l.rdropWhile isClean).dropWhile p = window at hsplit ⊢
  generalize l.rtakeWhile isClean = clean at hsplit ⊢
  subst hsplit
  rw [forall_mem_append, forall_mem_append] at hgood
  obtain ⟨⟨hgoode, hgoodw⟩, hgoodc⟩ := hgood
  have hgoodc : ∀ t ∈ clean, Good h t := fun t ht => (hgoodc t ht).1
  obtain ⟨-, hcw, -⟩ := pairwise_append.1 (pairwise_append.1 hclean).1
  obtain ⟨-, hbw, -⟩ := pairwise_append.1 (pairwise_append.1 hbefore).1
  obtain ⟨hmark, hempty'⟩ := markFinished_of_empty cfg hgoode hempty
  have hmark : Compacts h empty (empty.map (·.markFinished cfg true)) :=
    ⟨hmark, pairwise_cleanPair_of_empty hempty'⟩
  rcases hlast : window.getLast? with _ | s
  · rw [getLast?_eq_none_iff.1 hlast, append_nil] at hclean ⊢
    exact hmark.append_right hgoodc hclean
  · have hwindow : window.dropLast ++ [s] = window := dropLast_append_getLast? s hlast
    rw [← hwindow] at hgoodw hbw hcw
    have hspec := compactWindow_spec hh hcfg progress hgoodw hbw hcw
    rw [hwindow] at hspec
    refine (hmark.append hspec fun s hs t _ _ r _ x hx => ?_).append_right hgoodc hclean
    -- a segment without records is never in the way
    simp [hempty' s hs] at hx

/-- A round on a range of segments keeps the clean marks right. -/
theorem compactRange_spec (hgood : ∀ t ∈ l, Good h t)
    (hcompactible : ∀ t ∈ l, t.isCompactible cfg) (hbefore : l.Pairwise Before)
    (hclean : l.Pairwise CleanPair) : Compacts h l (compactRange cfg progress l).1 := by
  have hself : Forall₂ (fun t t' => (Refined h t t' ∧ t'.hasSelfCompactTimestamp) ∧
      t'.isClean = t.isClean) l (l.map (·.selfCompactSegment cfg)) := by
    refine forall₂_map_right_iff.2 (forall₂_same.2 fun t ht => ?_)
    obtain ⟨hrefined, hclean⟩ := selfCompactSegment_spec hh hcfg (hgood t ht)
    exact ⟨⟨hrefined, hasSelfCompactTimestamp_selfCompactSegment (hcompactible t ht)⟩, hclean⟩
  have hgood' : ∀ t ∈ l.map (·.selfCompactSegment cfg), Ready h t := by
    intro t' ht'
    obtain ⟨t, -, htt', -⟩ := exists_of_mem_forall₂ hself ht'
    exact ⟨htt'.1.good, htt'.2⟩
  have hbefore' := pairwise_of_forall₂ (Q := Before) hself hbefore fun hs ht hst =>
    hst.thins hs.1.1.thins ht.1.1.thins
  have hclean' := pairwise_of_forall₂ (Q := CleanPair) hself hclean fun hs ht hst =>
    hst.thins hs.1.1.thins ht.1.1.thins fun hc => ht.2 ▸ hc
  obtain ⟨hforall, hpairwise⟩ :=
    compactSelfCompacted_spec hh hcfg progress hgood' hbefore' hclean'
  refine ⟨forall₂_trans (fun h₁ h₂ => ⟨?_, h₂.good⟩) hself hforall, hpairwise⟩
  exact h₁.1.1.thins.trans h₂.thins fun hc => h₁.2 ▸ hc

end

/-! ## Merging segments -/

/-- A merged segment is clean only if all its parts were. -/
theorem isClean_concatenate (hclean : (s.concatenate l).isClean) : ∀ t ∈ s :: l, t.isClean := by
  have hfold : ∀ (l : List LogSegment) (c : Option Int),
      (l.foldl (fun c t => do return max (← c) (← t.cleanCompactTimestamp)) c).isSome →
        c.isSome ∧ ∀ t ∈ l, t.isClean := by
    intro l
    induction l with
    | nil => exact fun c hc => ⟨hc, nofun⟩
    | cons t l ih =>
      intro c hc
      obtain ⟨hstep, hl⟩ := ih _ hc
      rcases c with _ | c
      · exact nomatch hstep
      rcases ht : t.cleanCompactTimestamp with _ | u
      · dsimp only at hstep
        simp [ht] at hstep
      · refine ⟨rfl, forall_mem_cons.2 ⟨?_, hl⟩⟩
        rw [isClean, ht]
        rfl
  exact forall_mem_cons.2 (hfold l s.cleanCompactTimestamp hclean)

/-- The parts of a merged segment have their offsets in order. -/
theorem wf_concatenate (hgood : ∀ t ∈ s :: l, Wf h t) (hbefore : (s :: l).Pairwise Before) :
    Wf h (s.concatenate l) := by
  have hbase : ∀ t ∈ s :: l, s.baseOffset ≤ t.baseOffset :=
    forall_mem_cons.2 ⟨le_rfl, fun t ht => ((pairwise_cons.1 hbefore).1 t ht).baseOffset.le⟩
  have hstable : ∀ t ∈ s :: l,
      t.stableOffset ≤ ((s :: l).getLast (cons_ne_nil s l)).stableOffset := by
    intro t ht
    have hbounds := (hgood _ (getLast_mem (cons_ne_nil s l))).bounds
    rw [← dropLast_append_getLast (cons_ne_nil s l)] at ht hbefore
    rcases mem_concat.1 ht with ht | rfl
    · -- the last segment begins after `t`
      have hlast := ((pairwise_concat.1 hbefore).2 t ht).stableOffset
      omega
    · exact le_rfl
  refine ⟨?_, ?_, ?_, ?_, ?_, ?_⟩
  · have hs := (hgood s mem_cons_self).bounds
    exact hs.trans (Int.add_le_add_right (hstable s mem_cons_self) 1)
  · refine pairwise_flatMap.2 ⟨fun t ht => (hgood t ht).sorted, ?_⟩
    refine hbefore.imp_of_mem fun {t u} ht hu htu r hr r' hr' => ?_
    have hrt := ((hgood t ht).range r hr).2
    have hru := ((hgood u hu).range r' hr').1
    exact hrt.trans_lt (htu.stableOffset.trans_le hru)
  · refine forall_mem_flatMap.2 fun t ht r hr => ?_
    obtain ⟨hge, hle⟩ := (hgood t ht).range r hr
    exact ⟨(hbase t ht).trans hge, hle.trans (hstable t ht)⟩
  · exact forall_mem_flatMap.2 fun t ht => (hgood t ht).history
  · exact forall_mem_flatMap.2 fun t ht r hr => mem_flatMap.2 ⟨t, ht, (hgood t ht).entry r hr⟩
  · exact forall_mem_flatMap.2 fun t ht => (hgood t ht).indexed

/-! ## The log -/

namespace CompactedLog

/-- The latest state of every key is in the log: a newest record with a value is there, unless it
    was in a segment that was removed at the front, and a newest tombstone is there, unless no
    record of its key is. -/
def LatestPreserved (l : CompactedLog) : Prop :=
  ∀ r ∈ l.history, ¬ Stale l.history r →
    (¬ r.isTombstone → r.offset < l.startOffset ∨ r ∈ l.records) ∧
      (r.isTombstone → r ∈ l.records ∨ ∀ x ∈ l.records, x.key ≠ r.key)

/-- The keys of the segments are short enough for the index, a record is not kept only for being
    the last one, and a round has no key in common with the segments that it skips. -/
def SoundAction (l : CompactedLog) : LogAction → Prop
  | .append records _ => ∀ r ∈ records, r.key.length ≤ maxKeySize
  | .selfCompact _ cfg => cfg.compactionPlaceholderEnabled
  | .mergeAdjacent _ _ cfg => cfg.compactionPlaceholderEnabled
  | .slidingWindow cfg newStartOffset _ =>
    cfg.compactionPlaceholderEnabled ∧
      ∀ s ∈ l.skipped cfg newStartOffset, ∀ t ∈ l.findSlidingRange cfg newStartOffset,
        ∀ x ∈ s.records, ∀ r ∈ t.records, x.key ≠ r.key
  | _ => True

instance (l : CompactedLog) : DecidablePred l.SoundAction := fun a => by
  induction a using LogAction.casesOn <;> unfold SoundAction <;> infer_instance

/-- What holds of the log after every action. -/
structure Inv (l : CompactedLog) : Prop where
  history : History l.history
  good : ∀ s ∈ l.closed, Good l.history s
  active : Wf l.history l.active
  dirty : ¬ l.active.isClean ∧ ¬ l.active.hasSelfCompactTimestamp
  bound : ∀ r ∈ l.history, r.offset ≤ l.active.stableOffset
  before : (l.closed ++ [l.active]).Pairwise Before
  clean : l.closed.Pairwise CleanPair
  latest : l.LatestPreserved

variable {l l' : CompactedLog} {closed : List LogSegment} {records : List LogRecord}

theorem mem_records {r : LogRecord} :
    r ∈ l.records ↔ (∃ s ∈ l.closed, r ∈ s.records) ∨ r ∈ l.active.records := by
  rw [records, mem_flatMap]
  simp only [mem_append, mem_singleton, or_and_right, exists_or, exists_eq_left]

/-- A newest record of a clean segment is the only one of its key. -/
theorem Inv.eq_of_isClean (hl : l.Inv) (hs : s ∈ l.closed) (hclean : s.isClean) {r x : LogRecord}
    (hr : r ∈ s.records) (hnewest : ¬ Stale l.history r) (hx : x ∈ l.records)
    (hkey : x.key = r.key) : x = r := by
  -- a record of a later segment would be newer
  have hlater : ∀ t, Before s t → Wf l.history t → x ∉ t.records := by
    intro t hst ht hxt
    refine hnewest ⟨x, ht.history x hxt, hkey, ?_⟩
    exact ((hl.good s hs).range r hr).2.trans_lt (hst.stableOffset.trans_le (ht.range x hxt).1)
  have hbefore := hl.before
  have hpairs := hl.clean
  have hgood := hl.good
  obtain ⟨u, v, huv⟩ := append_of_mem hs
  rw [huv] at hbefore hpairs hgood
  rcases mem_records.1 hx with ⟨t, ht, hxt⟩ | hxa
  · rw [huv] at ht
    rcases mem_append.1 ht with htu | htv
    · exact absurd hkey ((pairwise_append.1 hpairs).2.2 t htu s mem_cons_self hclean r hr x hxt)
    rcases mem_cons.1 htv with rfl | htv'
    · exact (hl.good t hs).distinct ((hl.good t hs).clean hclean) x hxt r hr hkey
    · have hst : Before s t :=
        (pairwise_cons.1 (pairwise_append.1 (pairwise_append.1 hbefore).1).2.1).1 t htv'
      exact absurd hxt (hlater t hst (hgood t ht).toWf)
  · have hst : Before s l.active :=
      (pairwise_concat.1 hbefore).2 s (mem_append_right u mem_cons_self)
    exact absurd hxa (hlater l.active hst hl.active)

/-- Records that are stale or tombstones of clean segments may go. -/
theorem Inv.latest_of_removed (hl : l.Inv) (hstart : l.startOffset ≤ l'.startOffset)
    (hhistory : l'.history = l.history) (hactive : l'.active = l.active)
    (hsub : ∀ s' ∈ l'.closed, ∀ r ∈ s'.records, ∃ s ∈ l.closed, r ∈ s.records)
    (hremoved : ∀ s ∈ l.closed, ∀ r ∈ s.records, (∃ s' ∈ l'.closed, r ∈ s'.records) ∨
      Stale l.history r ∨ (r.isTombstone ∧ s.isClean)) : l'.LatestPreserved := by
  have hmem : ∀ x ∈ l'.records, x ∈ l.records := by
    intro x hx
    rw [mem_records, hactive] at hx
    rw [mem_records]
    exact hx.imp_left fun ⟨s', hs', hx⟩ => hsub s' hs' x hx
  intro r hr hnewest
  rw [hhistory] at hr hnewest
  -- a newest record stays, unless it is a tombstone of a clean segment
  have hstays : r ∈ l.records →
      r ∈ l'.records ∨ ∃ s ∈ l.closed, r ∈ s.records ∧ r.isTombstone ∧ s.isClean := by
    intro h
    rcases mem_records.1 h with ⟨s, hs, hrs⟩ | ha
    · rcases hremoved s hs r hrs with h | h | h
      · exact .inl (mem_records.2 (.inl h))
      · exact absurd h hnewest
      · exact .inr ⟨s, hs, hrs, h⟩
    · exact .inl (mem_records.2 (.inr (hactive ▸ ha)))
  obtain ⟨hvalue, htombstone⟩ := hl.latest r hr hnewest
  refine ⟨fun hr' => ?_, fun hr' => ?_⟩
  · rcases hvalue hr' with h | h
    · exact .inl (h.trans_le hstart)
    · refine .inr ((hstays h).resolve_right ?_)
      rintro ⟨_, _, _, h, _⟩
      exact hr' h
  · rcases htombstone hr' with h | h
    · by_cases hstill : r ∈ l'.records
      · exact .inl hstill
      · obtain ⟨s, hs, hrs, -, hclean⟩ := (hstays h).resolve_left hstill
        refine .inr fun x hx hkey => hstill ?_
        rwa [← hl.eq_of_isClean hs hclean hrs hnewest (hmem x hx) hkey]
    · exact .inr fun x hx => h x (hmem x hx)

/-- Compaction does not move the start of the log. -/
theorem baseOffset_head_eq {k k' : List LogSegment} (hk : Forall₂ (Refined h) k k')
    (t : LogSegment) : (k'.head?.getD t).baseOffset = (k.head?.getD t).baseOffset := by
  cases hk with
  | nil => rfl
  | cons hs _ => exact hs.thins.baseOffset

/-- The invariant holds after some segments were rewritten. -/
theorem Inv.of_refined (hl : l.Inv) {o : Option Int}
    (hclosed : Forall₂ (Refined l.history) l.closed closed) (hclean : closed.Pairwise CleanPair) :
    Inv { l with closed := closed, lastCompactionWindowStartOffset := o } := by
  refine ⟨hl.history, fun s' hs' => ?_, hl.active, hl.dirty, hl.bound, ?_, hclean, ?_⟩
  · obtain ⟨s, -, hss'⟩ := exists_of_mem_forall₂ hclosed hs'
    exact hss'.good
  · have hall : Forall₂ (Thins l.history) (l.closed ++ [l.active]) (closed ++ [l.active]) :=
      rel_append (hclosed.imp fun _ _ h => h.thins) (.cons (.refl _ _) .nil)
    exact pairwise_of_forall₂ hall hl.before fun hs ht hst => hst.thins hs ht
  · refine hl.latest_of_removed ?_ rfl rfl (fun s' hs' r hr => ?_) fun s hs r hr => ?_
    · exact (baseOffset_head_eq hclosed l.active).ge
    · obtain ⟨s, hs, hss'⟩ := exists_of_mem_forall₂ hclosed hs'
      exact ⟨s, hs, hss'.thins.sublist.subset hr⟩
    · obtain ⟨s', hs', hss'⟩ := exists_of_mem_forall₂_left hclosed hs
      exact (hss'.thins.removed r hr).imp_left fun h => ⟨s', hs', h⟩

/-- The segments that a round skips stay as they are. -/
theorem inv_slidingWindowCompact (hl : l.Inv) {newStartOffset : Option Int} {progress : List Nat}
    (hsound : l.SoundAction (.slidingWindow cfg newStartOffset progress)) :
    Inv (l.slidingWindowCompact cfg newStartOffset progress) := by
  obtain ⟨hcfg, hskipped⟩ := hsound
  have hsplit : l.closed = l.skipped cfg newStartOffset ++
      l.findSlidingRange cfg newStartOffset ++ l.closed.dropWhile (l.isInWindow cfg) := by
    rw [skipped, findSlidingRange, takeWhile_append_dropWhile, takeWhile_append_dropWhile]
  have hcompactible : ∀ s ∈ l.findSlidingRange cfg newStartOffset, s.isCompactible cfg := by
    intro s hs
    have hwindow := mem_takeWhile_imp ((dropWhile_sublist _).subset hs)
    exact (of_decide_eq_true hwindow).1
  have hgood := hl.good
  have hbefore := (pairwise_append.1 hl.before).1
  have hclean := hl.clean
  rw [hsplit, forall_mem_append, forall_mem_append] at hgood
  rw [hsplit, pairwise_append, pairwise_append] at hbefore
  rw [hsplit] at hclean
  obtain ⟨hcskipped, hcrange, -⟩ := pairwise_append.1 (pairwise_append.1 hclean).1
  have hrange := compactRange_spec hl.history hcfg progress hgood.1.2 hcompactible
    hbefore.1.2.1 hcrange
  have hfront := (Compacts.refl hgood.1.1 hcskipped).append hrange fun s hs t' ht' _ r hr x hx => by
    obtain ⟨t, ht, htt'⟩ := exists_of_mem_forall₂ hrange.1 ht'
    exact hskipped s hs t ht x hx r (htt'.thins.sublist.subset hr)
  obtain ⟨hall, hpairs⟩ := hfront.append_right hgood.2 hclean
  rw [← hsplit] at hall
  exact hl.of_refined hall hpairs

section

variable (hl : l.Inv) (hcfg : cfg.compactionPlaceholderEnabled)

include hl hcfg

theorem inv_selfCompact (i : Nat) :
    Inv { l with closed := l.closed.modify i (·.selfCompactSegment cfg) } := by
  have hrewritten : Forall₂ (fun t t' => Refined l.history t t' ∧ t'.isClean = t.isClean) l.closed
      (l.closed.modify i (·.selfCompactSegment cfg)) :=
    forall₂_modify (fun t ht => selfCompactSegment_spec hl.history hcfg (hl.good t ht))
      fun t ht => ⟨⟨.refl _ t, hl.good t ht⟩, rfl⟩
  refine hl.of_refined (hrewritten.imp fun _ _ h => h.1) ?_
  exact pairwise_of_forall₂ hrewritten hl.clean fun hs ht hst =>
    hst.thins hs.1.thins ht.1.thins fun hc => ht.2 ▸ hc

/-- Segments next to each other are merged into one. -/
theorem Inv.of_merged {u v rest : List LogSegment} (hclosed : l.closed = u ++ (s :: rest ++ v)) :
    Inv { l with closed := u ++ ((s.concatenate rest).selfCompact cfg :: v) } := by
  have hgood := hl.good
  have hbefore := hl.before
  have hclean := hl.clean
  rw [hclosed, forall_mem_append, forall_mem_append] at hgood
  rw [hclosed, append_assoc, append_assoc] at hbefore
  rw [hclosed] at hclean
  -- `u` stands before the merged segments and `v` behind them, up to the active one
  obtain ⟨hgu, hgm, hgv⟩ := hgood
  obtain ⟨hbu, hbmv, hbuv⟩ := pairwise_append.1 hbefore
  obtain ⟨hbm, hbv, hbmid⟩ := pairwise_append.1 hbmv
  obtain ⟨hcu, hcmv, hcuv⟩ := pairwise_append.1 hclean
  obtain ⟨hcm, hcv, hcmid⟩ := pairwise_append.1 hcmv
  obtain ⟨hthins, hwf, hdistinct⟩ := selfCompact_spec hl.history hcfg
    (wf_concatenate (fun t ht => (hgm t ht).toWf) hbm)
  -- what the new segment holds was held by one of those it replaces
  have hmem : ∀ r ∈ ((s.concatenate rest).selfCompact cfg).records,
      ∃ t ∈ s :: rest, r ∈ t.records := fun r hr => mem_flatMap.1 (hthins.sublist.subset hr)
  -- it starts where the first of them did and ends where the last one did
  have hlast : ∀ t ∈ v ++ [l.active], Before ((s.concatenate rest).selfCompact cfg) t := by
    intro t ht
    exact ⟨(hbmid s mem_cons_self t ht).baseOffset,
      (hbmid _ (getLast_mem (cons_ne_nil s rest)) t ht).stableOffset⟩
  refine ⟨hl.history, ?_, hl.active, hl.dirty, hl.bound, ?_, ?_, ?_⟩
  · refine forall_mem_append.2 ⟨hgu, forall_mem_cons.2 ⟨?_, hgv⟩⟩
    exact ⟨hwf, fun _ => hdistinct, fun _ => rfl⟩
  · have hnew : (u ++ ((s.concatenate rest).selfCompact cfg :: (v ++ [l.active]))).Pairwise
        Before := by
      refine pairwise_append.2 ⟨hbu, pairwise_cons.2 ⟨hlast, hbv⟩, fun t ht t' ht' => ?_⟩
      rcases mem_cons.1 ht' with rfl | ht'
      · have hts := hbuv t ht s (mem_append_left _ mem_cons_self)
        exact ⟨hts.baseOffset, hts.stableOffset⟩
      · exact hbuv t ht t' (mem_append_right _ ht')
    rwa [append_assoc]
  · refine pairwise_append.2 ⟨hcu, pairwise_cons.2 ⟨fun t ht hc r hr x hx => ?_, hcv⟩, ?_⟩
    · obtain ⟨t', ht', hxt'⟩ := hmem x hx
      exact hcmid t' ht' t ht hc r hr x hxt'
    · intro t ht t' ht'
      rcases mem_cons.1 ht' with rfl | ht'
      · intro hc r hr x hx
        obtain ⟨t', ht', hrt'⟩ := hmem r hr
        exact hcuv t ht t' (mem_append_left v ht') (isClean_concatenate hc t' ht') r hrt' x hx
      · exact hcuv t ht t' (mem_append_right _ ht')
  -- a record can be missing only because the compaction of the new segment has removed it
  · refine hl.latest_of_removed ?_ rfl rfl (fun s' hs' r hr => ?_) fun t ht r hr => ?_
    · rw [startOffset, startOffset, hclosed]
      rcases u with _ | ⟨t, u⟩
      · exact le_rfl
      · exact le_rfl
    · rw [hclosed]
      rcases mem_append.1 hs' with hs' | hs'
      · exact ⟨s', mem_append_left _ hs', hr⟩
      rcases mem_cons.1 hs' with rfl | hs'
      · obtain ⟨t, ht, hrt⟩ := hmem r hr
        exact ⟨t, mem_append_right u (mem_append_left v ht), hrt⟩
      · exact ⟨s', mem_append_right u (mem_append_right _ hs'), hr⟩
    · rw [hclosed] at ht
      rcases mem_append.1 ht with htu | ht
      · exact .inl ⟨t, mem_append_left _ htu, hr⟩
      rcases mem_append.1 ht with htm | htv
      · rcases hthins.removed r (mem_flatMap.2 ⟨t, htm, hr⟩) with h | h | h
        · exact .inl ⟨_, mem_append_right u mem_cons_self, h⟩
        · exact .inr (.inl h)
        · exact .inr (.inr ⟨h.1, isClean_concatenate h.2 t htm⟩)
      · exact .inl ⟨t, mem_append_right u (mem_cons_of_mem _ htv), hr⟩

/-- Merging neighbours. -/
theorem inv_compactAdjacentSegments {i n : Nat}
    (hnext : l.compactAdjacentSegments i n cfg = some l') : l'.Inv := by
  rw [compactAdjacentSegments] at hnext
  split at hnext
  · rename_i s s' rest hmid
    obtain ⟨-, rfl⟩ := Option.ite_some_none_eq_some.1 hnext
    refine hl.of_merged hcfg ?_
    rw [← hmid, take_append_drop, take_append_drop]
  · exact nomatch hnext

end

theorem startOffset_mem (l : CompactedLog) :
    ∃ t ∈ l.closed ++ [l.active], l.startOffset = t.baseOffset := by
  rw [startOffset]
  rcases l.closed with _ | ⟨t, k⟩
  · exact ⟨l.active, mem_cons_self, rfl⟩
  · exact ⟨t, mem_cons_self, rfl⟩

theorem Inv.startOffset_le (hl : l.Inv) :
    ∀ t ∈ l.closed ++ [l.active], l.startOffset ≤ t.baseOffset := by
  intro t ht
  have hbefore := hl.before
  rw [startOffset]
  rcases hclosed : l.closed with _ | ⟨u, k⟩
  · rw [hclosed] at ht
    rw [mem_singleton.1 ht]
    exact le_rfl
  · rw [hclosed] at ht hbefore
    rcases mem_cons.1 ht with rfl | ht
    · exact le_rfl
    · exact ((pairwise_cons.1 hbefore).1 t ht).baseOffset.le

/-- The segments at the front go. -/
theorem inv_removeFront (hl : l.Inv) (n : Nat) : Inv { l with closed := l.closed.drop n } := by
  have hdrop := drop_sublist n l.closed
  have hsub : l.closed.drop n ++ [l.active] <+ l.closed ++ [l.active] := hdrop.append_right _
  have hwf : ∀ t ∈ l.closed ++ [l.active], Wf l.history t :=
    forall_mem_concat.2 ⟨fun t ht => (hl.good t ht).toWf, hl.active⟩
  obtain ⟨t₀, ht₀, hstart⟩ := startOffset_mem { l with closed := l.closed.drop n }
  -- what is removed comes before what is left
  have hfront : ∀ r ∈ l.records, (∃ t ∈ l.closed.drop n ++ [l.active], r ∈ t.records) ∨
      ∀ t ∈ l.closed.drop n ++ [l.active], r.offset < t.baseOffset := by
    intro r hr
    obtain ⟨s, hs, hrs⟩ := mem_flatMap.1 hr
    have hr := ((hwf s hs).range r hrs).2
    have hbefore := hl.before
    rw [← take_append_drop n l.closed, append_assoc] at hs hbefore
    rcases mem_append.1 hs with hs | hs
    · exact .inr fun t ht =>
        hr.trans_lt ((pairwise_append.1 hbefore).2.2 s hs t ht).stableOffset
    · exact .inl ⟨s, hs, hrs⟩
  refine ⟨hl.history, fun s hs => hl.good s (hdrop.subset hs), hl.active, hl.dirty, hl.bound,
    hl.before.sublist hsub, hl.clean.sublist hdrop, fun r hr hnewest => ?_⟩
  obtain ⟨hvalue, htombstone⟩ := hl.latest r hr hnewest
  refine ⟨fun hr' => ?_, fun hr' => ?_⟩
  · rcases hvalue hr' with h | h
    · exact .inl (h.trans_le (hstart ▸ hl.startOffset_le t₀ (hsub.subset ht₀)))
    · exact (hfront r h).symm.imp (fun h => hstart ▸ h t₀ ht₀) mem_flatMap.2
  · rcases htombstone hr' with h | h
    · refine (hfront r h).imp mem_flatMap.2 fun h x hx hkey => hnewest ?_
      obtain ⟨t, ht, hxt⟩ := mem_flatMap.1 hx
      have hwf := hwf t (hsub.subset ht)
      exact ⟨x, hwf.history x hxt, hkey, (h t ht).trans_le (hwf.range x hxt).1⟩
    · refine .inr fun x hx => h x ?_
      obtain ⟨t, ht, hxt⟩ := mem_flatMap.1 hx
      exact mem_flatMap.2 ⟨t, hsub.subset ht, hxt⟩

/-- A longer history makes more records stale, and none fresh. -/
theorem Wf.mono {h' : List LogRecord} (hs : Wf h s) (hsub : h ⊆ h') : Wf h' s :=
  ⟨hs.bounds, hs.sorted, hs.range, fun r hr => hsub (hs.history r hr), hs.entry, fun e he => by
    obtain ⟨r, hr, hre⟩ := hs.indexed e he
    exact ⟨r, hsub hr, hre⟩⟩

/-- Records that are newer than all others may be appended. -/
theorem LatestPreserved.append (hl : l.LatestPreserved)
    (hhistory : l'.history = l.history ++ records)
    (hnewer : ∀ r ∈ l.history, ∀ x ∈ records, r.offset < x.offset)
    (hstart : l'.startOffset = l.startOffset)
    (hmem : ∀ x, x ∈ l'.records ↔ x ∈ l.records ∨ x ∈ records) : l'.LatestPreserved := by
  intro r hr hnewest
  rw [hhistory] at hr hnewest
  rw [hstart, hmem]
  rcases mem_append.1 hr with hr | hr
  · have hold : ¬ Stale l.history r := fun ⟨r', hr', hkey⟩ =>
      hnewest ⟨r', mem_append_left _ hr', hkey⟩
    obtain ⟨hvalue, htombstone⟩ := hl r hr hold
    refine ⟨fun h => (hvalue h).imp_right .inl, fun h => (htombstone h).imp .inl fun h x hx => ?_⟩
    rcases (hmem x).1 hx with hx | hx
    · exact h x hx
    · exact fun hkey => hnewest ⟨x, mem_append_right _ hx, hkey, hnewer r hr x hx⟩
  · exact ⟨fun _ => .inr (.inr hr), fun _ => .inl (.inr hr)⟩

/-- A batch is appended. -/
theorem inv_appendBatch (hl : l.Inv) {lastOffset : Int}
    (hfits : ∀ r ∈ records, r.key.length ≤ maxKeySize)
    (hnext : l.appendBatch records lastOffset = some l') : l'.Inv := by
  rw [appendBatch] at hnext
  obtain ⟨⟨hlast, hsorted, hrange⟩, hnext⟩ := Option.ite_none_right_eq_some.1 hnext
  have hmem : ∀ x, x ∈ l'.records ↔ x ∈ l.records ∨ x ∈ records := fun x => by
    rw [← Option.some.inj hnext, mem_records, mem_records, or_assoc]
    exact or_congr_right mem_append
  have hstart : l'.startOffset = l.startOffset := by
    rw [← Option.some.inj hnext, startOffset, startOffset]
    rcases l.closed with _ | ⟨t, k⟩ <;> rfl
  cases hnext
  have hsub : l.history ⊆ l.history ++ records := subset_append_left _ _
  have hactive := Wf.mono hl.active hsub
  have hbounds := hl.active.bounds
  refine ⟨⟨?_, ?_⟩, fun s hs => ?_, ⟨?_, ?_, ?_, ?_, ?_, ?_⟩, hl.dirty, ?_, ?_, hl.clean, ?_⟩
  -- every offset of the history is below those of the batch
  · refine pairwise_append.2 ⟨hl.history.sorted, hsorted, fun r hr r' hr' => ?_⟩
    exact (hl.bound r hr).trans_lt (hrange r' hr').1
  · exact forall_mem_append.2 ⟨hl.history.fits, hfits⟩
  · have hs := hl.good s hs
    exact ⟨Wf.mono hs.toWf hsub, hs.distinct, hs.clean⟩
  · dsimp only
    omega
  · refine pairwise_append.2 ⟨hl.active.sorted, hsorted, fun r hr r' hr' => ?_⟩
    exact (hl.active.range r hr).2.trans_lt (hrange r' hr').1
  · refine forall_mem_append.2 ⟨fun r hr => ?_, fun r hr => ?_⟩
    · obtain ⟨hge, hle⟩ := hl.active.range r hr
      exact ⟨hge, hle.trans hlast.le⟩
    · obtain ⟨hgt, hle, -⟩ := hrange r hr
      exact ⟨by dsimp only; omega, hle⟩
  · exact forall_mem_append.2 ⟨hactive.history, fun r hr => mem_append_right _ hr⟩
  · refine forall_mem_append.2 ⟨fun r hr => mem_append_left _ (hl.active.entry r hr), fun r hr => ?_⟩
    exact mem_append_right _ (mem_map_of_mem hr)
  · refine forall_mem_append.2 ⟨hactive.indexed, forall_mem_map.2 fun r hr => ?_⟩
    exact ⟨r, mem_append_right _ hr, rfl⟩
  · refine forall_mem_append.2 ⟨fun r hr => (hl.bound r hr).trans hlast.le, fun r hr => ?_⟩
    exact (hrange r hr).2.1
  · obtain ⟨hclosed, hcross⟩ := pairwise_concat.1 hl.before
    refine pairwise_concat.2 ⟨hclosed, fun s hs => ?_⟩
    exact ⟨(hcross s hs).baseOffset, (hcross s hs).stableOffset⟩
  · exact hl.latest.append rfl (fun r hr x hx => (hl.bound r hr).trans_lt (hrange x hx).1) hstart hmem

/-- A new segment is opened. -/
theorem inv_roll (hl : l.Inv) (hnext : l.roll = some l') : l'.Inv := by
  rw [roll] at hnext
  obtain ⟨hnonempty, hnext⟩ := Option.ite_none_right_eq_some.1 hnext
  have hmem : ∀ x, x ∈ l'.records ↔ x ∈ l.records ∨ x ∈ [] := fun x => by
    rw [← Option.some.inj hnext, records, flatMap_append, mem_append]
    exact .rfl
  have hstart : l'.startOffset = l.startOffset := by
    rw [← Option.some.inj hnext, startOffset, startOffset]
    rcases l.closed with _ | ⟨t, k⟩ <;> rfl
  cases hnext
  refine ⟨hl.history, ?_, ⟨le_rfl, Pairwise.nil, nofun, nofun, nofun, nofun⟩,
    ⟨Bool.false_ne_true, Bool.false_ne_true⟩, hl.bound, ?_, ?_, ?_⟩
  · refine forall_mem_concat.2 ⟨hl.good, ?_⟩
    exact ⟨hl.active, fun h => absurd h hl.dirty.2, fun h => absurd h hl.dirty.1⟩
  · refine pairwise_concat.2 ⟨hl.before, forall_mem_concat.2 ⟨fun s hs => ?_, ?_⟩⟩
    · have hst := (pairwise_concat.1 hl.before).2 s hs
      exact ⟨hst.baseOffset.trans_le (by dsimp only; omega),
        hst.stableOffset.trans_le (by dsimp only; omega)⟩
    · exact ⟨Int.lt_add_one_of_le hnonempty, Int.lt_succ _⟩
  · exact pairwise_concat.2 ⟨hl.clean, fun s _ => cleanPair_of_not_isClean hl.dirty.1⟩
  · exact hl.latest.append (append_nil _).symm (fun _ _ _ => nofun) hstart hmem

/-! ## Runs -/

/-- An action that is possible. -/
def Step (l : CompactedLog) (a : LogAction) (l' : CompactedLog) : Prop :=
  l.next a = some l'

/-- A sound step. -/
def SoundStep (l : CompactedLog) (a : LogAction) (l' : CompactedLog) : Prop :=
  l.SoundAction a ∧ Step l a l'

/-- Every sound action keeps the invariant. -/
theorem inv_of_step {a : LogAction} (hl : l.Inv) (hstep : SoundStep l a l') : l'.Inv := by
  obtain ⟨hsound, hnext⟩ := hstep
  cases a with
  | append records lastOffset => exact inv_appendBatch hl hsound hnext
  | roll => exact inv_roll hl hnext
  | removeFront n =>
    cases hnext
    exact inv_removeFront hl n
  | restart =>
    cases hnext
    exact { hl with }
  | selfCompact i cfg =>
    cases hnext
    exact inv_selfCompact hl hsound i
  | mergeAdjacent i n cfg => exact inv_compactAdjacentSegments hl hsound hnext
  | slidingWindow cfg newStartOffset progress =>
    cases hnext
    exact inv_slidingWindowCompact hl hsound

theorem inv_empty : Inv {} where
  history := ⟨Pairwise.nil, nofun⟩
  good _ hs := nomatch hs
  active := ⟨le_rfl, Pairwise.nil, nofun, nofun, nofun, nofun⟩
  dirty := ⟨Bool.false_ne_true, Bool.false_ne_true⟩
  bound _ hr := nomatch hr
  before := pairwise_singleton _ _
  clean := Pairwise.nil
  latest _ hr := nomatch hr

/-- The latest state of every key is in the log after any sound steps. -/
theorem latestPreserved_of_run {as : List LogAction} (hrun : Run SoundStep {} as l) :
    l.LatestPreserved := by
  have hinv : l.Inv := hrun.invariant (P := Inv) (fun hs hstep => inv_of_step hs hstep) inv_empty
  exact hinv.latest

/-! ### Two logs -/

/-- A record that is a batch of its own. -/
def single (offset : Int) (key : CompactionKey) (isTombstone : Bool) : LogRecord :=
  ⟨offset, offset, key, isTombstone⟩

/-- Everything may be compacted, with a map that has room for one key, and tombstones may go 10
    after their segment is clean. -/
def configAt (now : Int) : WindowConfig where
  maxRemovableLocalLogOffset := 100
  tombstoneRetentionMs := some 10
  maxTombstoneRemoveOffset := 100
  now := now
  keyOffsetMapMaxKeys := 1
  compactionPlaceholderEnabled := true

/-- The value of a key and then its tombstone, with a record of another key, so that the first round
    goes by chunks. The tombstone goes in the last round. -/
def tombstoneRun : List LogAction :=
  [.append [single 0 [1] false] 0, .roll, .append [single 1 [1] true] 1,
    .append [single 2 [2] false] 2, .roll, .slidingWindow (configAt 0) none [2, 2, 2], .restart,
    .slidingWindow (configAt 0) none [2], .mergeAdjacent 0 2 (configAt 5),
    .slidingWindow (configAt 20) none [2]]

theorem latestPreserved_of_run_tombstoneRun :
    ∃ l : CompactedLog,
      l.history = [single 0 [1] false, single 1 [1] true, single 2 [2] false] ∧
        l.records = [single 2 [2] false] ∧ l.LatestPreserved := by
  have heval : (tombstoneRun.foldlM (fun l a => if SoundAction l a then next l a else none)
      ({} : CompactedLog)).map (fun l => (l.history, l.records)) =
      some ([single 0 [1] false, single 1 [1] true, single 2 [2] false], [single 2 [2] false]) := by
    decide
  obtain ⟨l, hrun, hl⟩ := Run.exists_of_foldlM heval
  obtain ⟨hhistory, hrecords⟩ := Prod.mk.inj hl
  have hrun' : Run SoundStep {} tombstoneRun l := hrun
  exact ⟨l, hhistory, hrecords, latestPreserved_of_run hrun'⟩

/-- A segment of one record, whose key is `k'` in the index. -/
def loneSegment (o : Int) (k k' : CompactionKey) (hasSelfCompactTimestamp : Bool) : LogSegment where
  baseOffset := o
  stableOffset := o
  records := [single o k false]
  index := [(k', o)]
  hasSelfCompactTimestamp := hasSelfCompactTimestamp

/-- The map with the record of the second segment. -/
abbrev loneMap (k : CompactionKey) : KeyOffsetMap :=
  KeyOffsetMap.set {} k 1

variable (k k' : CompactionKey)

/-- The log of two such segments. -/
def loneLog : CompactedLog where
  closed := [loneSegment 0 k k false, loneSegment 1 k' k false]
  active := { baseOffset := 2, stableOffset := 1 }
  history := [single 0 k false, single 1 k' false]

/-- Two keys that are the same in the index. -/
def twoKeyRun : List LogAction :=
  [.append [single 0 k false] 0, .roll, .append [single 1 k' false] 1, .roll,
    .slidingWindow (configAt 0) none [2]]

theorem selfCompactSegment_loneSegment {o : Int} (k k' : CompactionKey) (ho : o ≤ 100) :
    (loneSegment o k k' false).selfCompactSegment (configAt 0) = loneSegment o k k' true := by
  simp [loneSegment, selfCompactSegment, LogSegment.isCompactible, configAt, ho,
    selfCompact, newestEntries, shouldKeep,
    isPastTombstoneDeleteHorizon, single]

/-- The base offset of a segment and its records. -/
def contents (s : LogSegment) : Int × List LogRecord :=
  (s.baseOffset, s.records)

/-- The record of the first segment is taken for an older one of the key. -/
theorem contents_compactRange_loneSegment : (compactRange (configAt 0) [2]
        [loneSegment 0 k k false, loneSegment 1 k' k false]).1.map contents =
      [(0, []), (1, [single 1 k' false])] := by
  have hget : (loneMap k).get k = some 1 := by rw [get_set, if_pos rfl]
  have hput : ({} : KeyOffsetMap).put 1 (k, 1) = some (loneMap k) := rfl
  have hput' : (loneMap k).put 1 (k, 0) = some (loneMap k) := by
    rw [put, hget]
    rfl
  have hbelow : (loneMap k).isBelow 0 = false := rfl
  rw [compactRange, map_cons, map_singleton, selfCompactSegment_loneSegment k k (by decide),
    selfCompactSegment_loneSegment k' k (by decide)]
  -- both segments are in the window, and both entries in the map
  simp [compactSelfCompacted, rdropWhile, rtakeWhile, isClean, loneSegment, compactWindow, configAt,
    buildOffsetMap, putAll, hput, hput', rewriteFirst, contents, compactWith, hget, hbelow,
    needsRewriteWithOffsetMap, rewriteWithOffsetMap, mayHaveCompactibleRecords, markFinished,
    mayHaveRemovableTombstones, deduplicate, shouldKeep, isPastTombstoneDeleteHorizon,
    isLatestRecord, single]

/-- The first record is gone. -/
theorem contents_slidingWindowCompact_loneLog :
    ((loneLog k k').slidingWindowCompact (configAt 0) none [2]).closed.map contents =
      [(0, []), (1, [single 1 k' false])] := by
  have hwindow : ∀ s ∈ (loneLog k k').closed, (loneLog k k').isInWindow (configAt 0) s :=
    forall_mem_cons.2 ⟨rfl, forall_mem_singleton.2 rfl⟩
  rw [← contents_compactRange_loneSegment k, slidingWindowCompact, skipped, findSlidingRange,
    takeWhile_eq_self_iff.2 hwindow, dropWhile_eq_nil_iff.2 hwindow]
  simp [loneLog, isTruncated]

theorem next_twoKeyRun {k k' : CompactionKey} (hk : cutKey k = k) (hk' : cutKey k' = k) :
    (twoKeyRun k k').foldlM next {} =
      some ((loneLog k k').slidingWindowCompact (configAt 0) none [2]) := by
  simp [twoKeyRun, next, appendBatch, roll, LogRecord.entry, single, hk, hk', loneLog, loneSegment]

/-- A key of the largest size that fits the index. -/
def longKey : CompactionKey :=
  replicate maxKeySize 0

/-- The first record is the newest one of its key, and has a value. It is removed for a record of a
    longer key, which is the same in the index. -/
theorem exists_newest_lost :
    ∃ l : CompactedLog,
      Run Step {} (twoKeyRun longKey (longKey ++ [0])) l ∧
        ∃ r ∈ l.history, ¬ Stale l.history r ∧ ¬ r.isTombstone ∧ l.startOffset ≤ r.offset ∧
          r ∉ l.records := by
  have hlength : longKey.length = maxKeySize := length_replicate
  have hk : cutKey longKey = longKey := take_of_length_le hlength.le
  have hk' : cutKey (longKey ++ [0]) = longKey := take_left' hlength
  have hne : longKey ++ [0] ≠ longKey := by
    intro heq
    have := congrArg length heq
    rw [length_append, length_singleton] at this
    omega
  have hcontents := contents_slidingWindowCompact_loneLog longKey (longKey ++ [0])
  generalize hl : (loneLog longKey (longKey ++ [0])).slidingWindowCompact (configAt 0) none [2] = l
    at hcontents
  have hhistory : l.history = [single 0 longKey false, single 1 (longKey ++ [0]) false] := by
    rw [← hl]
    rfl
  have hrecords : l.records = [single 1 (longKey ++ [0]) false] := by
    have hclosed : l.closed.flatMap LogSegment.records = (l.closed.map contents).flatMap Prod.snd := by
      rw [flatMap_map]
      rfl
    have hactive : l.active.records = [] := by
      rw [← hl]
      rfl
    simp [records, hclosed, hcontents, hactive]
  refine ⟨l, Run.of_foldlM ((next_twoKeyRun hk hk').trans (congrArg some hl)),
    single 0 longKey false, ?_, ?_, Bool.false_ne_true, ?_, ?_⟩
  · rw [hhistory]
    exact mem_cons_self
  · rw [hhistory]
    rintro ⟨r, hr, hkey, hlt⟩
    rcases mem_cons.1 hr with rfl | hr
    · exact absurd hlt (lt_irrefl _)
    · rw [mem_singleton.1 hr] at hkey
      exact hne hkey
  · obtain ⟨s, rest, hclosed, hs, -⟩ := map_eq_cons_iff.1 hcontents
    rw [startOffset, hclosed]
    exact (congrArg Prod.fst hs).le
  · simp [hrecords, single]

end CompactedLog

end Redpanda.Compaction
