import Redpanda.Compaction.KeyIndex

/-!
# Self compaction of a segment

The segment is rewritten from the offsets of its compacted index (`copySegmentData`): a record of a
batch with keys stays if its offset is in the list (`shouldKeep`), apart from tombstones past their
horizon, which go in any case.

* `Segment.KeepsNewest`: the newest record of each key is still there afterwards, whatever the
  memory limits of the index have made it spill.
* `Segment.settled_iff_keepsNewest`: this is so exactly for the settled segments.
* `not_keepsNewest_threeSegment`: in a batch with a record of another key between two records of
  a key, the newest one may go and the old one stay.
-/

namespace Redpanda.Compaction

open Lib Model List

open RecordBatch (offsetDeltasToKeep offsetOf select)

/-- `record::is_tombstone`. -/
def isTombstone (r : Record) : Bool :=
  r.valueSize < 0

/-- `is_compactible`. -/
def isCompactible (h : RecordBatchHeader) : Bool :=
  ¬ h.isControl ∧ isFilterable h.type

/-- What `do_copy_segment_data` knows besides the index: the topic, the features and how long ago
    the segment was cleaned. -/
structure CopyConfig where
  isConsumerOffsetsTopic : Bool
  compactionPlaceholderEnabled : Bool
  pastTombstoneDeleteHorizon : Bool
  pastTxDeleteHorizon : Bool
  txBatchCompactionEnabled : Bool
  isBatchInIdempotentWindow : RecordBatchHeader → Bool

namespace CopyConfig

variable (cfg : CopyConfig)

/-- `is_removable_control_batch`. -/
def isRemovableControlBatch (t : RecordBatchType) : Bool :=
  (t = .txFence ∧ (cfg.isConsumerOffsetsTopic ∨ cfg.txBatchCompactionEnabled)) ∨
    t = .groupFenceTx ∨ t = .groupPrepareTx ∨ t = .groupAbortTx ∨ t = .groupCommitTx

/-- `can_discard`. -/
def canDiscard (b : RecordBatch) (r : Record) : Bool :=
  cfg.isRemovableControlBatch b.header.type ∨
    (isTombstone r ∧ cfg.pastTombstoneDeleteHorizon) ∨
    (b.header.isControl ∧ cfg.pastTxDeleteHorizon)

/-- `should_keep`, with the list of offsets as `is_latest_key`. -/
def shouldKeep (segmentLastOffset : Int) (offsets : CompactedOffsetList)
    (b : RecordBatch) (r : Record) (isLastRecordInBatch : Bool) : Bool :=
  if ¬ cfg.compactionPlaceholderEnabled ∧ b.lastOffset = segmentLastOffset ∧
      isLastRecordInBatch then true
  else if cfg.canDiscard b r then false
  else if ¬ isCompactible b.header then true
  else offsets.contains (b.offsetOf r)

/-- The filter of the reducer that `do_copy_segment_data` sets up. -/
def segmentFilter (segmentLastOffset : Int) (offsets : CompactedOffsetList) : SegmentFilter where
  shouldKeep := cfg.shouldKeep segmentLastOffset offsets
  segmentLastOffset := segmentLastOffset
  isBatchInIdempotentWindow := cfg.isBatchInIdempotentWindow
  compactionPlaceholderEnabled := cfg.compactionPlaceholderEnabled
  unsetTransactionBitEnabled := cfg.txBatchCompactionEnabled

end CopyConfig

/-- The batches that a filter leaves of a segment. -/
def SegmentFilter.copy (f : SegmentFilter) : List RecordBatch → Option (List RecordBatch)
  | [] => some []
  | b :: bs =>
    match f.filter b, f.copy bs with
    | some out, some outs => some (out.toList ++ outs)
    | _, _ => none

/-- A batch of which a transaction is no part. -/
def RecordBatchHeader.NonTransactional (h : RecordBatchHeader) : Prop :=
  ¬ h.isControl ∧ ¬ h.isTransactional ∧
    h.type ∉ [RecordBatchType.txPrepare, .txFence, .groupPrepareTx, .groupCommitTx, .groupAbortTx,
      .groupFenceTx]
  deriving Decidable

/-- A segment of non-transactional batches, each with its records. -/
structure Segment where
  baseOffset : Int
  committedOffset : Int
  batches : List (RecordBatch × List Record)
  encodes : ∀ b ∈ batches, b.1.Encodes b.2
  nonTransactional : ∀ b ∈ batches, b.1.header.NonTransactional
  deltas : ∀ b ∈ batches, b.2.Pairwise fun r r' => r.offsetDelta < r'.offsetDelta
  lastDelta : ∀ b ∈ batches, ∀ r ∈ b.2, 0 ≤ r.offsetDelta ∧ r.offsetDelta ≤ b.1.header.lastOffsetDelta
  ordered : batches.Pairwise fun b b' => b.1.lastOffset < b'.1.header.baseOffset
  range : ∀ b ∈ batches, baseOffset ≤ b.1.header.baseOffset ∧ b.1.lastOffset ≤ committedOffset

namespace Segment

variable (s : Segment)

/-- The entry of a record in the index. -/
def entryOf (b : RecordBatch) (r : Record) : IndexEntry :=
  (enhanceKey b.header.type b.header.isControl r.key, ⟨b.header.baseOffset, r.offsetDelta⟩)

/-- What `compaction_index_batch` offers to the index. -/
def compactionIndexBatch (b : RecordBatch × List Record) : List IndexEntry :=
  if isCompactible b.1.header then b.2.map (entryOf b.1) else []

/-- The entries of all records of the segment. -/
def entries : List IndexEntry :=
  s.batches.flatMap compactionIndexBatch

/-- The batches of the segment after `do_copy_segment_data`, from the index that the memory limits
    `p` have led to. -/
def copySegmentData (cfg : CopyConfig) (p : Pressure) : Option (List RecordBatch) :=
  (cfg.segmentFilter s.committedOffset
    (generateCompactedList s.baseOffset (compactedIndex p s.entries))).copy
      (s.batches.map Prod.fst)

/-- The record `r` of the batch `b` is in one of the batches `out`, at its offset. -/
def Survives (b : RecordBatch) (r : Record) (out : List RecordBatch) : Prop :=
  ∃ b' ∈ out, ∃ rs, b'.records = some rs ∧ r ∈ rs ∧ b'.offsetOf r = b.offsetOf r

/-- Self compaction keeps the newest record of every key, whatever the memory limits are, unless it
    is a tombstone past its horizon. -/
def KeepsNewest (cfg : CopyConfig) : Prop :=
  ∀ p, ∃ out, s.copySegmentData cfg p = some out ∧
    ∀ b ∈ s.batches, isCompactible b.1.header → ∀ r ∈ b.2,
      IndexEntry.Newest s.entries (entryOf b.1 r) →
      ¬ (isTombstone r ∧ cfg.pastTombstoneDeleteHorizon) → Survives b.1 r out

/-- The offsets of the segment fit the list of offsets to keep. -/
def Small : Prop :=
  s.committedOffset - s.baseOffset < 2 ^ 32

end Segment

/-! ## Copying the batches -/

namespace SegmentFilter

variable {f : SegmentFilter} {bs : List RecordBatch} {b b' : RecordBatch} {rs : List Record}

/-- The batches that are left are those that the filter makes of each batch. -/
theorem exists_copy_eq (hbs : ∀ b ∈ bs, ∃ rs, b.Encodes rs) :
    ∃ out, f.copy bs = some out ∧
      ∀ b', b' ∈ out ↔ ∃ b ∈ bs, f.filter b = some (some b') := by
  induction bs with
  | nil => exact ⟨[], rfl, fun b' => by simp⟩
  | cons b bs ih =>
    rw [forall_mem_cons] at hbs
    obtain ⟨outs, hcopy, houts⟩ := ih hbs.2
    obtain ⟨rs, hrs⟩ := hbs.1
    obtain ⟨out, hfilter⟩ := Filter.exists_apply_eq_some (f := .segment f) hrs
    replace hfilter : f.filter b = some out := hfilter
    refine ⟨out.toList ++ outs, ?_, fun b' => ?_⟩
    · rw [copy, hfilter, hcopy]
    · rw [mem_append, houts, exists_mem_cons_iff, hfilter, Option.mem_toList]
      simp

variable {keep : Record → Bool → Bool} {r : Record}

theorem mem_offsetDeltasToKeep (hr : r ∈ rs) (hkeep : ∀ last, keep r last) :
    r.offsetDelta ∈ offsetDeltasToKeep keep rs := by
  induction rs with
  | nil => exact nomatch hr
  | cons r' rs ih =>
    rw [offsetDeltasToKeep]
    rcases mem_cons.1 hr with rfl | hr
    · rw [if_pos (hkeep _)]
      exact mem_cons_self
    · split
      · exact mem_cons_of_mem _ (ih hr)
      · exact ih hr

theorem exists_keep_of_mem {d : Int} (hd : d ∈ offsetDeltasToKeep keep rs) :
    ∃ r ∈ rs, r.offsetDelta = d ∧ ∃ last, keep r last := by
  induction rs with
  | nil => exact nomatch hd
  | cons r rs ih =>
    rw [offsetDeltasToKeep] at hd
    split at hd
    · rename_i hkeep
      rcases mem_cons.1 hd with rfl | hd
      · exact ⟨r, mem_cons_self, rfl, _, hkeep⟩
      · obtain ⟨r', hr', hkeep'⟩ := ih hd
        exact ⟨r', mem_cons_of_mem r hr', hkeep'⟩
    · obtain ⟨r', hr', hkeep'⟩ := ih hd
      exact ⟨r', mem_cons_of_mem r hr', hkeep'⟩

theorem length_offsetDeltasToKeep_le (keep : Record → Bool → Bool) (rs : List Record) :
    (offsetDeltasToKeep keep rs).length ≤ rs.length := by
  induction rs with
  | nil => exact le_rfl
  | cons r rs ih =>
    rw [offsetDeltasToKeep]
    split
    · exact Nat.succ_le_succ ih
    · exact ih.trans (Nat.le_succ _)

theorem length_offsetDeltasToKeep_lt (hr : r ∈ rs) (hkeep : ∀ last, ¬ keep r last) :
    (offsetDeltasToKeep keep rs).length < rs.length := by
  induction rs with
  | nil => exact nomatch hr
  | cons r' rs ih =>
    rw [offsetDeltasToKeep]
    rcases mem_cons.1 hr with rfl | hr
    · rw [if_neg (hkeep _)]
      exact Nat.lt_succ_of_le (length_offsetDeltasToKeep_le keep rs)
    · split
      · exact Nat.succ_lt_succ (ih hr)
      · exact (ih hr).trans (Nat.lt_succ_self _)

/-- A batch of which a record is to be kept is not removed. -/
theorem exists_filter_eq_some (hb : b.Encodes rs) (hf : isFilterable b.header.type) (hr : r ∈ rs)
    (hkeep : ∀ last, f.shouldKeep b r last) : ∃ b', f.filter b = some (some b') := by
  have hmem := mem_offsetDeltasToKeep hr hkeep
  have htype : b.header.type ≠ .compactionPlaceholder := by
    intro h
    rw [h] at hf
    exact nomatch hf
  rw [filter, if_neg (fun h => htype h.1), if_neg (not_not.2 hf), hb.records_eq]
  simp only [Option.bind_eq_bind, Option.bind_some]
  rw [if_neg (ne_nil_of_mem hmem)]
  split
  · exact ⟨_, rfl⟩
  · have hselect : r ∈ select (offsetDeltasToKeep (f.shouldKeep b) rs) rs :=
      mem_filter.2 ⟨hr, decide_eq_true hmem⟩
    obtain ⟨first, rest, hcons⟩ := exists_cons_of_ne_nil (ne_nil_of_mem hselect)
    rw [hcons]
    exact ⟨_, rfl⟩

theorem mem_kept (hr : r ∈ rs) (hkeep : ∀ last, f.shouldKeep b r last) :
    r ∈ (Filter.segment f).kept b rs := by
  rw [Filter.kept]
  split
  · exact mem_filter.2 ⟨hr, decide_eq_true (mem_offsetDeltasToKeep hr hkeep)⟩
  · exact hr

theorem not_mem_kept (hf : isFilterable b.header.type) (hr : r ∈ rs)
    (hdeltas : rs.Pairwise fun r r' => r.offsetDelta < r'.offsetDelta)
    (hkeep : ∀ last, ¬ f.shouldKeep b r last) : r ∉ (Filter.segment f).kept b rs := by
  have hrewrites : (Filter.segment f).Rewrites b rs :=
    ⟨hf, (length_offsetDeltasToKeep_lt hr hkeep).ne⟩
  rw [Filter.kept, if_pos hrewrites]
  intro hmem
  obtain ⟨r', hr', hdelta, last, hkeep'⟩ :=
    exists_keep_of_mem (of_decide_eq_true (mem_filter.1 hmem).2)
  -- no other record has the offset
  have hnodup : (rs.map Record.offsetDelta).Nodup := pairwise_map.2 (hdeltas.imp fun h => h.ne)
  obtain rfl := inj_on_of_nodup_map hnodup hr' hr hdelta
  exact hkeep last hkeep'

end SegmentFilter

/-- A filter leaves a batch at its offset. -/
theorem Outcome.baseOffset_eq {f : Filter} {b b' : RecordBatch} {rs rs' : List Record}
    (h : Outcome f b rs rs' b') : b'.header.baseOffset = b.header.baseOffset := by
  cases h <;> rfl

namespace Segment

open IndexEntry

variable {s : Segment} {cfg : CopyConfig} {p : Pressure} {i : IndexEntry}
  {b : RecordBatch × List Record} {r : Record} {offsets : CompactedOffsetList}
  {out : List RecordBatch}

theorem mem_entries_iff :
    i ∈ s.entries ↔ ∃ b ∈ s.batches, isCompactible b.1.header ∧ ∃ r ∈ b.2, entryOf b.1 r = i := by
  rw [entries, mem_flatMap]
  refine exists_congr fun b => and_congr_right fun _ => ?_
  rw [compactionIndexBatch]
  split
  · rename_i hc
    rw [mem_map]
    exact (and_iff_right hc).symm
  · rename_i hc
    exact iff_of_false not_mem_nil fun h => hc h.1

/-- The offset of a record is in the range of its batch. -/
theorem offsetOf_mem (hb : b ∈ s.batches) (hr : r ∈ b.2) :
    b.1.header.baseOffset ≤ b.1.offsetOf r ∧ b.1.offsetOf r ≤ b.1.lastOffset := by
  obtain ⟨hpos, hle⟩ := s.lastDelta b hb r hr
  exact ⟨Int.le_add_of_nonneg_right hpos, Int.add_le_add_left hle _⟩

theorem ordered_entries (s : Segment) : Ordered s.entries := by
  rw [entries, Ordered, pairwise_flatMap]
  refine ⟨fun b hb => ?_, s.ordered.imp_of_mem fun {b c} hb hc hlt => ?_⟩
  · rw [compactionIndexBatch]
    split
    · rw [pairwise_map]
      exact (s.deltas b hb).imp fun h => ⟨Int.add_lt_add_left h _, le_rfl⟩
    · exact Pairwise.nil
  · intro x hx y hy
    have hmem : ∀ d ∈ s.batches, ∀ z ∈ compactionIndexBatch d,
        z.2.baseOffset = d.1.header.baseOffset ∧ z.2.baseOffset ≤ z.2.recordOffset ∧
          z.2.recordOffset ≤ d.1.lastOffset := by
      intro d hd z hz
      rw [compactionIndexBatch] at hz
      split at hz
      · obtain ⟨r, hr, rfl⟩ := mem_map.1 hz
        exact ⟨rfl, offsetOf_mem hd hr⟩
      · cases hz
    obtain ⟨hxbase, hxle, hxlast⟩ := hmem b hb x hx
    obtain ⟨hybase, hyle, -⟩ := hmem c hc y hy
    have hxy : x.2.recordOffset < y.2.baseOffset := hybase ▸ hxlast.trans_lt hlt
    exact ⟨hxy.trans_le hyle, hxle.trans hxy.le⟩

/-- An offset is in only one batch. -/
theorem eq_of_offsetOf_eq {c : RecordBatch × List Record} (hb : b ∈ s.batches) (hc : c ∈ s.batches)
    {r' : Record} (hr : r ∈ b.2) (hr' : r' ∈ c.2) (heq : b.1.offsetOf r = c.1.offsetOf r') :
    b = c := by
  have hrb := offsetOf_mem hb hr
  have hrc := offsetOf_mem hc hr'
  refine (eq_or_rel_of_pairwise s.ordered hb hc).resolve_right fun hor => ?_
  omega

theorem exists_copySegmentData (s : Segment) (cfg : CopyConfig) (p : Pressure) :
    ∃ out, s.copySegmentData cfg p = some out ∧
      ∀ b', b' ∈ out ↔ ∃ b ∈ s.batches.map Prod.fst,
        (cfg.segmentFilter s.committedOffset (generateCompactedList s.baseOffset
          (compactedIndex p s.entries))).filter b = some (some b') := by
  refine SegmentFilter.exists_copy_eq fun b hb => ?_
  obtain ⟨c, hc, rfl⟩ := mem_map.1 hb
  exact ⟨c.2, s.encodes c hc⟩

theorem isFilterable_of_isCompactible {h : RecordBatchHeader} (hc : isCompactible h) :
    isFilterable h.type :=
  (of_decide_eq_true hc).2

/-! ## Segments that are settled -/

/-- Nothing but the list of offsets has a record of a data batch removed. -/
theorem shouldKeep_of_contains {b : RecordBatch}
    (hb : b.header.NonTransactional)
    (htombstone : ¬ (isTombstone r ∧ cfg.pastTombstoneDeleteHorizon))
    (hoffset : offsets.contains (b.offsetOf r)) (o : Int) (last : Bool) :
    cfg.shouldKeep o offsets b r last := by
  obtain ⟨hcontrol, -, htype⟩ := hb
  have hremovable : ¬ cfg.isRemovableControlBatch b.header.type := by
    intro h
    refine htype ?_
    rcases of_decide_eq_true h with ⟨h, -⟩ | h | h | h | h <;> rw [h] <;> decide
  have hdiscard : ¬ cfg.canDiscard b r := by
    intro h
    rcases of_decide_eq_true h with h | h | h
    · exact hremovable h
    · exact htombstone h
    · exact hcontrol h.1
  rw [CopyConfig.shouldKeep, if_neg hdiscard]
  split_ifs
  · rfl
  · exact hoffset
  · rfl

theorem contains_generateCompactedList {l : List IndexEntry} {e : IndexEntry} (he : e ∈ l)
    (base : Int) : (generateCompactedList base l).contains e.2.recordOffset :=
  decide_eq_true (mem_map.2 ⟨e, he, rfl⟩)

theorem survives_of_contains (hb : b ∈ s.batches) (hc : isCompactible b.1.header) (hr : r ∈ b.2)
    (hkeep : ∀ last, cfg.shouldKeep s.committedOffset
      (generateCompactedList s.baseOffset (compactedIndex p s.entries)) b.1 r last)
    (hout : s.copySegmentData cfg p = some out) : Survives b.1 r out := by
  obtain ⟨out', hout', hmem⟩ := exists_copySegmentData s cfg p
  cases hout'.symm.trans hout
  have hencodes := s.encodes b hb
  obtain ⟨b', hfilter⟩ := SegmentFilter.exists_filter_eq_some (f := cfg.segmentFilter _ _) hencodes
    (isFilterable_of_isCompactible hc) hr hkeep
  have houtcome := Filter.outcome_of_segmentFilter hencodes hfilter
  refine ⟨b', (hmem b').2 ⟨b.1, mem_map_of_mem hb, hfilter⟩, _,
    (houtcome.encodes hencodes).records_eq, SegmentFilter.mem_kept hr hkeep, ?_⟩
  rw [offsetOf, houtcome.baseOffset_eq, offsetOf]

theorem keepsNewest_of_settled (hsettled : Settled s.entries) (cfg : CopyConfig) :
    s.KeepsNewest cfg := by
  intro p
  obtain ⟨out, hout, -⟩ := exists_copySegmentData s cfg p
  refine ⟨out, hout, fun b hb hc r hr hnewest htombstone => ?_⟩
  refine survives_of_contains hb hc hr (fun last => ?_) hout
  have hmem := mem_compactedIndex_of_settled (p := p) s.ordered_entries hsettled hnewest
  exact shouldKeep_of_contains (s.nonTransactional b hb) htombstone
    (contains_generateCompactedList hmem s.baseOffset) s.committedOffset last

/-! ## Segments that are not settled -/

/-- A configuration in which nothing but the list of offsets counts. -/
def plainConfig : CopyConfig where
  isConsumerOffsetsTopic := false
  compactionPlaceholderEnabled := true
  pastTombstoneDeleteHorizon := false
  pastTxDeleteHorizon := false
  txBatchCompactionEnabled := false
  isBatchInIdempotentWindow _ := false

theorem not_shouldKeep_plainConfig {b : RecordBatch}
    (hc : isCompactible b.header) (hoffset : ¬ offsets.contains (b.offsetOf r)) (o : Int)
    (last : Bool) : ¬ plainConfig.shouldKeep o offsets b r last := by
  rw [CopyConfig.shouldKeep, if_neg (fun h => h.1 rfl), if_neg (not_not.2 hc)]
  split
  · exact Bool.false_ne_true
  · exact hoffset

/-- Offsets of a small segment are not confused in the list of offsets. -/
theorem relative_inj (hsmall : s.Small) {o o' : Int}
    (ho : s.baseOffset ≤ o ∧ o ≤ s.committedOffset)
    (ho' : s.baseOffset ≤ o' ∧ o' ≤ s.committedOffset)
    (heq : CompactedOffsetList.relative s.baseOffset o =
      CompactedOffsetList.relative s.baseOffset o') : o = o' := by
  rw [Small] at hsmall
  rw [CompactedOffsetList.relative, CompactedOffsetList.relative] at heq
  omega

theorem recordOffset_mem (hi : i ∈ s.entries) :
    s.baseOffset ≤ i.2.recordOffset ∧ i.2.recordOffset ≤ s.committedOffset := by
  obtain ⟨b, hb, -, r, hr, rfl⟩ := mem_entries_iff.1 hi
  obtain ⟨hbase, hlast⟩ := offsetOf_mem hb hr
  obtain ⟨hsbase, hslast⟩ := s.range b hb
  exact ⟨hsbase.trans hbase, hlast.trans hslast⟩

theorem not_contains_of_lost (hsmall : s.Small) (hi : i ∈ s.entries) (hlost : Lost p s.entries i) :
    ¬ (generateCompactedList s.baseOffset (compactedIndex p s.entries)).contains
      i.2.recordOffset := by
  intro h
  obtain ⟨e, he, heq⟩ := mem_map.1 (of_decide_eq_true h)
  obtain ⟨x, hx, rfl⟩ := exists_of_mem_compactedIndex he
  have hrange : s.baseOffset ≤ x.2.recordOffset ∧ x.2.recordOffset ≤ s.committedOffset :=
    recordOffset_mem hx
  exact hlost _ he (relative_inj hsmall hrange (recordOffset_mem hi) heq)

theorem not_survives_of_lost (hsmall : s.Small) (hb : b ∈ s.batches) (hc : isCompactible b.1.header)
    (hr : r ∈ b.2) (hlost : Lost p s.entries (entryOf b.1 r))
    (hout : s.copySegmentData plainConfig p = some out) : ¬ Survives b.1 r out := by
  obtain ⟨out', hout', hmem⟩ := exists_copySegmentData s plainConfig p
  cases hout'.symm.trans hout
  rintro ⟨b', hb', rs, hrs, hrmem, hoffset⟩
  obtain ⟨_, hmap, hfilter⟩ := (hmem b').1 hb'
  obtain ⟨c, hcmem, rfl⟩ := mem_map.1 hmap
  have houtcome := Filter.outcome_of_segmentFilter (s.encodes c hcmem) hfilter
  rw [(houtcome.encodes (s.encodes c hcmem)).records_eq] at hrs
  cases hrs
  rw [offsetOf, houtcome.baseOffset_eq] at hoffset
  -- the batch is that of the record
  obtain rfl := eq_of_offsetOf_eq hcmem hb (houtcome.sublist.subset hrmem) hr hoffset
  have hi := mem_entries_iff.2 ⟨c, hcmem, hc, r, hr, rfl⟩
  exact SegmentFilter.not_mem_kept (isFilterable_of_isCompactible hc) hr (s.deltas c hcmem)
    (not_shouldKeep_plainConfig hc (not_contains_of_lost hsmall hi hlost) s.committedOffset) hrmem

theorem settled_of_keepsNewest (hsmall : s.Small) (hkeeps : s.KeepsNewest plainConfig) :
    Settled s.entries := by
  by_contra hsettled
  obtain ⟨p, i, hnewest, hlost⟩ := exists_lost_of_not_settled s.ordered_entries hsettled
  obtain ⟨b, hb, hc, r, hr, rfl⟩ := mem_entries_iff.1 hnewest.1
  obtain ⟨out, hout, hsurvives⟩ := hkeeps p
  refine not_survives_of_lost hsmall hb hc hr hlost hout ?_
  exact hsurvives b hb hc r hr hnewest fun h => Bool.false_ne_true h.2

/-- Self compaction keeps the newest record of every key of a settled segment, and only of such a
    segment, whatever the memory limits are. -/
theorem settled_iff_keepsNewest (s : Segment) :
    (Settled s.entries → ∀ cfg, s.KeepsNewest cfg) ∧
      (s.Small → (∀ cfg, s.KeepsNewest cfg) → Settled s.entries) :=
  ⟨keepsNewest_of_settled, fun hsmall hkeeps => settled_of_keepsNewest hsmall (hkeeps plainConfig)⟩

/-! ### Two segments -/

/-- The segment of a batch with two records of a key and one of another key between them. -/
def threeSegment : Segment where
  baseOffset := 10
  committedOffset := 12
  batches := [(Filter.threeBatch, Filter.threeRecords)]
  encodes := forall_mem_singleton.2 Filter.threeBatch_encodes
  nonTransactional := by decide
  deltas := by decide
  lastDelta := by decide
  ordered := by decide
  range := by decide

/-- A batch with a record of the first key. -/
def laterBatch : RecordBatch where
  header :=
    { sizeBytes := 70, baseOffset := 13, type := .raftData, lastOffsetDelta := 0
      firstTimestamp := 110, maxTimestamp := 110, producerId := 4, producerEpoch := 0
      baseSequence := 23, recordCount := 1 }
  data := (Filter.smallRecord 1 0 0).appendRecordToBuffer

theorem laterBatch_encodes : laterBatch.Encodes [Filter.smallRecord 1 0 0] where
  recordCount := rfl
  data := by decide
  wf := forall_mem_singleton.2 (Filter.smallRecord_wf (by decide) (by decide) (by decide))

/-- The segment of both batches. -/
def fourSegment : Segment where
  baseOffset := 10
  committedOffset := 13
  batches := [(Filter.threeBatch, Filter.threeRecords), (laterBatch, [Filter.smallRecord 1 0 0])]
  encodes :=
    forall_mem_cons.2 ⟨Filter.threeBatch_encodes, forall_mem_singleton.2 laterBatch_encodes⟩
  nonTransactional := by decide
  deltas := by decide
  lastDelta := by decide
  ordered := by decide
  range := by decide

theorem settled_iff_keepsNewest_fourSegment :
    Settled fourSegment.entries ∧ ∀ cfg, fourSegment.KeepsNewest cfg := by
  have hsettled : Settled fourSegment.entries := ⟨by decide, by decide⟩
  exact ⟨hsettled, (settled_iff_keepsNewest fourSegment).1 hsettled⟩

/-- The record at 12 is the newest one of its key, but the record at 10 is kept in its place. -/
theorem not_keepsNewest_threeSegment :
    Newest threeSegment.entries (entryOf Filter.threeBatch (Filter.smallRecord 1 7 2)) ∧
      (threeSegment.copySegmentData plainConfig (.all threeSegment.entries)).map
          (·.map RecordBatch.records) =
        some [some [Filter.smallRecord 1 0 0, Filter.smallRecord 2 5 1]] ∧
      ¬ threeSegment.KeepsNewest plainConfig := by
  have hnewest :
      Newest threeSegment.entries (entryOf Filter.threeBatch (Filter.smallRecord 1 7 2)) := by
    decide
  have heval : (threeSegment.copySegmentData plainConfig (.all threeSegment.entries)).map
      (·.map RecordBatch.records) =
        some [some [Filter.smallRecord 1 0 0, Filter.smallRecord 2 5 1]] := by
    decide
  refine ⟨hnewest, heval, fun hkeeps => ?_⟩
  obtain ⟨out, hout, hsurvives⟩ := hkeeps (.all threeSegment.entries)
  rw [hout, Option.map_some, Option.some_inj] at heval
  obtain ⟨b', hb', rs, hrs, hr, -⟩ := hsurvives (Filter.threeBatch, Filter.threeRecords)
    mem_cons_self rfl (Filter.smallRecord 1 7 2) (by decide) hnewest (by decide)
  have hmem : some rs ∈ out.map RecordBatch.records := mem_map.2 ⟨b', hb', hrs⟩
  rw [heval, mem_singleton, Option.some_inj] at hmem
  rw [hmem] at hr
  exact absurd hr (by decide)

end Segment

end Redpanda.Compaction
