import Redpanda.Cluster.AbortedIndex

/-!
# Queries for aborted transactions are exact

At every moment, a replica answers a query for aborted transactions with exactly those whose abort
marker it has applied (`SnapshotReplica.perm_aborted_of_run`), whatever it did about snapshots.
The invariant (`SnapshotReplica.Inv`) says so of the memory and the files, of the snapshot on
the disk, which the replica may have to start from, and of the one that is being taken.

A file is never replaced while something refers to it. That is since the indexes that the snapshot
on the disk has are in memory, too, unless they have expired, and a new file has a range that
none of the others has.

The state machine ignores a fence that has a lower epoch than its producer, and the marker which
ends the transaction of that fence adds the transaction before a second time
(`SnapshotReplica.exists_run_not_perm_aborted`).
-/

namespace Redpanda.Cluster

open Lib List

/-! ## The invariant -/

/-- The data of a snapshot stands for the log up to a position. -/
structure TxSnapshot.Restores (data : TxSnapshot) (log : List RecordBatch) (files : AbortFiles)
    (startOffset : Int) : Prop where
  tracks : Tracks (RmStm.restoreProducers data.producers) log
  covers : Covers data.aborted data.abortIndexes files startOffset (abortedTxs log)

namespace SnapshotReplica

/-- The indexes in memory. -/
abbrev indexes (σ : SnapshotReplica) : List AbortIndex := σ.stm.abortedTxState.abortIndexes

/-- The abort snapshot in memory. -/
abbrev cached (σ : SnapshotReplica) : AbortSnapshot := σ.stm.abortedTxState.lastAbortSnapshot

/-- While files are being saved, the ranges for them are still in memory, the indexes which will
    be kept are known, and nothing refers to the new files. -/
structure Saving (log : List RecordBatch) (σ : SnapshotReplica) (t : TakingSnapshot)
    (position : Nat) (left : List AbortSnapshot) (retained : List AbortIndex) : Prop where
  tracks : Tracks (RmStm.restoreProducers t.stmSnapshot.producers) (log.take position)
  covers : Covers (t.stmSnapshot.aborted ++ t.abortedSnapshots.flatMap (·.aborted)) retained
    σ.files σ.startOffset (abortedTxs (log.take position))
  final_eq : t.finalAbortIndexes = retained ++ t.abortedSnapshots.map (·.index)
  abortIndexes_eq : t.stmSnapshot.abortIndexes = t.finalAbortIndexes
  offloaded_eq : t.rangesOffloaded = t.abortedSnapshots.flatMap (·.aborted)
  indexes_perm : σ.indexes.Perm (retained ++ t.expiredAbortIndexes)
  expired : ∀ idx ∈ t.expiredAbortIndexes, idx.last < σ.startOffset
  aborted_perm : ∃ rest, σ.stm.abortedTxState.aborted.Perm (rest ++ t.rangesOffloaded)
  tight : ∀ a ∈ t.abortedSnapshots, a.Tight
  nodup : (t.abortedSnapshots.map (·.index)).Nodup
  left_subset : left ⊆ t.abortedSnapshots
  saved : ∀ a ∈ t.abortedSnapshots, a ∈ left ∨ σ.files a.index = some a
  fresh : ∀ a ∈ t.abortedSnapshots, a.index ∉ σ.indexes
  fresh_local : ∀ a ∈ t.abortedSnapshots, ∀ l, σ.localSnapshot = some l →
    a.index ∉ l.data.abortIndexes

/-- While files are being removed, the snapshot is complete. -/
structure Removing (log : List RecordBatch) (σ : SnapshotReplica) (t : TakingSnapshot)
    (position : Nat) (left : List AbortIndex) : Prop where
  restores : t.stmSnapshot.Restores (log.take position) σ.files σ.startOffset
  indexes_eq : σ.indexes = t.stmSnapshot.abortIndexes
  expired : ∀ idx ∈ left, idx.last < σ.startOffset

/-- What holds of a snapshot that is being taken. -/
def TakingInv (log : List RecordBatch) (σ : SnapshotReplica) : Taking → Prop
  | ⟨t, position, .saving left⟩ => ∃ retained, Saving log σ t position left retained
  | ⟨t, position, .removing left⟩ => Removing log σ t position left

/-- What holds of the snapshot on the disk. -/
structure LocalInv (log : List RecordBatch) (σ : SnapshotReplica) (l : LocalSnapshot) : Prop where
  restores : l.data.Restores (log.take l.position) σ.files σ.startOffset
  subset : ∀ idx ∈ l.data.abortIndexes, idx.last < σ.startOffset ∨ idx ∈ σ.indexes

structure Inv (log : List RecordBatch) (σ : SnapshotReplica) : Prop where
  start_nonneg : 0 ≤ σ.startOffset
  tracks : Tracks σ.stm.producers (log.take σ.applied)
  covers : Covers σ.stm.abortedTxState.aborted σ.indexes σ.files σ.startOffset
    (abortedTxs (log.take σ.applied))
  cached : σ.cached.last < σ.startOffset ∨
    σ.cached.index ∈ σ.indexes ∧ σ.files σ.cached.index = some σ.cached
  onDisk : ∀ l, σ.localSnapshot = some l → LocalInv log σ l
  taking : ∀ t, σ.taking = some t → TakingInv log σ t

theorem inv_init (log : List RecordBatch) : Inv log {} where
  start_nonneg := le_rfl
  tracks := tracks_empty
  covers := ⟨⟨[], by simp, .refl _⟩, nofun,
    nofun⟩
  cached := .inl (by decide)
  onDisk := by simp
  taking := by simp

section

variable {log : List RecordBatch} {σ σ' : SnapshotReplica} {a : AbortSnapshot}

/-! ## Applying -/

section

variable (h : Inv log σ)

include h

theorem Inv.apply (hends : EndsOpen log) (hfences : FencesAscend log)
    (hstep : σ.Step log .apply σ') : Inv log σ' := by
  simp only [Step, next, Option.bind_eq_bind, Option.bind_eq_some_iff] at hstep
  obtain ⟨b, hb, stm, hstm, hσ⟩ := hstep
  cases hσ
  obtain ⟨hlt, rfl⟩ := List.getElem?_eq_some_iff.1 hb
  have htake : log.take (σ.applied + 1) = log.take σ.applied ++ [log[σ.applied]] := by
    rw [take_add_one, hb]
    rfl
  have hstate := RmStm.abortedTxState_doApply hstm
  have hidx : stm.abortedTxState.abortIndexes = σ.indexes := by rw [hstate]
  have hcached : stm.abortedTxState.lastAbortSnapshot = σ.cached := by rw [hstate]
  refine ⟨h.start_nonneg, ?_, ?_, ?_, ?_, ?_⟩
  · simp only [htake]
    exact h.tracks.doApply hstm (hfences _ hlt)
  · simp only [htake, abortedTxs_concat, indexes, hidx]
    rw [hstate]
    exact h.covers.abort (RmStm.map_abortedBy h.tracks (hends _ hlt))
  · simpa only [SnapshotReplica.cached, indexes, hidx, hcached] using h.cached
  · intro l hl
    obtain ⟨hr, hs⟩ := h.onDisk l hl
    exact ⟨hr, by simpa only [indexes, hidx] using hs⟩
  · intro t ht
    have hinv := h.taking t ht
    rcases t with ⟨t, k, left | left⟩
    · obtain ⟨retained, hs⟩ := hinv
      refine ⟨retained, { hs with
        indexes_perm := by simpa only [indexes, hidx] using hs.indexes_perm
        fresh := by simpa only [indexes, hidx] using hs.fresh
        aborted_perm := ?_ }⟩
      obtain ⟨rest, hrest⟩ := hs.aborted_perm
      -- a snapshot being taken has seen the state before: the new ranges are left to the rest
      refine ⟨rest ++ σ.stm.abortedBy log[σ.applied], ?_⟩
      simp only [hstate]
      refine (hrest.append_right _).trans ?_
      rw [append_assoc, append_assoc]
      exact perm_append_comm.append_left _
    · exact { hinv with indexes_eq := by simpa only [indexes, hidx] using hinv.indexes_eq }

/-! ## The front of the log is dropped -/

theorem Inv.truncate {start : Int} (hle : σ.startOffset ≤ start) :
    Inv log { σ with startOffset := start } where
  start_nonneg := h.start_nonneg.trans hle
  tracks := h.tracks
  covers := h.covers.mono hle
  cached := h.cached.imp_left fun hlt => hlt.trans_le hle
  onDisk l hl :=
    let hl := h.onDisk l hl
    ⟨⟨hl.restores.tracks, hl.restores.covers.mono hle⟩, fun idx hidx =>
      (hl.subset idx hidx).imp_left fun hlt => hlt.trans_le hle⟩
  taking t ht := by
    have hinv := h.taking t ht
    rcases t with ⟨t, k, left | left⟩
    · obtain ⟨retained, hs⟩ := hinv
      exact ⟨retained, { hs with
        covers := hs.covers.mono hle
        expired := fun idx hidx => (hs.expired idx hidx).trans_le hle }⟩
    · exact { hinv with
        restores := ⟨hinv.restores.tracks, hinv.restores.covers.mono hle⟩
        expired := fun idx hidx => (hinv.expired idx hidx).trans_le hle }

/-! ## A snapshot is begun -/

/-- The ranges in memory and in the files begin at different offsets. -/
theorem Inv.nodup_first (hlog : Ordered log) : ((σ.stm.abortedTxState.aborted.map (·.first)) ++
      (σ.indexes.flatMap σ.files.offsets).map (·.1)).Nodup := by
  obtain ⟨old, -, hp⟩ := h.covers.perm
  have hnodup := (hp.map (·.1)).nodup_iff.2 (hlog.beginApart σ.applied).nodup
  rw [map_append, map_append, map_map] at hnodup
  exact hnodup.of_append_left

/-- A new file is not one of those that the indexes refer to. -/
theorem Inv.index_not_mem (hlog : Ordered log) (ha : a.Tight)
    (hmem : ∀ r ∈ a.aborted, r ∈ σ.stm.abortedTxState.aborted ∧ σ.startOffset ≤ r.last) :
    a.index ∉ σ.indexes := by
  intro hidx
  obtain ⟨r, hr, hfirst⟩ := ha.exists_first
  rcases hf : σ.files a.index with - | f
  · have hlt : a.last < σ.startOffset := h.covers.expired _ hidx hf
    exact absurd ((hmem r hr).2.trans (ha.bounds r hr).2) (not_le.2 hlt)
  · -- the two have a range with the same first offset
    obtain ⟨heq, htight⟩ := h.covers.file _ hidx f hf
    obtain ⟨r', hr', hfirst'⟩ := htight.exists_first
    have hoff : r'.offsets ∈ σ.indexes.flatMap σ.files.offsets := by
      refine mem_flatMap.2 ⟨_, hidx, ?_⟩
      rw [AbortFiles.offsets, hf]
      exact mem_map_of_mem hr'
    have hsame : r.first = r'.first := by
      rw [hfirst, hfirst']
      exact (congrArg AbortIndex.first heq).symm
    exact (nodup_append.1 (h.nodup_first hlog)).2.2 _ (mem_map_of_mem (hmem r hr).1) _
      (mem_map_of_mem hoff) hsame

omit h in
/-- The new files have different names. -/
theorem nodup_index {as : List AbortSnapshot} (htight : ∀ a ∈ as, a.Tight)
    (h : ((as.flatMap (·.aborted)).map (·.first)).Nodup) : (as.map (·.index)).Nodup := by
  rw [map_flatMap] at h
  refine pairwise_map.2 ((nodup_flatMap.1 h).2.imp_of_mem fun {a a'} ha ha' hd heq => ?_)
  obtain ⟨r, hr, hfirst⟩ := (htight a ha).exists_first
  obtain ⟨r', hr', hfirst'⟩ := (htight a' ha').exists_first
  have hsame : r.first = r'.first := by
    rw [hfirst, hfirst']
    exact congrArg AbortIndex.first heq
  exact hd (mem_map_of_mem hr) (hsame ▸ mem_map_of_mem hr')

theorem Inv.take (hlog : Ordered log) {size : Nat}
    (hstep : σ.Step log (.take size) σ') : Inv log σ' := by
  simp only [Step, next] at hstep
  split at hstep
  · exact nomatch hstep
  cases hstep
  obtain ⟨hfilter, hsplit, htight⟩ :=
    σ.stm.perm_startLocalSnapshot size σ.startOffset (σ.lastAppliedOffset log)
  have hcovers := h.covers.filter.congr hfilter
  -- the offloaded indexes hold only ranges that the state had and the start has not passed
  have hmem : ∀ a ∈ (σ.stm.startLocalSnapshot size σ.startOffset
      (σ.lastAppliedOffset log)).2.abortedSnapshots, ∀ r ∈ a.aborted,
      r ∈ σ.stm.abortedTxState.aborted ∧ σ.startOffset ≤ r.last := fun a ha r hr => by
    have := hfilter.subset (hsplit.symm.subset
      (mem_append_right _ (mem_flatMap.2 ⟨a, ha, hr⟩)))
    simpa using mem_filter.1 this
  -- the indexes split into those still needed and those that have expired
  have hidxs : σ.indexes.Perm (σ.indexes.filter (fun idx => !decide (idx.last < σ.startOffset)) ++
      σ.indexes.filter fun idx => decide (idx.last < σ.startOffset)) :=
    (filter_append_perm (fun idx => decide (idx.last < σ.startOffset)) _).symm.trans
      perm_append_comm
  have hexpired : ∀ idx ∈ σ.indexes.filter fun idx => decide (idx.last < σ.startOffset),
      idx.last < σ.startOffset := fun idx hidx => by simpa using (mem_filter.1 hidx).2
  refine ⟨h.start_nonneg, h.tracks, hcovers, h.cached,
    fun l hl => ⟨(h.onDisk l hl).restores, (h.onDisk l hl).subset⟩, ?_⟩
  rintro t ht
  cases ht
  refine ⟨σ.indexes.filter fun idx => !decide (idx.last < σ.startOffset), ?_⟩
  exact
    { tracks := h.tracks.snapshot σ.startOffset
      covers := (hcovers.congr hsplit.symm).drop hidxs hexpired
      final_eq := rfl
      abortIndexes_eq := rfl
      offloaded_eq := rfl
      indexes_perm := hidxs
      expired := hexpired
      aborted_perm := ⟨_, hsplit⟩
      tight := htight
      nodup := by
        refine nodup_index htight ?_
        have hnodup := (hfilter.map (·.first)).nodup_iff.2
          ((h.nodup_first hlog).of_append_left.sublist (filter_sublist.map _))
        have hnodup' := (hsplit.map (·.first)).nodup_iff.1 hnodup
        rw [map_append] at hnodup'
        exact hnodup'.of_append_right
      left_subset := fun _ => id
      saved := fun a ha => .inl ha
      fresh := fun a ha => h.index_not_mem hlog (htight a ha) (hmem a ha)
      fresh_local := fun a ha l hl hidx => by
        rcases (h.onDisk l hl).subset _ hidx with hlt | hidx
        · obtain ⟨r, hr, -⟩ := (htight a ha).exists_first
          exact absurd ((hmem a ha r hr).2.trans ((htight a ha).bounds r hr).2) (not_le.2 hlt)
        · exact h.index_not_mem hlog (htight a ha) (hmem a ha) hidx }

/-! ## Files are saved and removed -/

theorem Inv.save (hstep : σ.Step log (.save a) σ') : Inv log σ' := by
  simp only [Step, next] at hstep
  split at hstep
  · rename_i t k left ht
    obtain ⟨ha, hstep⟩ := Option.ite_none_right_eq_some.1 hstep
    cases hstep
    obtain ⟨retained, hs⟩ := h.taking _ ht
    have hmem := hs.left_subset ha
    have hretained : a.index ∉ retained := fun hidx =>
      hs.fresh a hmem (hs.indexes_perm.symm.subset (mem_append_left _ hidx))
    refine ⟨h.start_nonneg, h.tracks, h.covers.save (hs.fresh a hmem) _, ?_, ?_, ?_⟩
    · refine h.cached.imp_right fun ⟨hidx, hf⟩ => ⟨hidx, ?_⟩
      simp only [Function.update_of_ne (ne_of_mem_of_not_mem hidx (hs.fresh a hmem))]
      exact hf
    · intro l hl
      obtain ⟨hr, hsub⟩ := h.onDisk l hl
      exact ⟨⟨hr.tracks, hr.covers.save (hs.fresh_local a hmem l hl) _⟩, hsub⟩
    · rintro t' ht'
      cases ht'
      refine ⟨retained, { hs with
        covers := hs.covers.save hretained _
        left_subset := fun a' ha' => hs.left_subset (mem_of_mem_erase ha')
        saved := fun a' ha' => ?_ }⟩
      by_cases heq : a' = a
      · exact .inr (by simp [heq])
      · refine (hs.saved a' ha').imp (fun hleft => (mem_erase_of_ne heq).2 hleft) fun hf => ?_
        have hne : a'.index ≠ a.index := fun hidx =>
          heq (inj_on_of_nodup_map hs.nodup ha' hmem hidx)
        simpa only [Function.update_of_ne hne] using hf
  · exact nomatch hstep

theorem Inv.remove {idx : AbortIndex} (hstep : σ.Step log (.remove idx) σ') : Inv log σ' := by
  simp only [Step, next] at hstep
  split at hstep
  · rename_i t k left ht
    obtain ⟨hidx, hstep⟩ := Option.ite_none_right_eq_some.1 hstep
    cases hstep
    have hr : Removing log σ t k left := h.taking _ ht
    have hlt := hr.expired idx hidx
    refine ⟨h.start_nonneg, h.tracks, h.covers.remove hlt, ?_, ?_, ?_⟩
    · by_cases heq : σ.cached.index = idx
      · exact .inl (by rw [← heq] at hlt; exact hlt)
      · refine h.cached.imp_right fun ⟨hmem, hf⟩ => ⟨hmem, ?_⟩
        simpa only [Function.update_of_ne heq] using hf
    · intro l hl
      obtain ⟨hres, hsub⟩ := h.onDisk l hl
      exact ⟨⟨hres.tracks, hres.covers.remove hlt⟩, hsub⟩
    · rintro t' ht'
      cases ht'
      exact
        { restores := ⟨hr.restores.tracks, hr.restores.covers.remove hlt⟩
          indexes_eq := hr.indexes_eq
          expired := fun idx' h' => hr.expired idx' (mem_of_mem_erase h') }
  · exact nomatch hstep

/-! ## The files replace the ranges -/

omit h in
/-- What is left in memory of ranges when some of them are taken away. -/
theorem perm_filter_not_mem {α : Type} [DecidableEq α] {l rest taken : List α}
    (h : l.Perm (rest ++ taken)) (hl : l.Nodup) : (l.filter (· ∉ taken)).Perm rest := by
  have hnodup := nodup_append.1 (h.nodup_iff.1 hl)
  refine (h.filter _).trans (Perm.of_eq ?_)
  rw [filter_append, filter_eq_self.2, filter_eq_nil_iff.2, append_nil]
  · exact fun a ha => by simpa using ha
  · exact fun a ha => by simpa using fun ha' => hnodup.2.2 a ha a ha' rfl

theorem Inv.finish (hlog : Ordered log) (hstep : σ.Step log .finish σ') : Inv log σ' := by
  simp only [Step, next] at hstep
  split at hstep
  · rename_i t k ht
    cases hstep
    obtain ⟨retained, hs⟩ := h.taking _ ht
    obtain ⟨rest, hrest⟩ := hs.aborted_perm
    have hsaved : ∀ a ∈ t.abortedSnapshots, σ.files a.index = some a := fun a ha =>
      (hs.saved a ha).resolve_left not_mem_nil
    -- begin offsets are distinct, so the filter removes just the ranges that were offloaded
    have hperm : (σ.stm.abortedTxState.aborted.filter (· ∉ t.rangesOffloaded)).Perm rest :=
      perm_filter_not_mem hrest (h.nodup_first hlog).of_append_left.of_map
    have hcovers := h.covers.congr hrest.symm
    rw [hs.offloaded_eq] at hcovers
    have hdrop := (hcovers.drop hs.indexes_perm hs.expired).offload hsaved hs.tight
    -- an index is gone only if the log has been truncated beyond it
    have hmem : ∀ idx ∈ σ.indexes, idx.last < σ.startOffset ∨ idx ∈ t.finalAbortIndexes := by
      intro idx hidx
      rcases mem_append.1 (hs.indexes_perm.subset hidx) with hidx | hidx
      · rw [hs.final_eq]
        exact .inr (mem_append_left _ hidx)
      · exact .inl (hs.expired idx hidx)
    refine ⟨h.start_nonneg, h.tracks, ?_, ?_, ?_, ?_⟩
    · rw [← hs.final_eq] at hdrop
      exact hdrop.congr hperm
    · rcases h.cached with hlt | ⟨hidx, hf⟩
      · exact .inl hlt
      · exact (hmem _ hidx).imp_right fun hidx => ⟨hidx, hf⟩
    · intro l hl
      obtain ⟨hr, hsub⟩ := h.onDisk l hl
      exact ⟨hr, fun idx hidx => (hsub idx hidx).elim .inl (hmem idx)⟩
    · rintro t' ht'
      cases ht'
      refine ⟨⟨hs.tracks, ?_⟩, hs.abortIndexes_eq.symm, hs.expired⟩
      rw [hs.abortIndexes_eq, hs.final_eq]
      exact hs.covers.offload hsaved hs.tight
  · exact nomatch hstep

/-! ## The snapshot is written and restored -/

theorem Inv.write (hstep : σ.Step log .write σ') : Inv log σ' := by
  simp only [Step, next] at hstep
  split at hstep
  · rename_i t k ht
    cases hstep
    have hr : Removing log σ t k [] := h.taking _ ht
    refine ⟨h.start_nonneg, h.tracks, h.covers, h.cached, ?_, by simp⟩
    rintro l hl
    cases hl
    refine ⟨hr.restores, fun idx hidx => .inr ?_⟩
    exact hr.indexes_eq ▸ hidx
  · exact nomatch hstep

theorem Inv.restart (hstep : σ.Step log .restart σ') : Inv log σ' := by
  simp only [Step, next] at hstep
  cases hstep
  rcases hl : σ.localSnapshot with - | l
  · have hlt : (-1 : Int) < σ.startOffset := lt_of_lt_of_le (by decide) h.start_nonneg
    refine ⟨h.start_nonneg, ?_, ?_, .inl hlt, ?_, ?_⟩
    · simpa [snapshotPosition, hl] using tracks_empty
    · have hpos : σ.snapshotPosition = 0 := by rw [snapshotPosition, hl]; rfl
      simp only [hpos]
      exact ⟨⟨[], by simp, .refl _⟩,
        nofun, nofun⟩
    · exact by simp
    · exact by simp
  · obtain ⟨hr, -⟩ := h.onDisk l hl
    have hpos : σ.snapshotPosition = l.position := by rw [snapshotPosition, hl]; rfl
    refine ⟨h.start_nonneg, ?_, ?_, ?_, ?_, by simp⟩
    · simp only [hpos]
      exact hr.tracks
    · simp only [hpos]
      exact hr.covers
    · -- the cached file is the one of the last index
      simp only [SnapshotReplica.cached, indexes, Option.elim_some, RmStm.applyLocalSnapshot]
      rcases hf : (if 0 < (RmStm.lastAbortIndex l.data.abortIndexes).last then
        σ.files (RmStm.lastAbortIndex l.data.abortIndexes) else none) with - | f
      · exact .inl (lt_of_lt_of_le (by decide) h.start_nonneg)
      · obtain ⟨hpos, hf⟩ := Option.ite_none_right_eq_some.1 hf
        have hmem := lastAbortIndex_mem hpos
        obtain ⟨heq, -⟩ := hr.covers.file _ hmem f hf
        rw [Option.getD_some, heq]
        exact .inr ⟨hmem, hf⟩
    · rintro l' hl'
      cases hl'
      exact ⟨hr, fun idx hidx => .inr hidx⟩

theorem Inv.step (hlog : Ordered log) (hends : EndsOpen log)
    (hfences : FencesAscend log) {a : SnapshotAction} (hstep : σ.Step log a σ') :
    Inv log σ' := by
  cases a with
  | apply => exact h.apply hends hfences hstep
  | truncate start =>
    simp only [Step, next] at hstep
    obtain ⟨hle, hstep⟩ := Option.ite_none_right_eq_some.1 hstep
    cases hstep
    exact h.truncate hle.1
  | take size => exact h.take hlog hstep
  | save a => exact h.save hstep
  | finish => exact h.finish hlog hstep
  | remove idx => exact h.remove hstep
  | write => exact h.write hstep
  | restart => exact h.restart hstep

end

/-- Whatever a replica did, it answers a query with the transactions whose abort marker is
    applied and which have an offset in the range of the query, each of them once. Fences must
    not lower the epoch of their producers. -/
theorem perm_aborted_of_run (hlog : Ordered log) (hends : EndsOpen log)
    (hfences : FencesAscend log) {as : List SnapshotAction} (hrun : Run (Step log) {} as σ)
    {lo hi : Int} (hlo : σ.startOffset ≤ lo) :
    ((σ.stm.abortedTxState.doAbortedTransactions σ.files lo hi).map (·.offsets)).Perm
        ((abortedTxs (log.take σ.applied)).filter (intersects lo hi)) ∧
      ((σ.stm.abortedTxState.doAbortedTransactions σ.files lo hi).map (·.offsets)).Nodup := by
  have hinv : Inv log σ := Run.invariant
    (fun h hstep => h.step hlog hends hfences hstep) hrun (inv_init log)
  refine ⟨?perm, (Perm.nodup_iff ?perm).2 (Nodup.filter _ ?_)⟩
  · exact hinv.covers.perm_doAbortedTransactions (hinv.cached.imp_right fun h => h.2) hlo
  · exact (hlog.beginApart σ.applied).nodup.of_map

end

end SnapshotReplica

/-! ## Two logs -/

namespace SnapshotReplica

/-- A batch of producer 1 at an offset. -/
def batchOf (epoch offset : Int) (kind : BatchKind) : RecordBatch :=
  ⟨{ baseOffset := offset, lastOffsetDelta := 0, producerId := 1, producerEpoch := epoch,
     baseSequence := 0, isTransactional := true }, kind⟩

/-- Two transactions that are aborted. -/
def twoAborted (epoch epoch' : Int) : List RecordBatch :=
  [batchOf epoch 0 (.fence (some 0)), batchOf epoch 1 .data, batchOf epoch 2 (.control .txAbort),
    batchOf epoch' 3 (.fence (some 1)), batchOf epoch' 4 (.control .txAbort)]

theorem ordered_twoAborted (epoch epoch' : Int) : Ordered (twoAborted epoch epoch') :=
  ⟨by simp [twoAborted, batchOf, RecordBatchHeader.lastOffset],
    by simp [twoAborted, batchOf, RecordBatchHeader.lastOffset]⟩

/-- The first transaction is in a file when the second one is applied, and there is a restart
    in between. -/
def restartRun : List SnapshotAction :=
  [.apply, .apply, .apply, .take 0, .save ⟨0, 1, [⟨⟨1, 3⟩, 0, 1⟩]⟩, .finish, .write, .apply,
    .restart, .apply, .apply]

theorem perm_aborted_of_run_restart :
    ∃ σ, Run (Step (twoAborted 3 5)) {} restartRun σ ∧ σ.applied = 5 ∧
      ((σ.stm.abortedTxState.doAbortedTransactions σ.files 0 4).map (·.offsets)).Perm
        [(0, 1), (3, 3)] := by
  have h : (restartRun.foldlM (next (twoAborted 3 5)) {}).map
      (fun σ => (σ.applied, σ.startOffset)) = some (5, 0) := by decide
  obtain ⟨σ, hrun, hσ⟩ := Run.exists_of_map_foldlM h
  obtain ⟨happlied, hstart⟩ := Prod.mk.inj hσ
  refine ⟨σ, hrun, happlied, ?_⟩
  have hperm := (perm_aborted_of_run (ordered_twoAborted 3 5) (by decide) (by decide) hrun
    hstart.le : _ ∧ ((σ.stm.abortedTxState.doAbortedTransactions σ.files 0 4).map _).Nodup).1
  rwa [happlied] at hperm

/-- The state machine ignores a fence with a lower epoch, and takes the marker after it for the
    end of the transaction before. -/
theorem exists_run_not_perm_aborted :
    ∃ log as σ, Ordered log ∧ EndsOpen log ∧ Run (Step log) {} as σ ∧ σ.startOffset ≤ 0 ∧
      (σ.stm.abortedTxState.doAbortedTransactions σ.files 0 4).map (·.offsets) =
        [(0, 1), (0, 1)] ∧
      (abortedTxs (log.take σ.applied)).filter (intersects 0 4) = [(0, 1), (3, 3)] := by
  have h : ((replicate 5 SnapshotAction.apply).foldlM (next (twoAborted 5 3)) {}).map
      (fun σ => (σ.applied, σ.startOffset,
          (σ.stm.abortedTxState.doAbortedTransactions σ.files 0 4).map (·.offsets))) =
      some (5, 0, [(0, 1), (0, 1)]) := by decide
  obtain ⟨σ, hrun, hσ⟩ := Run.exists_of_map_foldlM h
  obtain ⟨happlied, hσ⟩ := Prod.mk.inj hσ
  obtain ⟨hstart, hquery⟩ := Prod.mk.inj hσ
  refine ⟨twoAborted 5 3, _, σ, ordered_twoAborted 5 3, by decide, hrun,
    hstart.le, hquery, ?_⟩
  rw [happlied]
  decide

end SnapshotReplica

end Redpanda.Cluster
