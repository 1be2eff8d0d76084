import Redpanda.Datalake.FileCommitter
import Redpanda.Lib.Pairwise

/-!
# What a committer finds and collects

The snapshots of a table form a history in which each one is based on an earlier one
(`Rooted`). The commit offset found in a table is the one of the last commit of the cluster
(`getIcebergCommittedOffset_addSnapshot`), whatever snapshots other writers add on top of it
(`getIcebergCommittedOffset_addSnapshot_foreign`).

From a list of pending entries a builder collects the files of exactly those that are not to
be skipped, and the largest offset at which one of the entries was added (`Collected`,
`processEntries_eq_ok`).
-/

namespace Redpanda.Datalake

open Lib Model Lib.Except List

/-! ## Histories of snapshots -/

/-- Each snapshot has an id of its own, and its parent comes before it. -/
inductive Rooted : List Snapshot → Prop
  | nil : Rooted []
  | snoc {l : List Snapshot} {x : Snapshot} : Rooted l → x.id ∉ l.map (·.id) →
      (∀ p ∈ x.parentSnapshotId, p ∈ l.map (·.id)) → Rooted (l ++ [x])

theorem find?_append_of_mem {l : List Snapshot} {id : SnapshotId} (hid : id ∈ l.map (·.id))
    (x : Snapshot) :
    (l ++ [x]).find? (fun snap => snap.id = id) = l.find? fun snap => snap.id = id := by
  rw [find?_append]
  obtain ⟨y, hy, rfl⟩ := mem_map.1 hid
  have hsome : (l.find? fun snap => snap.id = y.id).isSome :=
    find?_isSome.2 ⟨y, hy, by simp⟩
  obtain ⟨z, hz⟩ := Option.isSome_iff_exists.1 hsome
  rw [hz]
  rfl

theorem find?_append_of_not_mem {l : List Snapshot} {x : Snapshot} (hid : x.id ∉ l.map (·.id)) :
    (l ++ [x]).find? (fun snap => snap.id = x.id) = some x := by
  rw [find?_append, find?_eq_none.2]
  · simp
  · intro y hy
    simp only [decide_eq_true_eq]
    exact fun heq => hid (heq ▸ mem_map_of_mem hy)

namespace Rooted

variable {l : List Snapshot}

theorem parent_mem (h : Rooted l) {x : Snapshot} (hx : x ∈ l) {p : SnapshotId}
    (hp : p ∈ x.parentSnapshotId) : p ∈ l.map (·.id) := by
  induction h with
  | nil => cases hx
  | @snoc l y _ _ hparent ih =>
    rw [map_append]
    refine mem_append_left _ ?_
    rcases mem_concat.1 hx with hx | rfl
    · exact ih hx
    · exact hparent p hp

/-- What is found from a snapshot does not depend on later ones. -/
theorem committedOffsetFrom_append (h : Rooted l) (cluster : ClusterUuid) (x : Snapshot) (n : Nat)
    {id : SnapshotId} (hid : id ∈ l.map (·.id)) :
    committedOffsetFrom (l ++ [x]) cluster n id = committedOffsetFrom l cluster n id := by
  induction n generalizing id with
  | zero => rfl
  | succ n ih =>
    simp only [committedOffsetFrom, find?_append_of_mem hid x]
    rcases hfind : l.find? (fun snap => snap.id = id) with _ | snap
    · simp only [hfind]
    rcases hparent : snap.parentSnapshotId with _ | parent
    · simp only [hfind, hparent]
    · simp only [hfind, hparent, ih (h.parent_mem (mem_of_find?_eq_some hfind) hparent)]

/-- The loop over ancestors ends within the number of snapshots. -/
theorem committedOffsetFrom_eq (h : Rooted l) (cluster : ClusterUuid) {n : Nat}
    (hn : l.length ≤ n) {id : SnapshotId} (hid : id ∈ l.map (·.id)) :
    committedOffsetFrom l cluster n id = committedOffsetFrom l cluster l.length id := by
  induction h generalizing n id with
  | nil => cases hid
  | @snoc l x hl hx hparent ih =>
    rw [length_append, length_singleton] at hn ⊢
    by_cases hmem : id ∈ l.map (·.id)
    · rw [hl.committedOffsetFrom_append cluster x n hmem,
        hl.committedOffsetFrom_append cluster x _ hmem, ih (by omega) hmem,
        ih (Nat.le_succ l.length) hmem]
    · rw [map_append] at hid
      obtain rfl : id = x.id := (mem_concat.1 hid).resolve_left hmem
      obtain ⟨n, rfl⟩ := Nat.exists_eq_add_of_le' (show 1 ≤ n by omega)
      simp only [committedOffsetFrom, find?_append_of_not_mem hx]
      rcases hp : x.parentSnapshotId with _ | parent
      · rfl
      · have hmem := hparent parent hp
        simp only [hl.committedOffsetFrom_append cluster x _ hmem, ih (by omega : l.length ≤ n) hmem]

end Rooted

/-- The current snapshot is one of the history, if there is any. -/
structure TableMetadata.WellFormed (m : TableMetadata) : Prop where
  rooted : Rooted m.history
  current : ∀ id ∈ m.currentSnapshotId, m.history = [] ∨ id ∈ m.history.map (·.id)

/-- The snapshot on which a new one is based. -/
def TableMetadata.parentSnapshotId (m : TableMetadata) : Option SnapshotId :=
  if m.history.isEmpty then none else m.currentSnapshotId

theorem oldSnapshotId_eq_ok {m : TableMetadata} {id : Option SnapshotId}
    (h : oldSnapshotId m = .ok id) : id = m.parentSnapshotId := by
  rw [oldSnapshotId] at h
  rw [TableMetadata.parentSnapshotId]
  rcases hhist : m.history with _ | ⟨snap, snaps⟩ <;>
    rcases hcur : m.currentSnapshotId with _ | cur <;> rw [hhist, hcur] at h
  · exact (Except.ok.inj h).symm
  · exact (Except.ok.inj (Except.ite_ok_error_eq_ok.1 h).2).symm
  · cases h
  · exact (Except.ok.inj (Except.ite_ok_error_eq_ok.1 h).2).symm

namespace TableMetadata.WellFormed

variable {m : TableMetadata} {x : Snapshot}

theorem addSnapshot (h : m.WellFormed) (hid : x.id ∉ m.history.map (·.id))
    (hparent : x.parentSnapshotId = m.parentSnapshotId) : (m.addSnapshot x).WellFormed where
  rooted := by
    refine h.rooted.snoc hid fun p hp => ?_
    rw [hparent, TableMetadata.parentSnapshotId] at hp
    split_ifs at hp with hnil
    · exact absurd hp (Option.not_mem_none p)
    · exact (h.current p hp).resolve_left fun heq => hnil (by rw [heq]; rfl)
  current id hid' := by
    obtain rfl : x.id = id := Option.some.inj hid'
    exact .inr (by simp [TableMetadata.addSnapshot, TableMetadata.history])

/-- Snapshots of other writers do not hide the offset of the last commit. -/
theorem getIcebergCommittedOffset_addSnapshot_foreign (h : m.WellFormed) {cluster : ClusterUuid}
    (hid : x.id ∉ m.history.map (·.id)) (hparent : x.parentSnapshotId = m.parentSnapshotId)
    (hx : x.commitOffset cluster = .ok none) :
    getIcebergCommittedOffset (m.addSnapshot x) cluster = getIcebergCommittedOffset m cluster := by
  have hfrom : getIcebergCommittedOffset (m.addSnapshot x) cluster =
      x.parentSnapshotId.elim (.ok none)
        (committedOffsetFrom (m.history ++ [x]) cluster m.history.length) := by
    rw [getIcebergCommittedOffset]
    simp only [TableMetadata.addSnapshot, length_append, length_singleton]
    rw [committedOffsetFrom, find?_append_of_not_mem hid]
    rcases hp : x.parentSnapshotId with _ | parent <;> simp only [hx, hp, Option.elim]
  rw [hfrom, hparent, TableMetadata.parentSnapshotId]
  rcases hcur : m.currentSnapshotId with _ | cur
  · simp [getIcebergCommittedOffset, hcur]
  rcases h.current cur hcur with hnil | hmem
  · -- an empty history, where nothing is found
    rw [hnil, if_pos isEmpty_nil]
    rcases hsnaps : m.snapshots with _ | snaps
    · simp [getIcebergCommittedOffset, hsnaps]
    · obtain rfl : snaps = [] := by simpa [TableMetadata.history, hsnaps] using hnil
      simp [getIcebergCommittedOffset, hsnaps, hcur, committedOffsetFrom]
  · obtain ⟨snaps, hsnaps⟩ : ∃ snaps, m.snapshots = some snaps := by
      rcases hsnaps : m.snapshots with _ | snaps
      · simp [TableMetadata.history, hsnaps] at hmem
      · exact ⟨snaps, rfl⟩
    have hhist : m.history = snaps := by rw [TableMetadata.history, hsnaps]; rfl
    have hrooted := h.rooted
    rw [hhist] at hmem hrooted ⊢
    rw [if_neg (by rw [List.isEmpty_iff]; rintro rfl; exact absurd hmem not_mem_nil)]
    simp only [Option.elim, hrooted.committedOffsetFrom_append cluster x _ hmem,
      getIcebergCommittedOffset, hcur, hsnaps]

end TableMetadata.WellFormed

/-- After a commit of the cluster its offset is found. -/
theorem getIcebergCommittedOffset_addSnapshot {m : TableMetadata} {x : Snapshot}
    {cluster : ClusterUuid} (hid : x.id ∉ m.history.map (·.id)) {o : Int}
    (hx : x.commitOffset cluster = .ok (some o)) :
    getIcebergCommittedOffset (m.addSnapshot x) cluster = .ok (some o) := by
  simp only [getIcebergCommittedOffset, TableMetadata.addSnapshot, length_append,
    length_singleton, committedOffsetFrom, find?_append_of_not_mem hid, hx]

/-! ## Collecting files -/

/-- The files of an entry that belong into a table. -/
def originsFor (k : TableKind) (p : PartitionId × PendingEntry) : List FileOrigin :=
  (p.2.data.filesFor k).zipIdx.map fun f => ⟨p.1, p.2, f.2⟩

theorem mem_originsFor {k : TableKind} {p : PartitionId × PendingEntry} {x : FileOrigin} :
    x ∈ originsFor k p ↔
      (x.pid, x.entry) = p ∧ x.index < (x.entry.data.filesFor k).length := by
  obtain ⟨pid, e⟩ := p
  obtain ⟨pid', e', i⟩ := x
  simp only [originsFor, mem_map, FileOrigin.mk.injEq, Prod.mk.injEq]
  constructor
  · rintro ⟨⟨f, j⟩, hf, rfl, rfl, rfl⟩
    exact ⟨⟨rfl, rfl⟩, by simpa using (mem_zipIdx hf).2.1⟩
  · rintro ⟨⟨rfl, rfl⟩, hi⟩
    exact ⟨((e'.data.filesFor k)[i], i), mem_zipIdx_iff_getElem?.2 (by simp [hi]), rfl, rfl, rfl⟩

theorem nodup_originsFor (k : TableKind) (p : PartitionId × PendingEntry) :
    (originsFor k p).Nodup := by
  have h : ((p.2.data.filesFor k).zipIdx.map Prod.snd).Nodup := by
    rw [zipIdx_map_snd]
    exact nodup_range'
  rw [originsFor]
  exact (Nodup.of_map _ h).map_on fun f hf f' hf' heq =>
    inj_on_of_nodup_map h hf hf' (FileOrigin.mk.inj heq).2.2

section Committer

variable {V : Type} {c : Committer V} {k : TableKind}

/-- The pending files of a list of files to append. -/
def originsOf (files : List (FileToAppend V)) : List FileOrigin :=
  files.map (·.origin)

theorem origin_of_fileToAppend {m : TableMetadata} {f : DataFile} {x : FileOrigin}
    {file : FileToAppend V} (h : fileToAppend c m f x = .ok file) : file.origin = x := by
  obtain ⟨pk, -, h⟩ := bind_eq_ok.1 h
  exact (Except.ok.inj h) ▸ rfl

variable {entries : List (PartitionId × PendingEntry)}

namespace TableCommitBuilder

variable {b : TableCommitBuilder V}

theorem create_eq_ok {m : TableMetadata} (h : create c m = .ok b) :
    ∃ o, getIcebergCommittedOffset m c.cluster = .ok o ∧
      b = { table := m, tableCommitOffset := o } := by
  rw [create] at h
  rcases ho : getIcebergCommittedOffset m c.cluster with err | o
  · simp [ho] at h
  · rw [ho] at h
    exact ⟨o, rfl, (Except.ok.inj h).symm⟩

theorem shouldSkipEntry_iff {addedPendingAt : Int} :
    b.shouldSkipEntry addedPendingAt = true ↔ ∃ o ∈ b.tableCommitOffset, addedPendingAt ≤ o := by
  rw [shouldSkipEntry]
  rcases b.tableCommitOffset with _ | o
  · simp
  · simp

/-- What a builder takes from an entry. -/
def taken (b : TableCommitBuilder V) (k : TableKind) (p : PartitionId × PendingEntry) :
    List FileOrigin :=
  if b.shouldSkipEntry p.2.addedPendingAt then [] else originsFor k p

theorem processPendingEntry_eq_ok {b' : TableCommitBuilder V} {p : PartitionId × PendingEntry}
    (h : b.processPendingEntry c p.1 p.2 (p.2.data.filesFor k) = .ok b') :
    b'.table = b.table ∧ b'.tableCommitOffset = b.tableCommitOffset ∧
      originsOf b'.icbFiles = originsOf b.icbFiles ++ b.taken k p ∧
      b'.newCommittedOffset = some (maxOffset b.newCommittedOffset p.2.addedPendingAt) := by
  obtain ⟨newFiles, hnew, h⟩ := bind_eq_ok.1 h
  cases h
  refine ⟨rfl, rfl, ?_, rfl⟩
  rw [originsOf, map_append, taken, originsOf]
  rw [filesToAppend] at hnew
  split_ifs at hnew ⊢
  · cases hnew
    rfl
  · rw [originsFor, map_of_mapM_eq_ok (fun h => origin_of_fileToAppend h) hnew]

/-- The builder, from a new one, after entries have been processed. -/
structure Collected (b₀ : TableCommitBuilder V) (k : TableKind)
    (entries : List (PartitionId × PendingEntry)) (b : TableCommitBuilder V) : Prop where
  table : b.table = b₀.table
  tableCommitOffset : b.tableCommitOffset = b₀.tableCommitOffset
  origins : originsOf b.icbFiles = entries.flatMap (b₀.taken k)
  le_new : ∀ p ∈ entries, p.2.data.filesFor k ≠ [] →
    ∃ o ∈ b.newCommittedOffset, p.2.addedPendingAt ≤ o
  new_mem : ∀ o ∈ b.newCommittedOffset, ∃ p ∈ entries, p.2.addedPendingAt = o

namespace Collected

variable {b₀ b' : TableCommitBuilder V} {p : PartitionId × PendingEntry}

theorem init (h : b₀.icbFiles = []) (h' : b₀.newCommittedOffset = none) : Collected b₀ k [] b₀ where
  table := rfl
  tableCommitOffset := rfl
  origins := by rw [h]; rfl
  le_new := by simp
  new_mem o ho := by rw [h'] at ho; exact absurd ho (Option.not_mem_none o)

variable (h : Collected b₀ k entries b)

include h

theorem skip (hp : p.2.data.filesFor k = []) : Collected b₀ k (entries ++ [p]) b where
  __ := h
  origins := by
    rw [h.origins, flatMap_append, flatMap_singleton, taken, originsFor, hp]
    simp
  le_new q hq hne := by
    rcases mem_concat.1 hq with hq | rfl
    · exact h.le_new q hq hne
    · exact absurd hp hne
  new_mem o ho := by
    obtain ⟨q, hq, heq⟩ := h.new_mem o ho
    exact ⟨q, mem_append_left _ hq, heq⟩

theorem process (hb : b.processPendingEntry c p.1 p.2 (p.2.data.filesFor k) = .ok b') :
    Collected b₀ k (entries ++ [p]) b' := by
  obtain ⟨htable, hoffset, horigins, hnew⟩ := processPendingEntry_eq_ok hb
  refine ⟨htable.trans h.table, hoffset.trans h.tableCommitOffset, ?_, fun q hq hne => ?_,
    fun o ho => ?_⟩
  · rw [horigins, h.origins, flatMap_append, flatMap_singleton, taken, taken,
      shouldSkipEntry, shouldSkipEntry, h.tableCommitOffset]
  · refine ⟨_, hnew, ?_⟩
    rcases mem_concat.1 hq with hq | rfl
    · obtain ⟨o, ho, hle⟩ := h.le_new q hq hne
      rw [Option.mem_def.1 ho]
      exact hle.trans (le_max_left _ _)
    · rcases b.newCommittedOffset with _ | o
      · exact le_rfl
      · exact le_max_right _ _
  · obtain rfl : maxOffset b.newCommittedOffset p.2.addedPendingAt = o :=
      Option.some.inj (hnew ▸ ho)
    rcases ho' : b.newCommittedOffset with _ | o
    · exact ⟨p, by simp, rfl⟩
    · obtain ⟨q, hq, heq⟩ := h.new_mem o ho'
      rcases max_choice o p.2.addedPendingAt with hmax | hmax
      · exact ⟨q, mem_append_left _ hq, by rw [maxOffset, hmax, heq]⟩
      · exact ⟨p, by simp, by rw [maxOffset, hmax]⟩

/-- The files that are collected: those of the entries that are not in the table by its
    commit offset. -/
theorem mem_origins {x : FileOrigin} :
    x ∈ originsOf b.icbFiles ↔ (x.pid, x.entry) ∈ entries ∧
      x.index < (x.entry.data.filesFor k).length ∧
      ∀ o ∈ b₀.tableCommitOffset, o < x.entry.addedPendingAt := by
  rw [h.origins, mem_flatMap]
  constructor
  · rintro ⟨p, hp, hx⟩
    rw [taken] at hx
    split_ifs at hx with hskip
    · cases hx
    · obtain ⟨rfl, hi⟩ := mem_originsFor.1 hx
      rw [shouldSkipEntry_iff, not_exists] at hskip
      exact ⟨hp, hi, fun o ho => not_le.1 fun hle => hskip o ⟨ho, hle⟩⟩
  · rintro ⟨hp, hi, hlt⟩
    refine ⟨_, hp, ?_⟩
    rw [taken, if_neg]
    · exact mem_originsFor.2 ⟨rfl, hi⟩
    · rw [shouldSkipEntry_iff]
      rintro ⟨o, ho, hle⟩
      exact absurd hle (not_le.2 (hlt o ho))

theorem nodup (hentries : entries.Nodup) : (originsOf b.icbFiles).Nodup := by
  have hmem : ∀ {p x}, x ∈ b₀.taken k p → (x.pid, x.entry) = p := by
    intro p x hx
    rw [taken] at hx
    split_ifs at hx
    · cases hx
    · exact (mem_originsFor.1 hx).1
  rw [h.origins]
  refine nodup_flatMap.2 ⟨fun p hp => ?_, hentries.imp fun {p q} hne => ?_⟩
  · rw [taken]
    split_ifs
    · exact nodup_nil
    · exact nodup_originsFor k p
  · rw [Function.onFun, disjoint_left]
    exact fun x hx hx' => hne ((hmem hx).symm.trans (hmem hx'))

end Collected

end TableCommitBuilder

open TableCommitBuilder

/-- The builder of a table after entries have been processed: without one, there were no files
    for the table. -/
def CollectedFor (k : TableKind) (entries : List (PartitionId × PendingEntry)) :
    Option (TableCommitBuilder V) → Option (TableCommitBuilder V) → Prop
  | none, b => b = none ∧ ∀ p ∈ entries, p.2.data.filesFor k = []
  | some b₀, b => ∃ b₁, b = some b₁ ∧ Collected b₀ k entries b₁

variable {bs bs' : Builders V}

/-- Processing an entry for one table leaves the builders of the others. -/
theorem Builders.process_of_ne {pid : PartitionId} {e : PendingEntry}
    (h : bs.process c k pid e = .ok bs') {k' : TableKind} (hk : k' ≠ k) : bs' k' = bs k' := by
  rw [Builders.process] at h
  split_ifs at h
  · rw [Except.ok.inj h]
  · rcases hb : bs k with _ | b
    · simp [hb] at h
    · rw [hb] at h
      obtain ⟨b', -, h⟩ := bind_eq_ok.1 h
      rw [← Except.ok.inj h, Function.update_of_ne hk]

variable {m : PendingCommits}

theorem CollectedFor.process {p : PartitionId × PendingEntry} {b₀ : Option (TableCommitBuilder V)}
    (h : CollectedFor k entries b₀ (bs k)) (hbs : bs.process c k p.1 p.2 = .ok bs') :
    CollectedFor k (entries ++ [p]) b₀ (bs' k) := by
  rw [Builders.process] at hbs
  split_ifs at hbs with hfiles
  · rw [List.isEmpty_iff] at hfiles
    cases hbs
    rcases b₀ with _ | b₀
    · exact ⟨h.1, forall_mem_concat.2 ⟨h.2, hfiles⟩⟩
    · obtain ⟨b₁, hb₁, hcol⟩ := h
      exact ⟨b₁, hb₁, hcol.skip hfiles⟩
  · rcases b₀ with _ | b₀
    · simp [h.1] at hbs
    · obtain ⟨b₁, hb₁, hcol⟩ := h
      rw [hb₁] at hbs
      obtain ⟨b', hb', hbs⟩ := bind_eq_ok.1 hbs
      exact ⟨b', by rw [← Except.ok.inj hbs, Function.update_self], hcol.process hb'⟩

/-- The offset to mark committed is the last one of the last entry of the partition. -/
def MarksLast (entries : List (PartitionId × PendingEntry)) (m : PendingCommits) : Prop :=
  ∀ pid v, m.lookup pid = some v → ∃ l e l', entries = l ++ (pid, e) :: l' ∧
    (∀ p ∈ l', p.1 ≠ pid) ∧ v.lastOffset = e.data.lastOffset

theorem MarksLast.visit (h : MarksLast entries m) (p : PartitionId × PendingEntry) :
    MarksLast (entries ++ [p]) (m.visit p.1 p.2) := by
  intro pid v hv
  rw [PendingCommits.visit] at hv
  rcases eq_or_ne pid p.1 with rfl | hne
  · rw [AList.lookup_insert] at hv
    exact ⟨entries, p.2, [], rfl, nofun, (Option.some.inj hv) ▸ rfl⟩
  · rw [AList.lookup_insert_ne hne] at hv
    obtain ⟨l, e, l', rfl, hl', hlast⟩ := h pid v hv
    exact ⟨l, e, l' ++ [p], by simp,
      forall_mem_concat.2 ⟨hl', hne.symm⟩, hlast⟩

/-- What the loop over the pending entries computes. -/
theorem processEntries_eq_ok
    (hbs : ∀ k b, bs k = some b → b.icbFiles = [] ∧ b.newCommittedOffset = none)
    (h : processEntries c entries bs = .ok (m, bs')) :
    MarksLast entries m ∧ ∀ k, CollectedFor k entries (bs k) (bs' k) := by
  -- the entries that are done, before those that are left
  let P (rest : List (PartitionId × PendingEntry)) (x : PendingCommits × Builders V) : Prop :=
    ∃ done, entries = done ++ rest ∧ MarksLast done x.1 ∧
      ∀ k, CollectedFor k done (bs k) (x.2 k)
  have hinit : P entries (∅, bs) := by
    refine ⟨[], rfl, fun pid v hv => ?_, fun k => ?_⟩
    · simp [AList.lookup_empty] at hv
    · rcases hb : bs k with _ | b
      · exact ⟨hb, nofun⟩
      · exact ⟨b, hb, .init (hbs k b hb).1 (hbs k b hb).2⟩
  obtain ⟨done, hdone, hmarks, hcol⟩ := foldlM_invariant P (fun {p rest x x'} hP hx => by
    obtain ⟨done, hdone, hmarks, hcol⟩ := hP
    obtain ⟨bs₁, hbs₁, hx⟩ := bind_eq_ok.1 hx
    obtain ⟨bs₂, hbs₂, hx⟩ := bind_eq_ok.1 hx
    cases hx
    refine ⟨done ++ [p], by simp [hdone], hmarks.visit p, fun k => ?_⟩
    -- each table is served by one of the two calls
    cases k with
    | main =>
      have h₁ := (hcol .main).process hbs₁
      rwa [← Builders.process_of_ne hbs₂ (by decide)] at h₁
    | dlq =>
      have h₁ := hcol .dlq
      rw [← Builders.process_of_ne hbs₁ (by decide)] at h₁
      exact h₁.process hbs₂) h hinit
  rw [hdone, append_nil]
  exact ⟨hmarks, hcol⟩

/-! ## Committing -/

/-- A commit either has nothing to append, or succeeds with the metadata that was loaded
    and adds a snapshot with the new offset. -/
theorem TableCommitBuilder.commit_eq_ok {b : TableCommitBuilder V} {id : SnapshotId}
    {t t' : Table V} {m : TableMetadata} (h : b.commit c id t = .ok (m, t')) :
    (b.icbFiles = [] ∧ t' = t) ∨
    ∃ o x, b.newCommittedOffset = some o ∧ b.table = t.metadata ∧ x.id = id ∧
      x.parentSnapshotId = t.metadata.parentSnapshotId ∧
      x.commitOffset c.cluster = .ok (some o) ∧ t'.metadata = t.metadata.addSnapshot x ∧
      t'.commits = t.commits ++ [b.icbFiles] ∧ b.icbFiles ≠ [] := by
  rw [TableCommitBuilder.commit] at h
  by_cases hfiles : b.icbFiles.isEmpty = true
  · rw [if_pos hfiles] at h
    exact .inl ⟨List.isEmpty_iff.1 hfiles, (Prod.mk.inj (Except.ok.inj h)).2.symm⟩
  · rw [if_neg hfiles] at h
    rw [List.isEmpty_iff] at hfiles
    rcases ho : b.newCommittedOffset with _ | o
    · simp [ho] at h
    · rw [ho] at h
      obtain ⟨m', hm', h⟩ := bind_eq_ok.1 h
      obtain ⟨htable, h⟩ := Except.ite_ok_error_eq_ok.1 h
      cases h
      obtain ⟨-, hm'⟩ := ite_error_eq_ok.1 hm'
      obtain ⟨parent, hparent, hm'⟩ := bind_eq_ok.1 hm'
      cases hm'
      refine .inr ⟨o, ⟨id, parent, some (toJson ⟨o, some c.cluster⟩)⟩, rfl, htable, rfl, ?_, ?_,
        by rw [htable], rfl, hfiles⟩
      · rw [← htable]
        exact oldSnapshotId_eq_ok hparent
      · simp [Snapshot.commitOffset, parseCommitOffsetJson_toJson]

end Committer

end Redpanda.Datalake
