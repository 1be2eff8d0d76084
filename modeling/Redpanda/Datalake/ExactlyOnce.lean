import Redpanda.Datalake.CommitBuilder
import Redpanda.Datalake.ControlLog

/-!
# Exactly-once commit to Iceberg

Any number of coordinators commit the files of a topic at the same time: the current leader
and deposed ones, each with the state of some prefix of the control topic, and each of them may
crash at any point. Their transactions meet in the catalog, which accepts one only if the
metadata that it was built from is still current. What they return is put into the log later,
if at all, and maybe repeatedly.

The commit offset of a table separates the entries of the whole log into those whose files are
in the table and those whose files are not (`TableInv`, `files_of_run`). A transaction that
succeeds was built from the current metadata, so what it does not skip is not in the table; and
since it commits all that is pending in some prefix of the log, up to its new offset nothing is
missing. An entry that is not pending any more in some prefix was committed by then, because
updates that mark entries are returned only after their files have been committed
(`Settled`).

In every run, no file is appended twice, and entries are removed only when their files have been
appended (`exactly_once_of_run`), as long as the ranges of the added entries are not empty.
Without this, entries that were never committed may be removed
(`exists_removed_not_appended`).
-/

namespace Redpanda.Datalake

open Lib Model Lib.Except List

/-! ## Coordinators and the catalog -/

/-- The control topic, the tables of the topic in the catalog, the committers that are
    running, and the updates that were returned by committers. -/
structure System (V : Type) where
  log : List (Int × Update) := []
  tables : TableKind → Table V
  tasks : Nat → Option (Task V) := fun _ => none
  returned : List MarkFilesCommittedUpdate := []

/-- What happens to the log, the tables and the tasks of the replicas. -/
inductive Action
  /-- A record that adds files is appended to the log. -/
  | addFiles (o : Int) (u : AddFilesUpdate)
  /-- A record that marks files committed is appended to the log. -/
  | markFilesCommitted (o : Int) (u : MarkFilesCommittedUpdate)
  /-- A replica that has applied a number of records starts to commit the files of the topic. -/
  | start (i n : Nat)
  | load (i : Nat)
  /-- The replica has applied a number of records by then. -/
  | process (i n : Nat)
  /-- The id is the one that is generated for the new snapshot. -/
  | commit (i : Nat) (newSnapId : SnapshotId)
  | finish (i : Nat)
  | crash (i : Nat)
  /-- Another writer adds a snapshot to a table. -/
  | addSnapshot (k : TableKind) (x : Snapshot)
  /-- Something else than the snapshots of a table is changed. -/
  | alterTable (k : TableKind) (m : TableMetadata)

variable {V : Type}

namespace System

variable (c : Committer V) (topic : Topic) (s₀ : TopicsState) (σ : System V)

/-- A record at an offset after those of the log. -/
def append (o : Int) (u : Update) : Option (System V) :=
  if ∀ r ∈ σ.log, r.1 < o then some { σ with log := σ.log ++ [(o, u)] } else none

/-- A task begins, goes on or ends. -/
def setTask (i : Nat) (t : Option (Task V)) : System V :=
  { σ with tasks := Function.update σ.tasks i t }

def setTable (k : TableKind) (t : Table V) : System V :=
  { σ with tables := Function.update σ.tables k t }

@[simp] theorem setTable_tables_self (k : TableKind) (t : Table V) :
    (σ.setTable k t).tables k = t := by
  simp [setTable]

@[simp] theorem setTable_tables_of_ne {k k' : TableKind} (h : k' ≠ k) (t : Table V) :
    (σ.setTable k t).tables k' = σ.tables k' := by
  simp [setTable, h]

/-- One step; there is none if the action is not possible. A task that fails ends. -/
def next : Action → Option (System V)
  | .addFiles o u => σ.append o (.addFiles u)
  | .markFilesCommitted o u =>
    -- Updates of the topic were returned by committers.
    if u.tp.topic = topic → u ∈ σ.returned then σ.append o (.markFilesCommitted u) else none
  | .start i n => some (σ.setTask i (some (Task.start topic (replay s₀ (σ.log.take n)))))
  | .load i =>
    match σ.tasks i with
    | some (.load k tpState bs) =>
      some (σ.setTask i (Task.loadTable c k tpState bs (σ.tables k).metadata).toOption)
    | _ => none
  | .process i n =>
    match σ.tasks i with
    | some (.process tpState bs) =>
      some (σ.setTask i (Task.processAll c topic tpState bs (replay s₀ (σ.log.take n))).toOption)
    | _ => none
  | .commit i newSnapId =>
    match σ.tasks i with
    | some (.commit k updates bs) =>
      if (bs k).all fun b => newSnapId ∉ b.table.history.map (·.id) then
        match Task.commitTable c k updates bs newSnapId (σ.tables k) with
        | .ok (task, table) => some ((σ.setTable k table).setTask i (some task))
        | .error _ => some (σ.setTask i none)
      else none
    | _ => none
  | .finish i =>
    match σ.tasks i with
    | some (.done updates) =>
      some { σ.setTask i none with returned := σ.returned ++ updates }
    | _ => none
  | .crash i => some (σ.setTask i none)
  | .addSnapshot k x =>
    let m := (σ.tables k).metadata
    if x.id ∉ m.history.map (·.id) ∧ x.parentSnapshotId = m.parentSnapshotId ∧
        (x.commitOffset c.cluster).toOption = some none then
      some (σ.setTable k ⟨m.addSnapshot x, (σ.tables k).commits⟩)
    else none
  | .alterTable k m =>
    if m.currentSnapshotId = (σ.tables k).metadata.currentSnapshotId ∧
        m.snapshots = (σ.tables k).metadata.snapshots then
      some (σ.setTable k ⟨m, (σ.tables k).commits⟩)
    else none

/-- An action that is possible. -/
def Step (σ : System V) (a : Action) (σ' : System V) : Prop :=
  σ.next c topic s₀ a = some σ'

end System

/-- The files that were appended to a table by the transactions that succeeded. -/
def Table.appended {V : Type} (t : Table V) : List FileOrigin :=
  originsOf t.commits.flatten

/-- All files of an entry that belong into a table are in it. -/
def Table.HasFiles {V : Type} (t : Table V) (k : TableKind) (pid : PartitionId)
    (e : PendingEntry) : Prop :=
  ∀ i < (e.data.filesFor k).length, ⟨pid, e, i⟩ ∈ t.appended

instance {V : Type} (t : Table V) (k : TableKind) (pid : PartitionId) (e : PendingEntry) :
    Decidable (t.HasFiles k pid e) :=
  decidable_of_iff (∀ i ∈ List.range (e.data.filesFor k).length, ⟨pid, e, i⟩ ∈ t.appended)
    (by simp only [mem_range, Table.HasFiles])

/-- A table to which no committer of the cluster has appended. -/
structure Table.Fresh {V : Type} (c : Committer V) (t : Table V) : Prop where
  commits : t.commits = []
  wellFormed : t.metadata.WellFormed
  offset : getIcebergCommittedOffset t.metadata c.cluster = .ok none

section Invariant

variable (c : Committer V) (topic : Topic) (s₀ : TopicsState) (log : List (Int × Update))

/-- All entries that a log adds to a partition of the topic. -/
abbrev addedTo (pid : PartitionId) (log : List (Int × Update)) : List PendingEntry :=
  added ⟨topic, pid⟩ s₀ log

/-- The entries of a partition of the topic that are pending after a log. -/
abbrev pendingOf (pid : PartitionId) (log : List (Int × Update)) : List PendingEntry :=
  ((replay s₀ log).partition ⟨topic, pid⟩).pendingEntries

/-- All files of entries that were added up to an offset of the log are in the table. -/
structure Covers (log : List (Int × Update)) (t : Table V) (k : TableKind) (o : Int) : Prop where
  mem_log : ∃ r ∈ log, r.1 = o
  hasFiles : ∀ pid, ∀ e ∈ addedTo topic s₀ pid log, e.addedPendingAt ≤ o → t.HasFiles k pid e

/-- The commit offset of a table tells which files are in it. -/
structure TableInv (log : List (Int × Update)) (t : Table V) (k : TableKind)
    (m : Option Int) : Prop where
  wellFormed : t.metadata.WellFormed
  offset : getIcebergCommittedOffset t.metadata c.cluster = .ok m
  covers : ∀ o ∈ m, Covers topic s₀ log t k o
  mem_added : ∀ x ∈ t.appended, x.entry ∈ addedTo topic s₀ x.pid log ∧
    ∃ o ∈ m, x.entry.addedPendingAt ≤ o
  nodup : t.appended.Nodup

/-- An update that marks entries whose files have been committed, and no others. -/
structure Settled (log : List (Int × Update)) (tables : TableKind → Table V)
    (u : MarkFilesCommittedUpdate) : Prop where
  topic_eq : u.tp.topic = topic
  last : ∃ e ∈ addedTo topic s₀ u.tp.partition log, e.data.lastOffset = u.newCommitted
  hasFiles : ∀ e ∈ addedTo topic s₀ u.tp.partition log, e.data.lastOffset ≤ u.newCommitted →
    ∀ k, (tables k).HasFiles k u.tp.partition e

/-- A copy of the state of the topic in some prefix of the log. -/
def IsCopy (t : TopicState) : Prop :=
  ∃ p, p <+: log ∧ (replay s₀ p).topicToState.lookup topic = some t

/-- A builder that has loaded a table, maybe some time ago. -/
structure LoadedInv (log : List (Int × Update)) (t : Table V) (k : TableKind)
    (b : TableCommitBuilder V) : Prop where
  offset : getIcebergCommittedOffset b.table c.cluster = .ok b.tableCommitOffset
  covers : ∀ o ∈ b.tableCommitOffset, Covers topic s₀ log t k o

/-- An update for the last pending entry of a partition. -/
def MarksPartition (t : TopicState) (u : MarkFilesCommittedUpdate) : Prop :=
  u.tp.topic = topic ∧ ∃ e, (t.partition u.tp.partition).pendingEntries.getLast? = some e ∧
    u.newCommitted = e.data.lastOffset

/-- A builder that has processed the pending entries. -/
def ProcessedInv (t : Table V) (k : TableKind) (tpState : TopicState) :
    Option (TableCommitBuilder V) → Prop
  | none => ∀ p ∈ tpState.pending, p.2.data.filesFor k = []
  | some b => ∃ b₀, LoadedInv c topic s₀ log t k b₀ ∧ b₀.Collected k tpState.pending b

/-- The files of all pending entries are in the table. -/
def CommittedInv (t : Table V) (k : TableKind) (tpState : TopicState) : Prop :=
  ∀ p ∈ tpState.pending, t.HasFiles k p.1 p.2

/-- What a committer has done so far. -/
def TaskInv (tables : TableKind → Table V) : Task V → Prop
  | .load _ tpState bs | .process tpState bs => IsCopy topic s₀ log tpState ∧
      ∀ k b, bs k = some b → LoadedInv c topic s₀ log (tables k) k b ∧
        b.icbFiles = [] ∧ b.newCommittedOffset = none
  | .commit .dlq updates bs => ∃ tpState, IsCopy topic s₀ log tpState ∧
      (∀ u ∈ updates, MarksPartition topic tpState u) ∧
      ∀ k, ProcessedInv c topic s₀ log (tables k) k tpState (bs k)
  | .commit .main updates bs => ∃ tpState, IsCopy topic s₀ log tpState ∧
      (∀ u ∈ updates, MarksPartition topic tpState u) ∧
      CommittedInv (tables .dlq) .dlq tpState ∧
      ProcessedInv c topic s₀ log (tables .main) .main tpState (bs .main)
  | .done updates => ∀ u ∈ updates, Settled topic s₀ log tables u

/-- What holds after every action: of the log, of each table, of each task and of the updates that
    tasks have returned. -/
structure System.Inv (σ : System V) : Prop where
  sorted : σ.log.Pairwise (·.1 < ·.1)
  increasing : ∀ r ∈ σ.log, r.2.Increasing
  tables : ∀ k, ∃ m, TableInv c topic s₀ σ.log (σ.tables k) k m
  removed : ∀ p, p <+: σ.log → ∀ pid, ∀ e ∈ addedTo topic s₀ pid p, e ∉ pendingOf topic s₀ pid p →
    ∀ k, (σ.tables k).HasFiles k pid e
  returned : ∀ u ∈ σ.returned, Settled topic s₀ σ.log σ.tables u
  tasks : ∀ i t, σ.tasks i = some t → TaskInv c topic s₀ σ.log σ.tables t

end Invariant

section Proofs

variable {c : Committer V} {topic : Topic} {s₀ : TopicsState} {log log' : List (Int × Update)}
  {k : TableKind}

/-! ## The entries of a copy -/

variable {t : TopicState} {pid : PartitionId} {e : PendingEntry}
  {updates : List MarkFilesCommittedUpdate}

theorem mem_pending : (pid, e) ∈ t.pending ↔ e ∈ (t.partition pid).pendingEntries := by
  rw [TopicState.pending, TopicState.partition, mem_flatMap]
  constructor
  · rintro ⟨⟨pid', p⟩, hp, he⟩
    obtain ⟨e', he', heq⟩ := mem_map.1 he
    cases heq
    rw [AList.mem_lookup_iff.2 hp]
    exact he'
  · intro he
    rcases hp : t.pidToPendingFiles.lookup pid with _ | p <;> rw [hp] at he
    · cases he
    · exact ⟨⟨pid, p⟩, AList.mem_lookup_iff.1 hp, mem_map_of_mem he⟩

/-- No entry is pending twice. -/
theorem nodup_pending (h : ∀ pid, (t.partition pid).pendingEntries.Nodup) : t.pending.Nodup := by
  refine nodup_flatMap.2 ⟨fun p hp => ?_, ?_⟩
  · have hlookup : t.partition p.1 = p.2 := by
      rw [TopicState.partition, AList.mem_lookup_iff.2 hp]
      rfl
    refine (hlookup ▸ h p.1).map fun e e' heq => (Prod.mk.inj heq).2
  · refine (pairwise_map.1 t.pidToPendingFiles.nodupKeys).imp fun {p q} hne => ?_
    rw [Function.onFun, disjoint_left]
    intro x hx hx'
    obtain ⟨e, -, rfl⟩ := mem_map.1 hx
    obtain ⟨e', -, heq⟩ := mem_map.1 hx'
    exact hne (Prod.mk.inj heq).1.symm

theorem filter_pending (t : TopicState) (pid : PartitionId) :
    t.pending.filter (·.1 = pid) = (t.partition pid).pendingEntries.map fun e => (pid, e) := by
  have h : ∀ l : List (Sigma fun _ : PartitionId => PartitionState), l.NodupKeys →
      (l.flatMap fun p => p.2.pendingEntries.map fun e => (p.1, e)).filter (·.1 = pid) =
        ((l.dlookup pid).getD {}).pendingEntries.map fun e => (pid, e) := by
    intro l hl
    induction l with
    | nil => rfl
    | cons p l ih =>
      rw [nodupKeys_cons] at hl
      rw [flatMap_cons, filter_append, ih hl.2]
      rcases eq_or_ne p.1 pid with rfl | hne
      · rw [dlookup_eq_none.2 hl.1, dlookup_cons_eq, filter_eq_self.2 (forall_mem_map.2 (by simp))]
        simp
      · rw [dlookup_cons_ne _ _ hne.symm, filter_eq_nil_iff.2 (forall_mem_map.2 (by simp [hne]))]
        rfl
  exact h _ t.pidToPendingFiles.nodupKeys

/-- The updates mark the last pending entry of each partition. -/
theorem marksPartition_of_buildUpdates {m : PendingCommits} {state : TopicsState}
    (hm : MarksLast t.pending m)
    (h : buildUpdates topic t.revision state m = .ok updates) :
    ∀ u ∈ updates, MarksPartition topic t u := by
  intro u hu
  have hmap := map_of_mapM_eq_ok (g := fun u : MarkFilesCommittedUpdate => (u.tp, u.newCommitted))
    (h := fun p : Sigma fun _ : PartitionId => OffsetAndBytes =>
      ((⟨topic, p.1⟩ : TopicPartition), p.2.lastOffset)) (fun {p u} hp => by
        rcases hbuild : MarkFilesCommittedUpdate.build state ⟨topic, p.1⟩ t.revision
          p.2.lastOffset p.2.kafkaBytesProcessed with err | u'
        · simp [hbuild] at hp
        · rw [hbuild] at hp
          cases hp
          obtain ⟨⟨⟩, -, hbuild⟩ := bind_eq_ok.1 hbuild
          cases hbuild
          rfl) h
  obtain ⟨p, hp, heq⟩ := mem_map.1 (hmap ▸ mem_map_of_mem hu)
  obtain ⟨htp, hlast⟩ := Prod.mk.inj heq
  obtain ⟨l, e, l', hl, hl', hv⟩ := hm p.1 p.2 (AList.mem_lookup_iff.2 hp)
  have hfilter := filter_pending t p.1
  have hnil : l'.filter (·.1 = p.1) = [] := filter_eq_nil_iff.2 (by simpa using hl')
  rw [hl, filter_append, filter_cons_of_pos (by simp), hnil] at hfilter
  have hgetLast := congrArg getLast? hfilter
  rw [getLast?_concat, getLast?_map] at hgetLast
  obtain ⟨e', he', heq'⟩ := Option.map_eq_some_iff.1 hgetLast.symm
  obtain ⟨-, rfl⟩ := Prod.mk.inj heq'
  exact ⟨by rw [← htp], e', by rw [← htp]; exact he', by rw [← hlast, hv]⟩

/-! ## What persists -/

/-- The log and the tables have grown. -/
structure Grows (log log' : List (Int × Update)) (tables tables' : TableKind → Table V) : Prop where
  log_prefix : log <+: log'
  sorted : log'.Pairwise (·.1 < ·.1)
  increasing : ∀ r ∈ log', r.2.Increasing
  appended : ∀ k, ∀ x ∈ (tables k).appended, x ∈ (tables' k).appended

variable {tables tables' : TableKind → Table V} {tables : TableKind → Table V}
  {p : List (Int × Update)} {tpState : TopicState}

/-- Files stay in a table. -/
theorem Table.HasFiles.mono {t t' : Table V} (h : ∀ x ∈ t.appended, x ∈ t'.appended)
    (he : t.HasFiles k pid e) : t'.HasFiles k pid e :=
  fun i hi => h _ (he i hi)

/-- Entries that a longer log adds end above those that were added before. -/
theorem mem_added_of_lastOffset_le (hs : ∀ tp, s₀.partition tp = {}) (hlog : log <+: log')
    (hinc : ∀ r ∈ log', r.2.Increasing) {tp : TopicPartition} {e₀ : PendingEntry}
    (he : e ∈ added tp s₀ log') (he₀ : e₀ ∈ added tp s₀ log)
    (hle : e.data.lastOffset ≤ e₀.data.lastOffset) : e ∈ added tp s₀ log := by
  have htracks := tracks_replay hs hinc tp
  obtain ⟨log'', rfl⟩ := hlog
  rw [added_append] at he htracks
  refine (mem_append.1 he).resolve_right fun he => ?_
  exact absurd hle (not_le.2 ((pairwise_append.1 htracks.increasing).2.2 e₀ he₀ e he))

namespace Grows

variable (hg : Grows log log' tables tables')

include hg

/-- A table that grows covers what it did, whatever is added to the log. -/
theorem covers {o : Int} (h : Covers topic s₀ log (tables k) k o) :
    Covers topic s₀ log' (tables' k) k o := by
  obtain ⟨r, hr, rfl⟩ := h.mem_log
  exact ⟨⟨r, hg.log_prefix.subset hr, rfl⟩, fun pid e he hle =>
    (h.hasFiles pid e (mem_added_of_le hg.log_prefix hg.sorted he hr hle) hle).mono (hg.appended k)⟩

/-- What was settled stays so. -/
theorem settled (hs : ∀ tp, s₀.partition tp = {}) {u : MarkFilesCommittedUpdate}
    (h : Settled topic s₀ log tables u) : Settled topic s₀ log' tables' u := by
  obtain ⟨e₀, he₀, hlast⟩ := h.last
  refine ⟨h.topic_eq, ⟨e₀, mem_added_of_isPrefix hg.log_prefix he₀, hlast⟩, fun e he hle k => ?_⟩
  have hmem := mem_added_of_lastOffset_le hs hg.log_prefix hg.increasing he he₀ (hlast ▸ hle)
  exact (h.hasFiles e hmem hle k).mono (hg.appended k)

/-- A copy of the topic is one of some prefix of the log, also of a longer one. -/
theorem isCopy (h : IsCopy topic s₀ log t) : IsCopy topic s₀ log' t := by
  obtain ⟨p, hp, ht⟩ := h
  exact ⟨p, hp.trans hg.log_prefix, ht⟩

theorem loaded {b : TableCommitBuilder V} (h : LoadedInv c topic s₀ log (tables k) k b) :
    LoadedInv c topic s₀ log' (tables' k) k b :=
  ⟨h.offset, fun o ho => hg.covers (h.covers o ho)⟩

theorem processed {b : Option (TableCommitBuilder V)}
    (h : ProcessedInv c topic s₀ log (tables k) k t b) :
    ProcessedInv c topic s₀ log' (tables' k) k t b := by
  rcases b with _ | b
  · exact h
  · obtain ⟨b₀, hb₀, hb⟩ := h
    exact ⟨b₀, hg.loaded hb₀, hb⟩

theorem committed (h : CommittedInv (tables k) k t) : CommittedInv (tables' k) k t :=
  fun p hp => (h p hp).mono (hg.appended k)

/-- What a committer has done stays done, whatever others do. -/
theorem task (hs : ∀ tp, s₀.partition tp = {}) {t : Task V}
    (h : TaskInv c topic s₀ log tables t) : TaskInv c topic s₀ log' tables' t := by
  cases t with
  | load _ t bs | process t bs =>
    exact ⟨hg.isCopy h.1, fun k b hb => ⟨hg.loaded (h.2 k b hb).1, (h.2 k b hb).2⟩⟩
  | commit k updates bs =>
    cases k with
    | main =>
      obtain ⟨t, ht, hmarks, hdlq, hmain⟩ := h
      exact ⟨t, hg.isCopy ht, hmarks, hg.committed hdlq, hg.processed hmain⟩
    | dlq =>
      obtain ⟨t, ht, hmarks, hbs⟩ := h
      exact ⟨t, hg.isCopy ht, hmarks, fun k => hg.processed (hbs k)⟩
  | done updates => exact fun u hu => hg.settled hs (h u hu)

end Grows

/-! ## Committing to a table -/

/-- The pending entries of a copy are those of its prefix of the log. -/
theorem mem_pending_iff (ht : (replay s₀ p).topicToState.lookup topic = some t) :
    (pid, e) ∈ t.pending ↔ e ∈ pendingOf topic s₀ pid p := by
  rw [mem_pending, pendingOf, partition_eq_of_lookup ⟨topic, pid⟩ ht]

section

variable (hs : ∀ tp, s₀.partition tp = {})

include hs

theorem mem_addedTo_of_mem_pendingOf
    (hinc : ∀ r ∈ log, r.2.Increasing) (he : e ∈ pendingOf topic s₀ pid log) :
    e ∈ addedTo topic s₀ pid log :=
  (tracks_replay hs hinc ⟨topic, pid⟩).suffix.subset he

theorem nodup_pending_of_isCopy (hinc : ∀ r ∈ p, r.2.Increasing)
    (ht : (replay s₀ p).topicToState.lookup topic = some t) : t.pending.Nodup := by
  refine nodup_pending fun pid => ?_
  have htracks := tracks_replay hs hinc ⟨topic, pid⟩
  rw [partition_eq_of_lookup ⟨topic, pid⟩ ht] at htracks
  refine (htracks.increasing.sublist htracks.suffix.sublist).imp fun {e e'} hlt heq => ?_
  rw [heq] at hlt
  exact lt_irrefl _ hlt

omit hs in
/-- After a commit all pending entries of the copy are in the table, if not by the commit then
    from before. -/
theorem committedInv_of_collected {t t' : Table V}
    {b₀ b : TableCommitBuilder V} (hload : LoadedInv c topic s₀ log t k b₀)
    (hcol : b₀.Collected k tpState.pending b)
    (hadded : ∀ p ∈ tpState.pending, p.2 ∈ addedTo topic s₀ p.1 log)
    (hold : ∀ x ∈ t.appended, x ∈ t'.appended)
    (hnew : ∀ x ∈ originsOf b.icbFiles, x ∈ t'.appended) : CommittedInv t' k tpState := by
  intro p hp i hi
  by_cases hskip : ∃ o ∈ b₀.tableCommitOffset, p.2.addedPendingAt ≤ o
  · obtain ⟨o, ho, hle⟩ := hskip
    exact hold _ ((hload.covers o ho).hasFiles p.1 p.2 (hadded p hp) hle i hi)
  · refine hnew _ (hcol.mem_origins.2 ⟨hp, hi, fun o ho => not_le.1 fun hle => hskip ⟨o, ho, hle⟩⟩)

/-- A transaction that succeeds appends files that are not in the table, and leaves out none of
    those that belong there up to its new offset. -/
theorem TableInv.commit {t t' : Table V} {o : Option Int}
    (h : TableInv c topic s₀ log t k o) (hsorted : log.Pairwise (·.1 < ·.1))
    (hinc : ∀ r ∈ log, r.2.Increasing) (hcopy : IsCopy topic s₀ log tpState)
    (hremoved : ∀ p, p <+: log → ∀ pid, ∀ e ∈ addedTo topic s₀ pid p,
      e ∉ pendingOf topic s₀ pid p → t.HasFiles k pid e)
    {b : TableCommitBuilder V} (hb : ProcessedInv c topic s₀ log t k tpState (some b))
    {id : SnapshotId} (hid : id ∉ b.table.history.map (·.id)) {m : TableMetadata}
    (hcommit : b.commit c id t = .ok (m, t')) :
    (∃ o', TableInv c topic s₀ log t' k o') ∧ CommittedInv t' k tpState ∧
      ∀ x ∈ t.appended, x ∈ t'.appended := by
  obtain ⟨b₀, hload, hcol⟩ := hb
  obtain ⟨p, hp, ht⟩ := hcopy
  have hincp : ∀ r ∈ p, r.2.Increasing := fun r hr => hinc r (hp.subset hr)
  have haddedp : ∀ q ∈ tpState.pending, q.2 ∈ addedTo topic s₀ q.1 p := fun q hq =>
    mem_addedTo_of_mem_pendingOf hs hincp ((mem_pending_iff ht).1 hq)
  have hadded : ∀ q ∈ tpState.pending, q.2 ∈ addedTo topic s₀ q.1 log := fun q hq =>
    mem_added_of_isPrefix hp (haddedp q hq)
  obtain ⟨hfiles, rfl⟩ | ⟨o', x, hnew, htable, hxid, hparent, hoffset, hmeta, hcommits, hfiles⟩ :=
    TableCommitBuilder.commit_eq_ok hcommit
  · refine ⟨⟨o, h⟩, committedInv_of_collected hload hcol hadded (fun _ hx => hx) fun x hx => ?_,
      fun _ hx => hx⟩
    rw [hfiles] at hx
    cases hx
  · have happ : t'.appended = t.appended ++ originsOf b.icbFiles := by
      simp [Table.appended, hcommits, originsOf]
    have hold : ∀ x ∈ t.appended, x ∈ t'.appended := fun x hx => by
      rw [happ]
      exact mem_append_left _ hx
    have hcommitted := committedInv_of_collected hload hcol hadded hold fun x hx => by
      rw [happ]
      exact mem_append_right _ hx
    -- the offset of the builder is that of the table, as the metadata are still the same
    have heq : b₀.tableCommitOffset = o := by
      have hget := hload.offset
      rw [← hcol.table, htable, h.offset] at hget
      exact (Except.ok.inj hget).symm
    rw [htable, ← hxid] at hid
    obtain ⟨r, hr, hro⟩ : ∃ r ∈ p, r.1 = o' := by
      obtain ⟨q, hq, hqo⟩ := hcol.new_mem o' hnew
      obtain ⟨r, hr, hrq⟩ := exists_record_of_mem_added (haddedp q hq)
      exact ⟨r, hr, hrq.trans hqo⟩
    refine ⟨⟨some o', ?_, ?_, ?_, ?_, ?_⟩, hcommitted, hold⟩
    · rw [hmeta]
      exact h.wellFormed.addSnapshot hid hparent
    · rw [hmeta]
      exact getIcebergCommittedOffset_addSnapshot hid hoffset
    · rintro _ ⟨⟩
      refine ⟨⟨r, hp.subset hr, hro⟩, fun pid e he hle => ?_⟩
      have hep := mem_added_of_le hp hsorted he hr (hro ▸ hle)
      by_cases hpend : e ∈ pendingOf topic s₀ pid p
      · exact hcommitted (pid, e) ((mem_pending_iff ht).2 hpend)
      · exact (hremoved p hp pid e hep hpend).mono hold
    · intro y hy
      rw [happ] at hy
      rcases mem_append.1 hy with hy | hy
      · obtain ⟨hadd, o₁, ho₁, hle⟩ := h.mem_added y hy
        refine ⟨hadd, o', rfl, ?_⟩
        -- some entry was not skipped, so the new offset is above the old one
        obtain ⟨f, hf⟩ := exists_mem_of_ne_nil _ hfiles
        obtain ⟨hz, hzi, hzo⟩ := hcol.mem_origins.1 (mem_map_of_mem hf)
        obtain ⟨o₂, ho₂, hle₂⟩ := hcol.le_new _ hz
          (ne_nil_of_length_pos (Nat.zero_lt_of_lt hzi))
        rw [hnew] at ho₂
        cases ho₂
        exact hle.trans ((hzo o₁ (heq ▸ ho₁)).le.trans hle₂)
      · obtain ⟨hy, hyi, -⟩ := hcol.mem_origins.1 hy
        obtain ⟨o₂, ho₂, hle₂⟩ := hcol.le_new _ hy
          (ne_nil_of_length_pos (Nat.zero_lt_of_lt hyi))
        exact ⟨hadded _ hy, o₂, hnew ▸ ho₂, hle₂⟩
    · rw [happ]
      refine nodup_append.2 ⟨h.nodup, hcol.nodup (nodup_pending_of_isCopy hs hincp ht), ?_⟩
      rintro y hy _ hy' rfl
      obtain ⟨-, o₁, ho₁, hle⟩ := h.mem_added y hy
      exact absurd hle (not_le.2 ((hcol.mem_origins.1 hy').2.2 o₁ (heq ▸ ho₁)))

/-! ## Steps -/

/-- An update for the last pending entry of a partition in a copy, after the files of all
    pending entries of the copy have been committed. -/
theorem settled_of_marksPartition (hinc : ∀ r ∈ log, r.2.Increasing) (hcopy : IsCopy topic s₀ log t)
    (hremoved : ∀ p, p <+: log → ∀ pid, ∀ e ∈ addedTo topic s₀ pid p,
      e ∉ pendingOf topic s₀ pid p → ∀ k, (tables k).HasFiles k pid e)
    (hcommitted : ∀ k, CommittedInv (tables k) k t) {u : MarkFilesCommittedUpdate}
    (hu : MarksPartition topic t u) : Settled topic s₀ log tables u := by
  obtain ⟨p, hp, ht⟩ := hcopy
  obtain ⟨htopic, e₁, he₁, hlast⟩ := hu
  have hpend : e₁ ∈ pendingOf topic s₀ u.tp.partition p := by
    rw [← mem_pending_iff ht, mem_pending]
    exact mem_of_getLast? he₁
  have hadd := mem_addedTo_of_mem_pendingOf hs (fun r hr => hinc r (hp.subset hr)) hpend
  refine ⟨htopic, ⟨e₁, mem_added_of_isPrefix hp hadd, hlast.symm⟩, fun e he hle k => ?_⟩
  have hep := mem_added_of_lastOffset_le hs hp hinc he hadd (hlast ▸ hle)
  by_cases he' : e ∈ pendingOf topic s₀ u.tp.partition p
  · exact hcommitted k (u.tp.partition, e) ((mem_pending_iff ht).2 he')
  · exact hremoved p hp u.tp.partition e hep he' k

end

/-- What the task is after a commit. -/
theorem Task.commitTable_eq_ok {bs : Builders V}
    {id : SnapshotId} {table table' : Table V} {t : Task V}
    (h : commitTable c k updates bs id table = .ok (t, table')) :
    (bs k = none ∧ table' = table ∨
      ∃ b m, bs k = some b ∧ b.commit c id table = .ok (m, table')) ∧
    ((k = .dlq ∧ t = .commit .main updates bs) ∨
      k = .main ∧ ∃ updates' : List MarkFilesCommittedUpdate, t = .done updates' ∧
        ∀ u' ∈ updates', ∃ u ∈ updates, u'.tp = u.tp ∧ u'.newCommitted = u.newCommitted) := by
  rw [commitTable.eq_def] at h
  rcases hb : bs k with _ | b
  · cases k with
    | main =>
      rw [hb] at h
      cases h
      exact ⟨.inl ⟨rfl, rfl⟩, .inr ⟨rfl, updates, rfl, fun u hu => ⟨u, hu, rfl, rfl⟩⟩⟩
    | dlq =>
      rw [hb] at h
      cases h
      exact ⟨.inl ⟨rfl, rfl⟩, .inl ⟨rfl, rfl⟩⟩
  · cases k with
    | main =>
      rw [hb] at h
      obtain ⟨⟨m, table''⟩, hcommit, h⟩ := bind_eq_ok.1 h
      simp only at h
      -- the snapshot id is put into the updates, their offsets stay
      rcases hid : m.currentSnapshotId with _ | snapId
      · rw [hid] at h
        cases h
        exact ⟨.inr ⟨b, m, rfl, hcommit⟩, .inr ⟨rfl, updates, rfl, fun u hu => ⟨u, hu, rfl, rfl⟩⟩⟩
      · rw [hid] at h
        cases h
        refine ⟨.inr ⟨b, m, rfl, hcommit⟩, .inr ⟨rfl, _, rfl, fun u' hu' => ?_⟩⟩
        obtain ⟨u, hu, rfl⟩ := mem_map.1 hu'
        exact ⟨u, hu, rfl, rfl⟩
    | dlq =>
      rw [hb] at h
      obtain ⟨⟨m, table''⟩, hcommit, h⟩ := bind_eq_ok.1 h
      cases h
      exact ⟨.inr ⟨b, m, rfl, hcommit⟩, .inl ⟨rfl, rfl⟩⟩

/-- Actions that add only ranges that are not empty. -/
def Action.Increasing : Action → Prop
  | .addFiles _ u => u.Increasing
  | _ => True

namespace System.Inv

variable {σ σ' : System V}

/-- A task begins with the topic as it is after a prefix of the log. -/
theorem start (σ : System V) (n : Nat) :
    TaskInv c topic s₀ σ.log σ.tables (Task.start topic (replay s₀ (σ.log.take n))) := by
  rw [Task.start]
  rcases ht : (replay s₀ (σ.log.take n)).topicToState.lookup topic with _ | t
  · exact nofun
  · simp only
    split_ifs
    · exact ⟨⟨_, take_prefix n σ.log, ht⟩, nofun⟩
    · exact nofun

variable {bs : Builders V} {t : Task V}

/-- What is processed is what the table does not have. -/
theorem processAll {state : TopicsState}
    (ht : TaskInv c topic s₀ σ.log σ.tables (.process tpState bs))
    (hproc : Task.processAll c topic tpState bs state = .ok t) :
    TaskInv c topic s₀ σ.log σ.tables t := by
  obtain ⟨⟨m, bs'⟩, hx, hproc⟩ := bind_eq_ok.1 hproc
  obtain ⟨hmarks, hcol⟩ := processEntries_eq_ok (fun k b hb => (ht.2 k b hb).2) hx
  simp only at hproc
  split_ifs at hproc
  · exact (Except.ok.inj hproc) ▸ nofun
  · obtain ⟨updates, hupdates, hproc⟩ := bind_eq_ok.1 hproc
    cases hproc
    refine ⟨tpState, ht.1, marksPartition_of_buildUpdates hmarks hupdates, fun k => ?_⟩
    have hk := hcol k
    rcases hb : bs k with _ | b₀
    · rw [hb] at hk
      rw [hk.1]
      exact hk.2
    · rw [hb] at hk
      obtain ⟨b, hb', hcol⟩ := hk
      rw [hb']
      exact ⟨b₀, (ht.2 k b₀ hb).1, hcol⟩

variable (h : σ.Inv c topic s₀)

include h

theorem grows {tables : TableKind → Table V}
    (happ : ∀ k, ∀ x ∈ (σ.tables k).appended, x ∈ (tables k).appended) :
    Grows σ.log σ.log σ.tables tables :=
  ⟨prefix_rfl, h.sorted, h.increasing, happ⟩

/-- A task that comes to what it has to satisfy, or ends. -/
theorem setTask (i : Nat) {t : Option (Task V)}
    (ht : ∀ t' ∈ t, TaskInv c topic s₀ σ.log σ.tables t') : (σ.setTask i t).Inv c topic s₀ where
  __ := h
  tasks := (Function.forall_update_iff σ.tasks fun _ x => ∀ t', x = some t' →
    TaskInv c topic s₀ σ.log σ.tables t').2 ⟨ht, fun j _ => h.tasks j⟩

/-- A task takes the committed offset from the metadata that it loads. -/
theorem loadTable (ht : TaskInv c topic s₀ σ.log σ.tables (.load k tpState bs))
    (hload : Task.loadTable c k tpState bs (σ.tables k).metadata = .ok t) :
    TaskInv c topic s₀ σ.log σ.tables t := by
  obtain ⟨bs', hbs', hload⟩ := bind_eq_ok.1 hload
  have hinv : IsCopy topic s₀ σ.log tpState ∧ ∀ k b, bs' k = some b →
      LoadedInv c topic s₀ σ.log (σ.tables k) k b ∧ b.icbFiles = [] ∧
        b.newCommittedOffset = none := by
    refine ⟨ht.1, fun k' b hb => ?_⟩
    rw [Builders.load] at hbs'
    split_ifs at hbs'
    · obtain ⟨b', hb', hbs'⟩ := bind_eq_ok.1 hbs'
      cases hbs'
      rcases eq_or_ne k' k with rfl | hne
      · rw [Function.update_self] at hb
        cases hb
        obtain ⟨o, ho, rfl⟩ := TableCommitBuilder.create_eq_ok hb'
        obtain ⟨m, hm⟩ := h.tables k'
        obtain rfl : m = o := Except.ok.inj (hm.offset.symm.trans ho)
        exact ⟨⟨ho, hm.covers⟩, rfl, rfl⟩
      · rw [Function.update_of_ne hne] at hb
        exact ht.2 k' b hb
    · cases hbs'
      exact ht.2 k' b hb
  cases k <;> exact Except.ok.inj hload ▸ hinv

/-- A task loads the next table. -/
theorem load {i : Nat} (hstep : σ.Step c topic s₀ (.load i) σ') : σ'.Inv c topic s₀ := by
  rw [System.Step, System.next] at hstep
  split at hstep
  · rename_i k tpState bs hi
    cases hstep
    exact h.setTask i fun t ht => h.loadTable (h.tasks i _ hi) (Except.toOption_eq_some.1 ht)
  · exact nomatch hstep

/-- A task that has its tables processes the pending entries. -/
theorem process {i n : Nat} (hstep : σ.Step c topic s₀ (.process i n) σ') :
    σ'.Inv c topic s₀ := by
  rw [System.Step, System.next] at hstep
  split at hstep
  · rename_i tpState bs hi
    cases hstep
    exact h.setTask i fun t ht => processAll (h.tasks i _ hi) (Except.toOption_eq_some.1 ht)
  · exact nomatch hstep

/-- A task that has committed to all tables returns its updates. -/
theorem finish {i : Nat} (hstep : σ.Step c topic s₀ (.finish i) σ') : σ'.Inv c topic s₀ := by
  rw [System.Step, System.next] at hstep
  split at hstep
  · rename_i updates hi
    cases hstep
    have hinv := h.setTask i (t := none) nofun
    exact { hinv with returned := forall_mem_append.2 ⟨h.returned, h.tasks i _ hi⟩ }
  · exact nomatch hstep

variable (hs : ∀ tp, s₀.partition tp = {})

include hs

/-- A table that keeps its files. -/
theorem setTable {t : Table V} (ht : ∃ o, TableInv c topic s₀ σ.log t k o)
    (happ : ∀ x ∈ (σ.tables k).appended, x ∈ t.appended) : (σ.setTable k t).Inv c topic s₀ := by
  have happ' : ∀ k', ∀ x ∈ (σ.tables k').appended, x ∈ ((σ.setTable k t).tables k').appended :=
    (Function.forall_update_iff σ.tables fun k' t => ∀ x ∈ (σ.tables k').appended,
      x ∈ t.appended).2 ⟨happ, fun _ _ _ => id⟩
  have hg := h.grows happ'
  have htables := (Function.forall_update_iff σ.tables fun k' t =>
    ∃ m, TableInv c topic s₀ σ.log t k' m).2 ⟨ht, fun k' _ => h.tables k'⟩
  refine ⟨h.sorted, h.increasing, htables, fun p hp pid e he he' k' =>
    (h.removed p hp pid e he he' k').mono (happ' k'), fun u hu => hg.settled hs (h.returned u hu),
    fun i t' ht' => hg.task hs (h.tasks i t' ht')⟩

/-- A record that is appended: only entries of updates that were returned are removed. -/
theorem append {o : Int} {u : Update} (hu : u.Increasing)
    (hmark : ∀ u', u = .markFilesCommitted u' → u'.tp.topic = topic → u' ∈ σ.returned)
    (hσ' : σ.append o u = some σ') : σ'.Inv c topic s₀ := by
  obtain ⟨hlt, rfl⟩ := Option.ite_some_none_eq_some.1 hσ'
  have hg : Grows σ.log (σ.log ++ [(o, u)]) σ.tables σ.tables := by
    exact ⟨prefix_append _ _, pairwise_concat.2 ⟨h.sorted, hlt⟩,
      forall_mem_concat.2 ⟨h.increasing, hu⟩, fun _ _ hx => hx⟩
  refine ⟨hg.sorted, hg.increasing, fun k => ?_, fun p hp pid e he he' k => ?_,
    fun u hu => hg.settled hs (h.returned u hu), fun i t ht => hg.task hs (h.tasks i t ht)⟩
  · obtain ⟨m, hm⟩ := h.tables k
    refine ⟨m, hm.wellFormed, hm.offset, fun o ho => hg.covers (hm.covers o ho), fun x hx => ?_,
      hm.nodup⟩
    obtain ⟨hadd, hle⟩ := hm.mem_added x hx
    exact ⟨mem_added_of_isPrefix hg.log_prefix hadd, hle⟩
  · rcases prefix_concat_iff.1 hp with rfl | hp
    · -- what the new record removes
      rw [addedTo, added_append, added_singleton] at he
      rw [pendingOf, replay_append] at he'
      change e ∉ ((CoordinatorStm.doApply (replay s₀ σ.log) o u).partition _).pendingEntries at he'
      have hold : e ∈ addedTo topic s₀ pid σ.log → e ∉ pendingOf topic s₀ pid σ.log →
          (σ.tables k).HasFiles k pid e := fun he he' =>
        h.removed σ.log prefix_rfl pid e he he' k
      cases u with
      | addFiles u =>
        obtain ⟨hacc, hpart⟩ | ⟨first, rest, -, hacc, -, hpart⟩ :=
          partition_doApply_addFiles (replay s₀ σ.log) ⟨topic, pid⟩ o u
        · rw [hacc, append_nil] at he
          rw [hpart] at he'
          exact hold he he'
        · rw [hpart, AddFilesUpdate.addTo, mem_append, not_or, ← hacc] at he'
          exact hold ((mem_append.1 he).resolve_right he'.2) he'.1
      | markFilesCommitted u =>
        rw [accepted, append_nil] at he
        obtain hpart | ⟨htp, -, hpart⟩ :=
          partition_doApply_markFilesCommitted (replay s₀ σ.log) ⟨topic, pid⟩ o u
        · rw [hpart] at he'
          exact hold he he'
        · rw [hpart, MarkFilesCommittedUpdate.commitPartition] at he'
          by_cases hpend : e ∈ pendingOf topic s₀ pid σ.log
          · have htake : e ∈ (pendingOf topic s₀ pid σ.log).takeWhile
                fun e => e.data.lastOffset ≤ u.newCommitted := by
              rw [← takeWhile_append_dropWhile (l := pendingOf topic s₀ pid σ.log)
                (p := fun e => e.data.lastOffset ≤ u.newCommitted)] at hpend
              exact (mem_append.1 hpend).resolve_right he'
            have hsettled := h.returned u (hmark u rfl (by rw [htp]))
            have hfiles := hsettled.hasFiles
            rw [htp] at hfiles
            exact hfiles e he (by simpa using mem_takeWhile_imp htake) k
          · exact hold he hpend
      | topicLifecycleUpdate | resetTopicState => exact hu.elim
    · exact h.removed p hp pid e he he' k

/-- A commit leaves the files of all pending entries in the table. -/
theorem commit (hcopy : IsCopy topic s₀ σ.log tpState) {b : Option (TableCommitBuilder V)}
    (hb : ProcessedInv c topic s₀ σ.log (σ.tables k) k tpState b) {id : SnapshotId}
    (hid : ∀ b' ∈ b, id ∉ b'.table.history.map (·.id)) {table : Table V}
    (hcommit : b = none ∧ table = σ.tables k ∨
      ∃ b' m, b = some b' ∧ b'.commit c id (σ.tables k) = .ok (m, table)) :
    (σ.setTable k table).Inv c topic s₀ ∧ CommittedInv table k tpState := by
  obtain ⟨rfl, rfl⟩ | ⟨b, m, rfl, hcommit⟩ := hcommit
  · refine ⟨h.setTable hs (h.tables k) fun _ hx => hx, fun p hp i hi => ?_⟩
    rw [hb p hp] at hi
    exact absurd hi (Nat.not_lt_zero i)
  · obtain ⟨o, ho⟩ := h.tables k
    obtain ⟨htable, hcommitted, happ⟩ := ho.commit hs h.sorted h.increasing hcopy
      (fun p hp pid e he he' => h.removed p hp pid e he he' k) hb (hid b rfl) hcommit
    exact ⟨h.setTable hs htable happ, hcommitted⟩

/-- After both commits, the updates are settled. -/
theorem commitTable {updates : List MarkFilesCommittedUpdate} {id : SnapshotId}
    (hid : ∀ b ∈ bs k, id ∉ b.table.history.map (·.id))
    (ht : TaskInv c topic s₀ σ.log σ.tables (.commit k updates bs)) {table : Table V}
    (hcommit : Task.commitTable c k updates bs id (σ.tables k) = .ok (t, table)) :
    (σ.setTable k table).Inv c topic s₀ ∧
      TaskInv c topic s₀ σ.log (σ.setTable k table).tables t := by
  obtain ⟨hone, ⟨rfl, rfl⟩ | ⟨rfl, updates', rfl, hupdates⟩⟩ := Task.commitTable_eq_ok hcommit
  · obtain ⟨tpState, hcopy, hmarks, hbs⟩ := ht
    obtain ⟨hinv, hcommitted⟩ := h.commit hs hcopy (hbs .dlq) hid hone
    refine ⟨hinv, tpState, hcopy, hmarks, ?_, ?_⟩
    · rwa [setTable_tables_self]
    · rw [setTable_tables_of_ne σ (by decide)]
      exact hbs .main
  · obtain ⟨tpState, hcopy, hmarks, hdlq, hmain⟩ := ht
    obtain ⟨hinv, hcommitted⟩ := h.commit hs hcopy hmain hid hone
    refine ⟨hinv, fun u' hu' => ?_⟩
    obtain ⟨u, hu, htp, hnew⟩ := hupdates u' hu'
    refine settled_of_marksPartition hs h.increasing hcopy hinv.removed (fun k => ?_) ?_
    · cases k with
      | main => rwa [setTable_tables_self]
      | dlq => rwa [setTable_tables_of_ne σ (by decide)]
    · rw [MarksPartition, htp, hnew]
      exact hmarks u hu

/-- Metadata with the same commit offset, on the same files. -/
theorem setMetadata {m : TableMetadata} (hm : m.WellFormed)
    (hoffset : getIcebergCommittedOffset m c.cluster =
      getIcebergCommittedOffset (σ.tables k).metadata c.cluster) :
    (σ.setTable k ⟨m, (σ.tables k).commits⟩).Inv c topic s₀ := by
  obtain ⟨o, ho⟩ := h.tables k
  refine h.setTable hs ⟨o, hm, hoffset.trans ho.offset, fun o' ho' => ?_, ho.mem_added, ho.nodup⟩
    fun _ => id
  exact ⟨(ho.covers o' ho').mem_log, (ho.covers o' ho').hasFiles⟩

/-- A task commits to a table. If it fails, the task is given up and the table stays. -/
theorem commitStep {i : Nat} {id : SnapshotId} (hstep : σ.Step c topic s₀ (.commit i id) σ') :
    σ'.Inv c topic s₀ := by
  rw [System.Step, System.next] at hstep
  split at hstep
  · rename_i k updates bs hi
    obtain ⟨hid, hstep⟩ := Option.ite_none_right_eq_some.1 hstep
    rcases hcommit : Task.commitTable c k updates bs id (σ.tables k) with err | ⟨t, table⟩ <;>
      rw [hcommit] at hstep <;> cases hstep
    · exact h.setTask i nofun
    · obtain ⟨hinv, ht⟩ := h.commitTable hs (by simpa [Option.all_eq_true] using hid)
        (h.tasks i _ hi) hcommit
      refine hinv.setTask i fun t' ht' => ?_
      cases ht'
      exact ht
  · exact nomatch hstep

/-- Another writer changes what does not concern the snapshots of a table. -/
theorem alterTable {m : TableMetadata} (hstep : σ.Step c topic s₀ (.alterTable k m) σ') :
    σ'.Inv c topic s₀ := by
  obtain ⟨⟨hcur, hsnaps⟩, rfl⟩ := Option.ite_some_none_eq_some.1 hstep
  obtain ⟨o, ho⟩ := h.tables k
  have hhist : m.history = (σ.tables k).metadata.history := by
    rw [TableMetadata.history, hsnaps]
    rfl
  refine h.setMetadata hs ⟨hhist ▸ ho.wellFormed.rooted, ?_⟩ ?_
  · rw [hcur, hhist]
    exact ho.wellFormed.current
  · rw [getIcebergCommittedOffset, getIcebergCommittedOffset, hcur, hsnaps]

/-- Every step keeps the invariant. -/
theorem step {a : Action} (ha : a.Increasing)
    (hstep : σ.Step c topic s₀ a σ') : σ'.Inv c topic s₀ := by
  cases a with
  | addFiles o u => exact h.append hs (u := .addFiles u) ha nofun hstep
  | markFilesCommitted o u =>
    -- the update is one that a task has returned
    obtain ⟨hret, hstep⟩ := Option.ite_none_right_eq_some.1 hstep
    refine h.append hs (u := .markFilesCommitted u) trivial (fun u' hu' htopic => ?_) hstep
    cases hu'
    exact hret htopic
  | start i n =>
    cases hstep
    refine h.setTask i fun t ht => ?_
    cases ht
    exact start σ n
  | load i => exact h.load hstep
  | process i n => exact h.process hstep
  | commit i id => exact h.commitStep hs hstep
  | finish i => exact h.finish hstep
  | crash i =>
    cases hstep
    exact h.setTask i nofun
  | addSnapshot k x =>
    obtain ⟨⟨hid, hparent, hx⟩, rfl⟩ := Option.ite_some_none_eq_some.1 hstep
    obtain ⟨o, ho⟩ := h.tables k
    exact h.setMetadata hs (ho.wellFormed.addSnapshot hid hparent)
      (ho.wellFormed.getIcebergCommittedOffset_addSnapshot_foreign hid hparent
        (Except.toOption_eq_some.1 hx))
  | alterTable k m => exact h.alterTable hs hstep

end System.Inv

/-! ## Runs -/

/-- In the beginning the tables are empty. -/
theorem System.inv_init (htables : ∀ k, (tables k).Fresh c) :
    ({ tables } : System V).Inv c topic s₀ where
  sorted := .nil
  increasing := by simp
  tables k := by
    have happ : (tables k).appended = [] := by rw [Table.appended, (htables k).commits]; rfl
    refine ⟨none, (htables k).wellFormed, (htables k).offset, nofun, ?_, ?_⟩
    · rw [happ]
      exact nofun
    · rw [happ]
      exact nodup_nil
  removed p hp pid e he := by
    obtain rfl := prefix_nil.1 hp
    cases he
  returned := by simp
  tasks i t ht := nomatch ht

/-- In every run of coordinators from new tables and partitions without entries, in which the
    added ranges are not empty: no pending file is appended to a table twice, and an entry
    that is pending before a record of the log but not after it has all its files in the
    tables. -/
theorem exactly_once_of_run {σ : System V} {l : List Action}
    (hs : ∀ tp, s₀.partition tp = {}) (htables : ∀ k, (tables k).Fresh c)
    (h : Run (System.Step c topic s₀) { tables } l σ) (hl : ∀ a ∈ l, a.Increasing) :
    (∀ k, (σ.tables k).appended.Nodup) ∧
      ∀ log₁ r log₂, σ.log = log₁ ++ r :: log₂ → ∀ pid, ∀ e ∈ pendingOf topic s₀ pid log₁,
        e ∉ pendingOf topic s₀ pid (log₁ ++ [r]) → ∀ k, (σ.tables k).HasFiles k pid e := by
  have hinv : σ.Inv c topic s₀ :=
    h.invariant_of_labels (fun hσ ha hstep => hσ.step hs ha hstep) hl (System.inv_init htables)
  refine ⟨fun k => ?_, fun log₁ r log₂ hlog pid e he he' => ?_⟩
  · obtain ⟨m, hm⟩ := hinv.tables k
    exact hm.nodup
  · have hp : log₁ ++ [r] <+: σ.log := ⟨log₂, by rw [hlog, append_assoc]; rfl⟩
    have hadd : e ∈ addedTo topic s₀ pid log₁ := mem_addedTo_of_mem_pendingOf hs
      (fun r' hr' => hinv.increasing r' (hp.subset (mem_append_left _ hr'))) he
    exact hinv.removed _ hp pid e (mem_added_of_isPrefix (prefix_append _ _) hadd) he'

end Proofs

/-! ## A topic with one partition -/

def testCommitter : Committer Int where
  cluster := 1
  toUri path := path
  intValue n := n
  valueFromBytes _ _ _ _ := none

def testTables : TableKind → Table Int := fun _ =>
  { metadata := { partitionSpecs := [⟨0, ["hour"]⟩] } }

/-- The topic is registered, and nothing has been added. -/
def testState : TopicsState where
  topicToState := (∅ : AList _).insert "orders" { revision := 1 }

theorem partition_testState (tp : TopicPartition) : testState.partition tp = {} := by
  obtain ⟨topic, pid⟩ := tp
  rw [TopicsState.partition, TopicsState.partitionState, testState]
  rcases eq_or_ne topic "orders" with rfl | hne
  · rw [AList.lookup_insert]
    rfl
  · rw [AList.lookup_insert_ne hne]
    rfl

theorem fresh_testTables (k : TableKind) : (testTables k).Fresh testCommitter :=
  ⟨rfl, ⟨.nil, nofun⟩, rfl⟩

/-- A range with one file. -/
def testRange (start last : Int) : TranslatedOffsetRange where
  startOffset := start
  lastOffset := last
  files := [{ remotePath := "data.parquet" }]

def addRange (o start last : Int) : Action :=
  .addFiles o ⟨firstPartition, 1, [testRange start last]⟩

/-- A replica with one record commits the entry of this record, ending at an offset. Another
    entry is added before the update that it returns is put into the log. -/
def commitThenAdd (last start' last' : Int) : List Action :=
  [addRange 1 0 last, .start 0 1, .load 0, .load 0, .process 0 1, .commit 0 7, .commit 0 8, .finish 0,
    addRange 2 start' last', .markFilesCommitted 3 ⟨firstPartition, 1, last, 0, 8⟩]

/-- The entries that are pending after a number of records of the log. -/
def System.pendingAfter (σ : System Int) (n : Nat) : List PendingEntry :=
  pendingOf "orders" testState 0 (σ.log.take n)

theorem exists_run_commitThenAdd {a b d : Int} {P : System Int → Prop} [DecidablePred P]
    (h : ((commitThenAdd a b d).foldlM (System.next testCommitter "orders" testState)
      { tables := testTables }).any (fun σ => P σ) = true) :
    ∃ σ, Run (System.Step testCommitter "orders" testState) { tables := testTables }
      (commitThenAdd a b d) σ ∧ P σ := by
  obtain ⟨σ, hσ, hP⟩ := (Option.any_eq_true _ _).1 h
  exact ⟨σ, Run.of_foldlM hσ, of_decide_eq_true hP⟩

/-- The first of two entries is committed and removed. -/
theorem exactly_once_of_run_commit :
    ∃ σ, Run (System.Step testCommitter "orders" testState) { tables := testTables }
        (commitThenAdd 9 10 19) σ ∧
      (σ.pendingAfter 2).length = 2 ∧ (σ.pendingAfter 3).length = 1 ∧
      (σ.tables .main).appended.Nodup ∧
      (σ.tables .main).HasFiles .main 0 ⟨testRange 0 9, 1⟩ := by
  obtain ⟨σ, hrun, hlog, hmem, hnot, hlength, hlength'⟩ :=
    exists_run_commitThenAdd (a := 9) (b := 10) (d := 19)
      (P := fun σ => σ.log.length = 3 ∧ ⟨testRange 0 9, 1⟩ ∈ σ.pendingAfter 2 ∧
        ⟨testRange 0 9, 1⟩ ∉ σ.pendingAfter 3 ∧
        (σ.pendingAfter 2).length = 2 ∧ (σ.pendingAfter 3).length = 1) (by decide)
  have hinc : ∀ a ∈ commitThenAdd 9 10 19, a.Increasing := by
    simp only [commitThenAdd, forall_mem_cons]
    exact ⟨(by decide : AddFilesUpdate.Increasing _), trivial, trivial, trivial, trivial, trivial,
      trivial, trivial, (by decide : AddFilesUpdate.Increasing _), trivial,
      nofun⟩
  obtain ⟨hnodup, hremoved⟩ := exactly_once_of_run partition_testState fresh_testTables hrun hinc
  refine ⟨σ, hrun, hlength, hlength', hnodup .main, ?_⟩
  obtain ⟨r₁, r₂, r₃, hrecords⟩ := length_eq_three.1 hlog
  rw [System.pendingAfter, hrecords] at hmem hnot
  exact hremoved [r₁, r₂] r₃ [] hrecords 0 _ hmem hnot .main

/-- A range that ends before it starts, and one that starts at the largest offset where an
    entry has ended already, are removed without having been appended. -/
theorem exists_removed_not_appended :
    (∃ σ, Run (System.Step testCommitter "orders" testState) { tables := testTables }
        (commitThenAdd 9 10 5) σ ∧ ⟨testRange 10 5, 2⟩ ∈ σ.pendingAfter 2 ∧
      ⟨testRange 10 5, 2⟩ ∉ σ.pendingAfter 3 ∧
      ¬ (σ.tables .main).HasFiles .main 0 ⟨testRange 10 5, 2⟩) ∧
    ∃ σ, Run (System.Step testCommitter "orders" testState) { tables := testTables }
        (commitThenAdd Offset.max Offset.max Offset.max) σ ∧
      ⟨testRange Offset.max Offset.max, 2⟩ ∈ σ.pendingAfter 2 ∧
      ⟨testRange Offset.max Offset.max, 2⟩ ∉ σ.pendingAfter 3 ∧
      ¬ (σ.tables .main).HasFiles .main 0 ⟨testRange Offset.max Offset.max, 2⟩ :=
  ⟨exists_run_commitThenAdd (by decide), exists_run_commitThenAdd (by decide)⟩

/-- The offset that is committed to a table tells what the table holds: files of entries that
    the log has added up to the offset, and all of these files. -/
theorem files_of_run {σ : System V} {l : List Action}
    (hs : ∀ tp, s₀.partition tp = {}) (htables : ∀ k, (tables k).Fresh c)
    (h : Run (System.Step c topic s₀) { tables } l σ) (hl : ∀ a ∈ l, a.Increasing) (k : TableKind) :
    ∃ m, getIcebergCommittedOffset (σ.tables k).metadata c.cluster = .ok m ∧
      (∀ x ∈ (σ.tables k).appended, x.entry ∈ addedTo topic s₀ x.pid σ.log ∧
        ∃ o ∈ m, x.entry.addedPendingAt ≤ o) ∧
      ∀ o ∈ m, ∀ pid, ∀ e ∈ addedTo topic s₀ pid σ.log, e.addedPendingAt ≤ o →
        (σ.tables k).HasFiles k pid e := by
  have hinv : σ.Inv c topic s₀ :=
    h.invariant_of_labels (fun hσ ha hstep => hσ.step hs ha hstep) hl (System.inv_init htables)
  obtain ⟨m, hm⟩ := hinv.tables k
  exact ⟨m, hm.offset, hm.mem_added, fun o ho => (hm.covers o ho).hasFiles⟩

/-- The table has the first of two entries, and its committed offset is the one of this entry. -/
theorem files_of_run_commit :
    ∃ σ, Run (System.Step testCommitter "orders" testState) { tables := testTables }
        (commitThenAdd 9 10 19) σ ∧
      getIcebergCommittedOffset (σ.tables .main).metadata 1 = .ok (some 1) ∧
      (∀ x ∈ (σ.tables .main).appended, x.entry.addedPendingAt ≤ 1) ∧
      (σ.tables .main).HasFiles .main 0 ⟨testRange 0 9, 1⟩ := by
  have hinc : ∀ a ∈ commitThenAdd 9 10 19, a.Increasing := by
    simp [commitThenAdd, addRange, Action.Increasing, AddFilesUpdate.Increasing, testRange,
      Offset.max]
  obtain ⟨σ, hrun, hoffset, hadded⟩ := exists_run_commitThenAdd (a := 9) (b := 10) (d := 19)
    (P := fun σ =>
      (getIcebergCommittedOffset (σ.tables .main).metadata 1).toOption = some (some 1) ∧
        ⟨testRange 0 9, 1⟩ ∈ addedTo "orders" testState 0 σ.log) (by decide)
  have hoffset := Except.toOption_eq_some.1 hoffset
  obtain ⟨m, hm, hbelow, hfiles⟩ :=
    files_of_run partition_testState fresh_testTables hrun hinc .main
  obtain rfl : m = some 1 := Except.ok.inj (hm.symm.trans hoffset)
  refine ⟨σ, hrun, hoffset, fun x hx => ?_, hfiles 1 rfl 0 _ hadded le_rfl⟩
  obtain ⟨o, ho, hle⟩ := (hbelow x hx).2
  obtain rfl : 1 = o := Option.some.inj ho
  exact hle

end Redpanda.Datalake
