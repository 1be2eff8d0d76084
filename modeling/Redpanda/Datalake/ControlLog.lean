import Redpanda.Lib.Pairwise
import Redpanda.Datalake.PendingEntries

/-!
# The control topic

All replicas of a coordinator apply the same log, each as far as it has come (`replay`). For
a partition, the log tells all entries that were ever added to it (`added`). As long as the
log only adds and commits files, and the added ranges end above each other, the pending
entries are the newest of them (`Tracks`): those that were removed were added before
those that are left, and end below them.
-/

namespace Redpanda.Datalake

open Lib Model List
open CoordinatorStm (doApply)

variable (tp : TopicPartition) (s : TopicsState) (log log' : List (Int × Update)) (r : Int × Update)

/-- The state of a replica that has applied the records of a log. -/
def replay : TopicsState :=
  log.foldl (fun s r => doApply s r.1 r.2) s

/-- The entries that a record adds to a partition. -/
def accepted : List PendingEntry :=
  match r.2 with
  | .addFiles u =>
    if u.tp = tp then
      match u.canApply s with
      | .ok _ => u.entries.map fun e => ⟨e, r.1⟩
      | .error _ => []
    else []
  | _ => []

/-- All entries that are added to a partition by the records of a log. -/
def added (s : TopicsState) : List (Int × Update) → List PendingEntry
  | [] => []
  | r :: log => accepted tp s r ++ added (doApply s r.1 r.2) log

/-- The state of a partition, which has no entries if there is none. -/
def TopicsState.partition (s : TopicsState) (tp : TopicPartition) : PartitionState :=
  (s.partitionState tp).getD {}

theorem replay_append : replay s (log ++ log') = replay (replay s log) log' :=
  foldl_append

theorem added_append :
    added tp s (log ++ log') = added tp s log ++ added tp (replay s log) log' := by
  induction log generalizing s with
  | nil => rfl
  | cons r log ih =>
    rw [cons_append, added, added, ih, append_assoc]
    rfl

theorem added_singleton : added tp s [r] = accepted tp s r :=
  append_nil _

variable {tp s log log' r} {e : PendingEntry} {p : PartitionState}

theorem addedPendingAt_of_mem_accepted (he : e ∈ accepted tp s r) : e.addedPendingAt = r.1 := by
  obtain ⟨o, u⟩ := r
  cases u with
  | addFiles u =>
    simp only [accepted] at he
    split_ifs at he
    · split at he
      · obtain ⟨r, -, rfl⟩ := mem_map.1 he
        rfl
      · cases he
    · cases he
  | _ => cases he

/-- Entries carry the offset of the record that added them. -/
theorem exists_record_of_mem_added (he : e ∈ added tp s log) :
    ∃ r ∈ log, r.1 = e.addedPendingAt := by
  induction log generalizing s with
  | nil => cases he
  | cons r log ih =>
    rcases mem_append.1 he with he | he
    · exact ⟨r, mem_cons_self, (addedPendingAt_of_mem_accepted he).symm⟩
    · obtain ⟨r', hr', h⟩ := ih he
      exact ⟨r', mem_cons_of_mem r hr', h⟩

theorem mem_added_of_isPrefix (h : log <+: log') (he : e ∈ added tp s log) :
    e ∈ added tp s log' := by
  obtain ⟨log'', rfl⟩ := h
  rw [added_append]
  exact mem_append_left _ he

/-- In a log with increasing offsets, what was added up to an offset of a prefix was added by
    the prefix. -/
theorem mem_added_of_le (h : log <+: log') (hsorted : log'.Pairwise (·.1 < ·.1))
    (he : e ∈ added tp s log') (hr : r ∈ log) (hle : e.addedPendingAt ≤ r.1) :
    e ∈ added tp s log := by
  obtain ⟨log'', rfl⟩ := h
  rw [added_append] at he
  refine (mem_append.1 he).resolve_right fun he => ?_
  obtain ⟨r', hr', heq⟩ := exists_record_of_mem_added he
  have := (pairwise_append.1 hsorted).2.2 r hr r' hr'
  omega

/-! ## What a record does to a partition -/

theorem partition_setTopic (s : TopicsState) (tp : TopicPartition) {topic : Topic}
    {t t' : TopicState} (ht : s.topicToState.lookup topic = some t) {pid : PartitionId}
    (hfiles : t'.pidToPendingFiles = t.pidToPendingFiles.insert pid p) :
    (s.setTopic topic t').partition tp = if ⟨topic, pid⟩ = tp then p else s.partition tp := by
  rw [TopicsState.partition, TopicsState.partition, TopicsState.partitionState,
    TopicsState.partitionState, TopicsState.setTopic]
  obtain ⟨topic', pid'⟩ := tp
  rcases eq_or_ne topic' topic with rfl | htopic
  · rw [AList.lookup_insert, ht, Option.bind_some, Option.bind_some, hfiles]
    rcases eq_or_ne pid' pid with rfl | hpid
    · rw [AList.lookup_insert, if_pos rfl]
      rfl
    · rw [AList.lookup_insert_ne hpid, if_neg (by simp [hpid.symm])]
  · rw [AList.lookup_insert_ne htopic, if_neg (by simp [htopic.symm])]

theorem partition_eq_of_lookup (tp : TopicPartition) {t : TopicState}
    (ht : s.topicToState.lookup tp.topic = some t) :
    s.partition tp = t.partition tp.partition := by
  rw [TopicsState.partition, TopicsState.partitionState, ht]
  rfl

/-- A record that adds files appends them to the entries of its partition, if it is accepted:
    the first one follows the last one there. -/
theorem partition_doApply_addFiles (s : TopicsState) (tp : TopicPartition) (o : Int)
    (u : AddFilesUpdate) :
    (accepted tp s (o, .addFiles u) = [] ∧
      (doApply s o (.addFiles u)).partition tp = s.partition tp) ∨
    ∃ first rest, u.entries = first :: rest ∧
      accepted tp s (o, .addFiles u) = u.entries.map (fun e => ⟨e, o⟩) ∧
      (∀ lastAdded ∈ (s.partition tp).lastAddedOffset, nextOffset lastAdded = first.startOffset) ∧
      (doApply s o (.addFiles u)).partition tp = u.addTo o (s.partition tp) := by
  rw [doApply, Update.apply]
  rcases hcan : u.canApply s with err | ⟨⟩
  · refine .inl ⟨by simp [accepted, hcan], ?_⟩
    rw [AddFilesUpdate.apply, hcan]
    rfl
  · obtain ⟨s', hs'⟩ : ∃ s', u.apply s o = .ok s' := by
      rw [AddFilesUpdate.apply, hcan]
      exact ⟨_, rfl⟩
    rw [hs']
    obtain ⟨first, rest, t, hentries, ht, -, hnext, rfl⟩ := AddFilesUpdate.apply_eq_ok hs'
    have hset := partition_setTopic s tp ht
      (rfl : (t.setPartition u.tp.partition
        (u.addTo o (t.partition u.tp.partition))).pidToPendingFiles = _)
    rcases eq_or_ne u.tp tp with rfl | hne
    · have hp := partition_eq_of_lookup u.tp ht
      rw [if_pos rfl] at hset
      rw [hp]
      exact .inr ⟨first, rest, hentries, by simp [accepted, hcan], hnext, hset⟩
    · rw [if_neg hne] at hset
      exact .inl ⟨by simp [accepted, hne], hset⟩

/-- A record that marks files committed cuts the entries of its partition at the last offset
    of one of them, if it is accepted. -/
theorem partition_doApply_markFilesCommitted (s : TopicsState) (tp : TopicPartition) (o : Int)
    (u : MarkFilesCommittedUpdate) :
    (doApply s o (.markFilesCommitted u)).partition tp = s.partition tp ∨
    u.tp = tp ∧ (∃ e ∈ (s.partition tp).pendingEntries, e.data.lastOffset = u.newCommitted) ∧
      (doApply s o (.markFilesCommitted u)).partition tp =
        MarkFilesCommittedUpdate.commitPartition u.newCommitted (s.partition tp) := by
  rw [doApply, Update.apply]
  rcases hs' : u.apply s with err | s'
  · exact .inl rfl
  · obtain ⟨t, p, ht, -, hpid, he, t', rfl, -, -, hfiles⟩ :=
      MarkFilesCommittedUpdate.apply_eq_ok hs'
    have hset := partition_setTopic s tp ht hfiles
    rcases eq_or_ne u.tp tp with rfl | hne
    · have hp : s.partition u.tp = p := by
        rw [partition_eq_of_lookup u.tp ht, TopicState.partition, hpid]
        rfl
      rw [if_pos rfl] at hset
      rw [hp]
      exact .inr ⟨rfl, he, hset⟩
    · rw [if_neg hne] at hset
      exact .inl hset

/-! ## The entries of a partition -/

/-- Ranges that end above each other, and not at the largest offset. -/
def AddFilesUpdate.Increasing (u : AddFilesUpdate) : Prop :=
  u.entries.Pairwise (fun e e' => e.lastOffset < e'.lastOffset) ∧
    ∀ e ∈ u.entries, e.startOffset ≤ e.lastOffset ∧ e.lastOffset < Offset.max
  deriving Decidable

/-- The records of a log that only adds and commits files, in increasing ranges. -/
def Update.Increasing : Update → Prop
  | addFiles u => u.Increasing
  | markFilesCommitted _ => True
  | topicLifecycleUpdate _ => False
  | resetTopicState _ => False

/-- The pending entries are the newest ones of all that were added, and the next entry is
    checked against the newest of them. -/
structure Tracks (p : PartitionState) (entries : List PendingEntry) : Prop where
  suffix : p.pendingEntries <:+ entries
  last : p.lastAddedOffset = entries.getLast?.map fun e => e.data.lastOffset
  increasing : entries.Pairwise fun e e' => e.data.lastOffset < e'.data.lastOffset
  below : ∀ e ∈ entries, e.data.lastOffset < Offset.max

theorem PartitionState.lastAddedOffset_eq_lastCommitted (h : p.pendingEntries = []) :
    p.lastAddedOffset = p.lastCommitted := by
  rw [lastAddedOffset, h]
  rfl

theorem PartitionState.lastAddedOffset_eq_some (h : p.pendingEntries.getLast? = some e) :
    p.lastAddedOffset = some e.data.lastOffset := by
  rw [lastAddedOffset, h]

namespace Tracks

variable {entries : List PendingEntry}

theorem empty : Tracks {} [] :=
  ⟨suffix_rfl, rfl, .nil, nofun⟩

/-- The newest entry ends above all others. -/
theorem le_last (h : Tracks p entries) {e e' : PendingEntry} (he : e ∈ entries)
    (he' : e' ∈ entries.getLast?) : e.data.lastOffset ≤ e'.data.lastOffset := by
  rcases eq_or_rel_of_getLast? h.increasing he' he with rfl | hlt
  · exact le_rfl
  · exact hlt.le

theorem addTo (h : Tracks p entries) {u : AddFilesUpdate} (hu : u.Increasing)
    {first : TranslatedOffsetRange} {rest : List TranslatedOffsetRange}
    (hentries : u.entries = first :: rest)
    (hnext : ∀ lastAdded ∈ p.lastAddedOffset, nextOffset lastAdded = first.startOffset) (o : Int) :
    Tracks (u.addTo o p) (entries ++ u.entries.map fun e => ⟨e, o⟩) := by
  have hne : (u.entries.map fun e => (⟨e, o⟩ : PendingEntry)) ≠ [] := by simp [hentries]
  obtain ⟨l, hl⟩ := h.suffix
  refine ⟨⟨l, ?_⟩, ?_, ?_, fun e he => ?_⟩
  · rw [AddFilesUpdate.addTo, ← hl, append_assoc]
  · rw [getLast?_append_of_ne_nil _ hne, getLast?_eq_some_getLast hne]
    refine PartitionState.lastAddedOffset_eq_some ?_
    rw [AddFilesUpdate.addTo, getLast?_append_of_ne_nil _ hne, getLast?_eq_some_getLast hne]
  · refine pairwise_append.2 ⟨h.increasing, pairwise_map.2 hu.1, fun e he e' he' => ?_⟩
    obtain ⟨r, hr, rfl⟩ := mem_map.1 he'
    -- the first new entry starts after the newest one so far, and the others end above it
    obtain ⟨e₁, he₁⟩ : ∃ e₁, entries.getLast? = some e₁ := by
      rw [getLast?_eq_some_getLast (ne_nil_of_mem he)]
      exact ⟨_, rfl⟩
    have hle := h.le_last he he₁
    have hfirst := hnext e₁.data.lastOffset (by rw [h.last, he₁]; rfl)
    have hlt := lt_nextOffset (h.below e₁ (mem_of_getLast? he₁))
    have hstart := (hu.2 first (by simp [hentries])).1
    have hlast : first.lastOffset ≤ r.lastOffset := by
      rw [hentries] at hr
      rcases mem_cons.1 hr with rfl | hr
      · exact le_rfl
      · exact ((pairwise_cons.1 (hentries ▸ hu.1)).1 r hr).le
    simp only at *
    omega
  · rcases mem_append.1 he with he | he
    · exact h.below e he
    · obtain ⟨r, hr, rfl⟩ := mem_map.1 he
      exact (hu.2 r hr).2

theorem commitPartition (h : Tracks p entries) {e : PendingEntry} (he : e ∈ p.pendingEntries) :
    Tracks (MarkFilesCommittedUpdate.commitPartition e.data.lastOffset p) entries := by
  have hsuffix : p.pendingEntries.dropWhile (fun e' => e'.data.lastOffset ≤ e.data.lastOffset) <:+
      p.pendingEntries := dropWhile_suffix _
  refine ⟨hsuffix.trans h.suffix, ?_, h.increasing, h.below⟩
  obtain ⟨e₁, he₁⟩ : ∃ e₁, p.pendingEntries.getLast? = some e₁ := by
    rw [getLast?_eq_some_getLast (ne_nil_of_mem he)]
    exact ⟨_, rfl⟩
  have hlast : entries.getLast? = some e₁ := by
    obtain ⟨l, rfl⟩ := h.suffix
    rw [getLast?_append, he₁]
    rfl
  rw [hlast]
  rcases hdrop : p.pendingEntries.dropWhile
      (fun e' => e'.data.lastOffset ≤ e.data.lastOffset) with _ | ⟨e₂, l⟩
  · -- all entries are dropped, the newest one among them
    have hle := h.le_last (h.suffix.subset he) hlast
    have hge : e₁.data.lastOffset ≤ e.data.lastOffset := by
      simpa using dropWhile_eq_nil_iff.1 hdrop e₁ (mem_of_getLast? he₁)
    rw [PartitionState.lastAddedOffset_eq_lastCommitted hdrop]
    exact congrArg some (le_antisymm hle hge)
  · refine PartitionState.lastAddedOffset_eq_some ?_
    rw [MarkFilesCommittedUpdate.commitPartition]
    rw [hdrop] at hsuffix ⊢
    obtain ⟨l', hl'⟩ := hsuffix
    rw [← he₁, ← hl', getLast?_append_of_ne_nil _ (cons_ne_nil e₂ l)]

/-- A record of a log that only adds and commits files. -/
theorem doApply {o : Int} {u : Update} (h : Tracks (s.partition tp) entries) (hu : u.Increasing) :
    Tracks ((doApply s o u).partition tp) (entries ++ accepted tp s (o, u)) := by
  cases u with
  | addFiles u =>
    obtain ⟨hacc, hp⟩ | ⟨first, rest, hentries, hacc, hnext, hp⟩ :=
      partition_doApply_addFiles s tp o u
    · rwa [hp, hacc, append_nil]
    · rw [hp, hacc]
      exact h.addTo hu hentries hnext o
  | markFilesCommitted u =>
    rw [accepted, append_nil]
    obtain hp | ⟨-, ⟨e, he, hlast⟩, hp⟩ := partition_doApply_markFilesCommitted s tp o u
    · rwa [hp]
    · rw [hp, ← hlast]
      exact h.commitPartition he
  | topicLifecycleUpdate | resetTopicState => exact hu.elim

theorem replay (h : Tracks (s.partition tp) entries) (hlog : ∀ r ∈ log, r.2.Increasing) :
    Tracks ((replay s log).partition tp) (entries ++ added tp s log) := by
  induction log generalizing s entries with
  | nil => rwa [added, append_nil]
  | cons r log ih =>
    rw [forall_mem_cons] at hlog
    rw [added, ← append_assoc]
    exact ih (h.doApply hlog.1) hlog.2

end Tracks

/-- The pending entries of a replica, where no partition had any at the start. -/
theorem tracks_replay (hs : ∀ tp, s.partition tp = {}) (hlog : ∀ r ∈ log, r.2.Increasing)
    (tp : TopicPartition) : Tracks ((replay s log).partition tp) (added tp s log) := by
  have h : Tracks (s.partition tp) [] := hs tp ▸ .empty
  simpa using h.replay hlog

end Redpanda.Datalake
