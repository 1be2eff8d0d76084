import Redpanda.Datalake.State
import Redpanda.Lib.Run
import Redpanda.Lib.Tiling

/-!
# Pending entries leave no hole

The pending entries of a partition are to be contiguous, and to begin right after the last
committed offset (`PartitionState.Contiguous`): this is what makes the delivery of files to
the Iceberg table exactly once. The check of `add_files` compares the first new entry with
the last one of the partition, and leaves it to the request that its entries are contiguous
themselves.

For requests that are (`Update.WellFormed`), every state that is reached has contiguous
pending entries (`contiguous_of_run`). A request that is not is accepted, and breaks the
property: `exists_run_not_contiguous` has a run for each of the expectations.
-/

namespace Redpanda.Datalake

open Lib Model Lib.Except List

/-- The pending entries are contiguous, and begin after the last committed offset. -/
def PartitionState.Contiguous (p : PartitionState) : Prop :=
  p.pendingEntries.IsChain (fun e e' => e'.data.startOffset = e.data.lastOffset + 1) ∧
    (∀ e ∈ p.pendingEntries, e.data.startOffset ≤ e.data.lastOffset) ∧
    ∀ c ∈ p.lastCommitted, ∀ e ∈ p.pendingEntries.head?, e.data.startOffset = c + 1
  deriving Decidable

/-! ## What updates do -/

variable {s s' : TopicsState} {o : Int} {l : List (Int × Update)}

namespace AddFilesUpdate

theorem checkPartition_eq_ok {first : TranslatedOffsetRange} {p : PartitionState} :
    checkPartition first p = .ok () ↔
      ∀ lastAdded ∈ p.lastAddedOffset, nextOffset lastAdded = first.startOffset := by
  rw [checkPartition]
  rcases p.lastAddedOffset with _ | lastAdded
  · simp
  · simp

theorem canApply_eq_ok {u : AddFilesUpdate} (h : u.canApply s = .ok ()) :
    ∃ first rest t, u.entries = first :: rest ∧ s.topicToState.lookup u.tp.topic = some t ∧
      t.revision = u.topicRevision ∧ t.lifecycleState = .live ∧
      checkPartition first (t.partition u.tp.partition) = .ok () := by
  rw [canApply] at h
  rcases hentries : u.entries with _ | ⟨first, rest⟩
  · simp [hentries] at h
  rcases htopic : s.topicToState.lookup u.tp.topic with _ | t
  · simp [hentries, htopic] at h
  simp only [hentries, htopic, ite_error_eq_ok, not_not] at h
  obtain ⟨hrev, hlive, h⟩ := h
  refine ⟨first, rest, t, rfl, rfl, hrev.symm, hlive, ?_⟩
  rw [TopicState.partition]
  rcases hpid : t.pidToPendingFiles.lookup u.tp.partition with _ | p
  · rfl
  · simpa [hpid] using h

/-- The state of the partition after files have been added. -/
def addTo (u : AddFilesUpdate) (o : Int) (p : PartitionState) : PartitionState :=
  { p with pendingEntries := p.pendingEntries ++ u.entries.map fun e => ⟨e, o⟩ }

theorem apply_eq_ok {u : AddFilesUpdate} (h : u.apply s o = .ok s') :
    ∃ first rest t, u.entries = first :: rest ∧ s.topicToState.lookup u.tp.topic = some t ∧
      t.revision = u.topicRevision ∧
      (∀ lastAdded ∈ (t.partition u.tp.partition).lastAddedOffset,
        nextOffset lastAdded = first.startOffset) ∧
      s' = s.setTopic u.tp.topic
        (t.setPartition u.tp.partition (u.addTo o (t.partition u.tp.partition))) := by
  obtain ⟨⟨⟩, hcan, h⟩ := bind_eq_ok.1 h
  obtain ⟨first, rest, t, hentries, htopic, hrev, -, hcheck⟩ := canApply_eq_ok hcan
  refine ⟨first, rest, t, hentries, htopic, hrev, checkPartition_eq_ok.1 hcheck, ?_⟩
  rw [← Except.ok.inj h, TopicsState.topic, htopic]
  rfl

end AddFilesUpdate

namespace MarkFilesCommittedUpdate

theorem checkPartition_eq_ok {newCommitted : Int} {p : PartitionState}
    (h : checkPartition newCommitted p = .ok ()) :
    (∀ c ∈ p.lastCommitted, c < newCommitted) ∧
      ∃ e ∈ p.pendingEntries, e.data.lastOffset = newCommitted := by
  have hentries : checkPartition.checkEntries newCommitted p = .ok () →
      ∃ e ∈ p.pendingEntries, e.data.lastOffset = newCommitted := by
    rw [checkPartition.checkEntries, Except.ite_ok_error_eq_ok]
    simp
  rw [checkPartition, ite_error_eq_ok] at h
  rcases hc : p.lastCommitted with _ | c
  · simp only [hc] at h
    exact ⟨nofun, hentries h.2⟩
  · simp only [hc, ite_error_eq_ok, not_le] at h
    refine ⟨fun c' hc' => ?_, hentries h.2.2⟩
    obtain rfl : c = c' := Option.some.inj hc'
    exact h.2.1

variable {u : MarkFilesCommittedUpdate}

theorem canApply_eq_ok (h : u.canApply s = .ok ()) :
    ∃ t p, s.topicToState.lookup u.tp.topic = some t ∧ t.revision = u.topicRevision ∧
      t.pidToPendingFiles.lookup u.tp.partition = some p ∧
      checkPartition u.newCommitted p = .ok () := by
  rw [canApply] at h
  rcases htopic : s.topicToState.lookup u.tp.topic with _ | t
  · simp [htopic] at h
  simp only [htopic, ite_error_eq_ok, not_not] at h
  obtain ⟨hrev, h⟩ := h
  rcases hpid : t.pidToPendingFiles.lookup u.tp.partition with _ | p
  · simp [hpid] at h
  · exact ⟨t, p, rfl, hrev.symm, hpid, by simpa only [hpid] using h⟩

theorem apply_eq_ok (h : u.apply s = .ok s') :
    ∃ t p, s.topicToState.lookup u.tp.topic = some t ∧ t.revision = u.topicRevision ∧
      t.pidToPendingFiles.lookup u.tp.partition = some p ∧
      (∃ e ∈ p.pendingEntries, e.data.lastOffset = u.newCommitted) ∧
      ∃ t' : TopicState, s' = s.setTopic u.tp.topic t' ∧ t'.revision = t.revision ∧
        t'.lifecycleState = t.lifecycleState ∧ t'.pidToPendingFiles =
          t.pidToPendingFiles.insert u.tp.partition (commitPartition u.newCommitted p) := by
  obtain ⟨⟨⟩, hcan, h⟩ := bind_eq_ok.1 h
  obtain ⟨t, p, htopic, hrev, hpid, hcheck⟩ := canApply_eq_ok hcan
  refine ⟨t, p, htopic, hrev, hpid, (checkPartition_eq_ok hcheck).2, _, (Except.ok.inj h).symm, ?_⟩
  simp [TopicsState.topic, htopic, TopicState.partition, hpid, TopicState.setPartition,
    TopicState.addKafkaBytesProcessed]

end MarkFilesCommittedUpdate

theorem TopicLifecycleUpdate.apply_eq_ok {u : TopicLifecycleUpdate} (h : u.apply s = .ok s') :
    s' = s ∨ ∃ t' : TopicState, s' = s.setTopic u.topic t' ∧
      (t'.pidToPendingFiles = ∅ ∨ t'.pidToPendingFiles = (s.topic u.topic).pidToPendingFiles) := by
  obtain ⟨changes, -, h⟩ := bind_eq_ok.1 h
  rcases changes with _ | _
  · exact .inl (Except.ok.inj h).symm
  · refine .inr ⟨_, (Except.ok.inj h).symm, ?_⟩
    by_cases hpurged : u.newState = .purged
    · exact .inl (if_pos hpurged)
    · exact .inr (if_neg hpurged)

/-! ## Properties of all partitions -/

/-- A property of all partitions of a topic. -/
def TopicState.Forall (P : PartitionState → Prop) (t : TopicState) : Prop :=
  ∀ pid p, t.pidToPendingFiles.lookup pid = some p → P p

/-- A property of all partitions of all topics. -/
def TopicsState.Forall (P : PartitionState → Prop) (s : TopicsState) : Prop :=
  ∀ topic t, s.topicToState.lookup topic = some t → t.Forall P

section Forall

variable {P : PartitionState → Prop}

namespace TopicState.Forall

variable {t : TopicState}

theorem of_eq_empty (h : t.pidToPendingFiles = ∅) : t.Forall P := by
  intro pid p hp
  simp [h, AList.lookup_empty] at hp

theorem of_eq {t' : TopicState} (ht : t.Forall P) (h : t'.pidToPendingFiles = t.pidToPendingFiles) :
    t'.Forall P := by
  intro pid p hp
  rw [h] at hp
  exact ht pid p hp

theorem partition (ht : t.Forall P) (hP : P {}) (pid : PartitionId) : P (t.partition pid) := by
  rw [TopicState.partition]
  rcases hpid : t.pidToPendingFiles.lookup pid with _ | p
  · exact hP
  · exact ht pid p hpid

theorem setPartition (ht : t.Forall P) {pid : PartitionId} {p : PartitionState} (hp : P p) :
    (t.setPartition pid p).Forall P := by
  intro pid' p' hp'
  rw [TopicState.setPartition] at hp'
  rcases eq_or_ne pid' pid with rfl | hne
  · rw [AList.lookup_insert] at hp'
    exact Option.some.inj hp' ▸ hp
  · rw [AList.lookup_insert_ne hne] at hp'
    exact ht pid' p' hp'

end TopicState.Forall

namespace TopicsState.Forall

theorem topic (hs : s.Forall P) (topic : Topic) : (s.topic topic).Forall P := by
  rw [TopicsState.topic]
  rcases htopic : s.topicToState.lookup topic with _ | t
  · exact TopicState.Forall.of_eq_empty rfl
  · exact hs topic t htopic

theorem setTopic (hs : s.Forall P) {topic : Topic} {t : TopicState} (ht : t.Forall P) :
    (s.setTopic topic t).Forall P := by
  intro topic' t' ht'
  rw [TopicsState.setTopic] at ht'
  rcases eq_or_ne topic' topic with rfl | hne
  · rw [AList.lookup_insert] at ht'
    exact Option.some.inj ht' ▸ ht
  · rw [AList.lookup_insert_ne hne] at ht'
    exact hs topic' t' ht'

end TopicsState.Forall

theorem TopicsState.Forall.partitionState (hs : s.Forall P) {tp : TopicPartition}
    {p : PartitionState} (h : s.partitionState tp = some p) : P p := by
  obtain ⟨t, htopic, hpid⟩ := Option.bind_eq_some_iff.1 h
  exact hs tp.topic t htopic tp.partition p hpid

end Forall

/-! ## The invariant -/

/-- Ranges that a request is expected to have: contiguous, with no gaps or overlaps, ordered
    in increasing offset order. Each has an offset after its last one. -/
def AddFilesUpdate.WellFormed (u : AddFilesUpdate) : Prop :=
  u.entries.IsChain (fun e e' => e'.startOffset = e.lastOffset + 1) ∧
    ∀ e ∈ u.entries,
      e.startOffset ≤ e.lastOffset ∧ nextOffset e.lastOffset = e.lastOffset + 1
  deriving Decidable

/-- The committed offsets set by a reset each have an offset after them. -/
def ResetTopicStateUpdate.WellFormed (u : ResetTopicStateUpdate) : Prop :=
  ∀ p ∈ u.partitionOverrides.entries, ∀ c ∈ p.2.lastCommitted, nextOffset c = c + 1

/-- What an update is expected to meet, beyond what is checked when it is applied. -/
def Update.WellFormed : Update → Prop
  | addFiles u => u.WellFormed
  | markFilesCommitted _ => True
  | topicLifecycleUpdate _ => True
  | resetTopicState u => u.WellFormed

/-- Entries that follow each other from the offset after the last committed one, if any. -/
structure PartitionState.Inv (p : PartitionState) : Prop where
  consecutive : ∃ start stop, Consecutive (fun e : PendingEntry => e.data.startOffset)
    (fun e => e.data.lastOffset) start p.pendingEntries stop ∧ ∀ c ∈ p.lastCommitted, c + 1 = start
  next_entry : ∀ e ∈ p.pendingEntries, nextOffset e.data.lastOffset = e.data.lastOffset + 1
  next_committed : ∀ c ∈ p.lastCommitted, nextOffset c = c + 1

namespace PartitionState.Inv

variable {p : PartitionState}

theorem empty : ({} : PartitionState).Inv where
  consecutive := ⟨0, 0, rfl, nofun⟩
  next_entry := by simp
  next_committed c hc := absurd hc (Option.not_mem_none c)

theorem contiguous (h : p.Inv) : p.Contiguous := by
  obtain ⟨start, stop, hcons, hstart⟩ := h.consecutive
  refine ⟨hcons.isChain, hcons.base_le_last, fun c hc e he => ?_⟩
  obtain ⟨l, hl⟩ := head?_eq_some_iff.1 he
  rw [hl] at hcons
  rw [hstart c hc]
  exact hcons.1

/-- New entries follow those that are there. -/
theorem addTo {u : AddFilesUpdate} (h : p.Inv) (hu : u.WellFormed) {first : TranslatedOffsetRange}
    {rest : List TranslatedOffsetRange} (hentries : u.entries = first :: rest)
    (hnext : ∀ lastAdded ∈ p.lastAddedOffset, nextOffset lastAdded = first.startOffset) :
    (u.addTo o p).Inv := by
  obtain ⟨start, stop, hcons, hstart⟩ := h.consecutive
  obtain ⟨stop', hnew⟩ : ∃ stop', Consecutive (fun e : PendingEntry => e.data.startOffset)
      (fun e => e.data.lastOffset) first.startOffset (u.entries.map fun e => ⟨e, o⟩) stop' := by
    have hchain : (u.entries.map fun e => (⟨e, o⟩ : PendingEntry)).IsChain
        (fun e e' => e'.data.startOffset = e.data.lastOffset + 1) :=
      (isChain_map _).2 hu.1
    rw [hentries, map_cons] at hchain ⊢
    refine Consecutive.exists_of_isChain hchain fun e he => ?_
    rw [← map_cons (f := fun e => (⟨e, o⟩ : PendingEntry)), ← hentries] at he
    obtain ⟨r, hr, rfl⟩ := mem_map.1 he
    exact (hu.2 r hr).1
  refine ⟨?_, fun e he => ?_, h.next_committed⟩
  · rcases hlast : p.pendingEntries.getLast? with _ | e
    · rw [getLast?_eq_none_iff] at hlast
      rw [AddFilesUpdate.addTo, hlast]
      refine ⟨_, _, hnew, fun c hc => ?_⟩
      rw [← hnext c (by rwa [lastAddedOffset, hlast, getLast?_nil]), h.next_committed c hc]
    · refine ⟨start, stop', hcons.append ?_, hstart⟩
      have he := h.next_entry e (mem_of_getLast? hlast)
      rwa [← hcons.last_add_one_eq hlast, ← he, hnext _ (by rw [lastAddedOffset, hlast]; rfl)]
  · rcases mem_append.1 he with he | he
    · exact h.next_entry e he
    · obtain ⟨r, hr, rfl⟩ := mem_map.1 he
      exact (hu.2 r hr).2

/-- The entries that are left begin after the new committed offset. -/
theorem commitPartition (h : p.Inv) {e : PendingEntry} (he : e ∈ p.pendingEntries) :
    (MarkFilesCommittedUpdate.commitPartition e.data.lastOffset p).Inv := by
  obtain ⟨start, stop, hcons, -⟩ := h.consecutive
  refine ⟨⟨_, stop, hcons.dropWhile he, fun c hc => ?_⟩, fun e' he' => ?_, fun c hc => ?_⟩
  · obtain rfl : e.data.lastOffset = c := Option.some.inj hc
    rfl
  · exact h.next_entry e' ((dropWhile_sublist _).subset he')
  · obtain rfl : e.data.lastOffset = c := Option.some.inj hc
    exact h.next_entry e he

/-- After a reset there are no entries. -/
theorem overridePartition (h : p.Inv) {po : PartitionStateOverride}
    (hpo : ∀ c ∈ po.lastCommitted, nextOffset c = c + 1) :
    (ResetTopicStateUpdate.overridePartition po p).Inv := by
  have hnext : ∀ c ∈ (po.lastCommitted <|> p.lastCommitted), nextOffset c = c + 1 := by
    rcases hc : po.lastCommitted with _ | c
    · simpa using h.next_committed
    · simpa [hc] using hpo
  refine ⟨?_, nofun, hnext⟩
  rcases hc : (po.lastCommitted <|> p.lastCommitted) with _ | c
  · refine ⟨0, 0, rfl, fun c' hc' => ?_⟩
    rw [ResetTopicStateUpdate.overridePartition, hc] at hc'
    cases hc'
  · refine ⟨c + 1, c + 1, rfl, fun c' hc' => ?_⟩
    rw [ResetTopicStateUpdate.overridePartition, hc] at hc'
    rw [Option.some.inj hc']

end PartitionState.Inv

/-! ## Runs -/

/-- One update of a replica: it is applied only if it is accepted. -/
def TopicsState.Step (s : TopicsState) (a : Int × Update) (s' : TopicsState) : Prop :=
  a.2.apply s a.1 = .ok s'

/-- Every update that is well formed keeps the entries of all partitions consecutive. -/
theorem TopicsState.Forall.step (hs : s.Forall PartitionState.Inv) {a : Int × Update}
    (ha : a.2.WellFormed) (h : s.Step a s') : s'.Forall PartitionState.Inv := by
  obtain ⟨o, u⟩ := a
  rw [TopicsState.Step] at h
  cases u with
  | addFiles u =>
    obtain ⟨first, rest, t, hentries, htopic, -, hnext, rfl⟩ := AddFilesUpdate.apply_eq_ok h
    have ht := hs _ t htopic
    have hp := ht.partition .empty u.tp.partition
    exact hs.setTopic (ht.setPartition (hp.addTo ha hentries hnext))
  | markFilesCommitted u =>
    obtain ⟨t, p, htopic, -, hpid, ⟨e, he, hlast⟩, t', rfl, -, -, hfiles⟩ :=
      MarkFilesCommittedUpdate.apply_eq_ok h
    have ht := hs _ t htopic
    have hp := (ht _ p hpid).commitPartition he
    rw [hlast] at hp
    exact hs.setTopic ((ht.setPartition hp).of_eq hfiles)
  | topicLifecycleUpdate u =>
    obtain rfl | ⟨t', rfl, hfiles | hfiles⟩ := TopicLifecycleUpdate.apply_eq_ok h
    · exact hs
    · exact hs.setTopic (.of_eq_empty hfiles)
    · exact hs.setTopic ((hs.topic u.topic).of_eq hfiles)
  | resetTopicState u =>
    obtain ⟨⟨⟩, -, h⟩ := bind_eq_ok.1 h
    rcases htopic : s.topicToState.lookup u.topic with _ | t
    · rw [htopic] at h
      exact Except.ok.inj h ▸ hs
    · rw [htopic] at h
      rw [← Except.ok.inj h]
      have ht := hs _ t htopic
      refine hs.setTopic ?_
      -- the overrides that are left are well formed, and all partitions so far are as they should be
      refine (foldl_invariant
        (fun (l : List (Sigma fun _ : PartitionId => PartitionStateOverride)) (t : TopicState) =>
          t.Forall PartitionState.Inv ∧ ∀ p ∈ l, ∀ c ∈ p.2.lastCommitted, nextOffset c = c + 1)
        (fun {p l t} ht => ?_) ⟨?_, ha⟩).1
      · have hp := ht.1.partition .empty p.1
        exact ⟨ht.1.setPartition (hp.overridePartition (ht.2 p mem_cons_self)),
          (forall_mem_cons.1 ht.2).2⟩
      · split_ifs
        · exact .of_eq_empty rfl
        · exact ht

/-- In every run of well formed updates, the pending entries of every partition are
    contiguous and begin right after the last committed offset. -/
theorem contiguous_of_run (h : Run TopicsState.Step {} l s)
    (hl : ∀ a ∈ l, a.2.WellFormed) {tp : TopicPartition} {p : PartitionState}
    (hp : s.partitionState tp = some p) : p.Contiguous := by
  have hs : s.Forall PartitionState.Inv :=
    h.invariant_of_labels (fun hs ha h => TopicsState.Forall.step hs ha h) hl
      (fun topic t ht => absurd ht (by rw [AList.lookup_empty]; exact nofun))
  exact (hs.partitionState hp).contiguous

/-! ## Requests that are not well formed -/

/-- A partition to which updates are applied, after its topic has been registered. -/
def firstPartition : TopicPartition := ⟨"orders", 0⟩

def register : Int × Update := (0, .topicLifecycleUpdate ⟨"orders", 1, .live⟩)

/-- Adding files for ranges of offsets. -/
def addRanges (o : Int) (ranges : List (Int × Int)) : Int × Update :=
  (o, .addFiles ⟨firstPartition, 1, ranges.map fun r => { startOffset := r.1, lastOffset := r.2 }⟩)

/-- Resetting the committed offset. -/
def resetTo (o : Int) (c : Int) : Int × Update :=
  (o, .resetTopicState ⟨"orders", 1, false, (∅ : AList _).insert 0 ⟨some c⟩⟩)

/-- The state of the partition that is reached by updates. -/
def stateAfter (l : List (Int × Update)) : Option PartitionState :=
  (l.foldlM (fun s (a : Int × Update) => (a.2.apply s a.1).toOption) {}).bind
    (TopicsState.partitionState · firstPartition)

theorem exists_of_stateAfter {P : PartitionState → Prop}
    [DecidablePred P] (h : (stateAfter l).any (fun p => P p) = true) :
    ∃ s p, Run TopicsState.Step {} l s ∧ s.partitionState firstPartition = some p ∧ P p := by
  obtain ⟨p, hp, hP⟩ := (Option.any_eq_true _ _).1 h
  obtain ⟨s, hs, hp⟩ := Option.bind_eq_some_iff.1 hp
  exact ⟨s, p, (Run.of_foldlM hs).imp fun h => Except.toOption_eq_some.1 h, hp,
    of_decide_eq_true hP⟩

/-- Files of two requests, the first ones committed. -/
theorem contiguous_of_run_commit :
    ∃ s p, Run TopicsState.Step {} [register, addRanges 1 [(0, 9), (10, 19)], addRanges 2 [(20, 29)],
        (3, .markFilesCommitted { tp := firstPartition, topicRevision := 1, newCommitted := 9 })] s ∧
      s.partitionState firstPartition = some p ∧ p.pendingEntries.length = 2 ∧ p.Contiguous := by
  obtain ⟨s, p, hrun, hp, hlength⟩ := exists_of_stateAfter
    (l := [register, addRanges 1 [(0, 9), (10, 19)], addRanges 2 [(20, 29)],
      (3, .markFilesCommitted { tp := firstPartition, topicRevision := 1, newCommitted := 9 })])
    (P := fun p => p.pendingEntries.length = 2) (by decide)
  refine ⟨s, p, hrun, hp, hlength, contiguous_of_run hrun ?_ hp⟩
  have h₁ : (addRanges 1 [(0, 9), (10, 19)]).2.WellFormed :=
    (by decide : AddFilesUpdate.WellFormed _)
  have h₂ : (addRanges 2 [(20, 29)]).2.WellFormed := (by decide : AddFilesUpdate.WellFormed _)
  simp only [forall_mem_cons]
  exact ⟨trivial, h₁, h₂, trivial, nofun⟩

/-- A request with a gap between its ranges is accepted. So are a range that ends before it
    starts, a range that begins at the offset where the one before ended if there is none
    after it, and one that begins above the committed offset plus one if that is negative. -/
theorem exists_run_not_contiguous :
    (∃ s p, Run TopicsState.Step {} [register, addRanges 1 [(0, 9), (20, 29)]] s ∧
      s.partitionState firstPartition = some p ∧ ¬ p.Contiguous) ∧
    (∃ s p, Run TopicsState.Step {} [register, addRanges 1 [(9, 0)]] s ∧
      s.partitionState firstPartition = some p ∧ ¬ p.Contiguous) ∧
    (∃ s p, Run TopicsState.Step {} [register, addRanges 1 [(0, Offset.max)],
        addRanges 2 [(Offset.max, Offset.max)]] s ∧
      s.partitionState firstPartition = some p ∧ ¬ p.Contiguous) ∧
    ∃ s p, Run TopicsState.Step {} [register, resetTo 1 (-5), addRanges 2 [(0, 9)]] s ∧
      s.partitionState firstPartition = some p ∧ ¬ p.Contiguous :=
  ⟨exists_of_stateAfter (by decide), exists_of_stateAfter (by decide),
    exists_of_stateAfter (by decide), exists_of_stateAfter (by decide)⟩

end Redpanda.Datalake
