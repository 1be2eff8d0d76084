import Redpanda.Datalake.PendingEntries

/-!
# Revisions of a topic

A topic that was deleted and purged may be registered again with a new revision. The update that
does so changes the revision and the lifecycle state and leaves the rest of the topic's state as it
is, which `mark_files_committed` overwrites, also if it comes with no snapshot id.

Two runs are compared: the one of all updates, and the one in which the topic is registered for the
first time with its new revision and then takes only its own updates since. An update reads and
writes nothing but its topic (`exists_step_of_lookup_eq`, `lookup_of_step_of_ne`), so what the
second run makes of the topic is what the first one does if it begins with the same
(`exists_run_filter`).

* `fresh_iff`: the runs agree on the topic, whatever is done to it, if and only if no files of it
  were ever committed before and no partition of it was reset while it was purged (`NothingLeft`).
  Its snapshot id is then the one of the last commit that has one, if and only if the last commit
  has.
* `exists_revision_not_fresh`: a topic of a new revision has the bytes, the snapshot id and, if it
  was reset after the purge, the committed offset of the old one. A commit without a snapshot id
  erases the last one.
-/

namespace Redpanda.Datalake

open Lib Lib.Except

/-- The update registers its topic, for the first time or with a new revision. -/
def TopicLifecycleUpdate.Registers (u : TopicLifecycleUpdate) (s : TopicsState) : Prop :=
  ∀ t ∈ s.topicToState.lookup u.topic, t.revision < u.revision

namespace Update

/-- The topic that an update is about. -/
def topic : Update → Topic
  | addFiles u => u.tp.topic
  | markFilesCommitted u => u.tp.topic
  | topicLifecycleUpdate u => u.topic
  | resetTopicState u => u.topic

/-- The commit of files of a topic that an update is. -/
def commitOf (topic : Topic) : Update → Option MarkFilesCommittedUpdate
  | markFilesCommitted u => if u.tp.topic = topic then some u else none
  | _ => none

/-- The snapshot id that an update carries for a topic. -/
def snapshotId (topic : Topic) (u : Update) : Option SnapshotId :=
  (u.commitOf topic).bind fun c =>
    if c.snapshotId ≠ invalidSnapshotId then some c.snapshotId else none

end Update

/-- The last commit of files of a topic. -/
def lastCommit (topic : Topic) (l : List (Int × Update)) : Option MarkFilesCommittedUpdate :=
  l.reverse.findSome? (·.2.commitOf topic)

/-- The last snapshot id that updates carry for a topic. -/
def lastSnapshotId (topic : Topic) (l : List (Int × Update)) : Option SnapshotId :=
  l.reverse.findSome? (·.2.snapshotId topic)

/-! ## What stays of a topic that is purged -/

/-- What the updates of a topic tell of it while it is purged: its revision, and the partitions that
    have a state again since then. -/
structure Purged where
  revision : Option RevisionId := none
  partitions : Finset PartitionId := ∅
  deriving DecidableEq

def Purged.next (topic : Topic) (g : Purged) : Update → Purged
  | .topicLifecycleUpdate u =>
    if u.topic ≠ topic then g
    else if u.newState ≠ .purged then {}
    -- the topic is purged already, and the update changes nothing
    else if g.revision = some u.revision then g
    else ⟨some u.revision, ∅⟩
  | .resetTopicState u =>
    if u.topic ≠ topic ∨ g.revision = none then g
    else ⟨g.revision, (if u.resetAllPartitions then ∅ else g.partitions) ∪
      u.partitionOverrides.keys.toFinset⟩
  | _ => g

/-- What updates from the start tell of a topic. -/
def Purged.after (topic : Topic) (l : List (Int × Update)) : Purged :=
  l.foldl (fun g a => g.next topic a.2) {}

/-- Updates before a topic is registered that leave nothing for its new revision: none of them is a
    commit, and the partitions are not reset between the purge and the registration. -/
structure NothingLeft (u : TopicLifecycleUpdate) (l : List (Int × Update)) : Prop where
  commits : ∀ a ∈ l, a.2.commitOf u.topic = none
  resets : u.newState = .purged ∨ (Purged.after u.topic l).partitions = ∅

namespace TopicsState

variable {s s' s₁ : TopicsState} {topic : Topic} {t : TopicState} {o : Int}

theorem lookup_setTopic_self : (s.setTopic topic t).topicToState.lookup topic = some t :=
  AList.lookup_insert _

theorem lookup_setTopic_of_ne {topic' : Topic} (h : topic' ≠ topic) :
    (s.setTopic topic t).topicToState.lookup topic' = s.topicToState.lookup topic' :=
  AList.lookup_insert_ne h

theorem topic_setTopic_self : (s.setTopic topic t).topic topic = t := by
  rw [TopicsState.topic, lookup_setTopic_self]
  rfl

theorem topic_eq_of_lookup (h : s.topicToState.lookup topic = some t) : s.topic topic = t := by
  rw [TopicsState.topic, h]
  rfl

theorem topic_congr (h : s.topicToState.lookup topic = s'.topicToState.lookup topic) :
    s.topic topic = s'.topic topic := by
  rw [TopicsState.topic, TopicsState.topic, h]

end TopicsState

open TopicsState

variable {s s' s₁ s₂ : TopicsState} {topic : Topic} {l l' : List (Int × Update)} {o : Int}
  {u : TopicLifecycleUpdate}

/-! ## An update is about one topic -/

namespace Update

/-- What an update that changes its topic does to it. -/
def effect (o : Int) : Update → TopicState → TopicState
  | addFiles u, t => t.setPartition u.tp.partition (u.addTo o (t.partition u.tp.partition))
  | markFilesCommitted u, t =>
    let files := MarkFilesCommittedUpdate.commitPartition u.newCommitted
      (t.partition u.tp.partition)
    ({ t with lastCommittedSnapshotId := some u.snapshotId }.setPartition u.tp.partition
      files).addKafkaBytesProcessed u.kafkaBytesProcessed
  | topicLifecycleUpdate u, t =>
    { t with
      revision := u.revision
      lifecycleState := u.newState
      pidToPendingFiles := if u.newState = .purged then ∅ else t.pidToPendingFiles }
  | resetTopicState u, t => u.partitionOverrides.entries.foldl
      (fun t p => t.setPartition p.1
        (ResetTopicStateUpdate.overridePartition p.2 (t.partition p.1)))
      (if u.resetAllPartitions then { t with pidToPendingFiles := ∅ } else t)

/-- Whether an update changes its topic, unless it is refused. -/
def check (s : TopicsState) : Update → Except StmUpdateError Bool
  | addFiles u => (u.canApply s).map fun _ => true
  | markFilesCommitted u => (u.canApply s).map fun _ => true
  | topicLifecycleUpdate u => u.canApply s
  | resetTopicState u => (u.canApply s).map fun _ => (s.topicToState.lookup u.topic).isSome

/-- The check of an update reads nothing but its topic. -/
theorem check_congr {u : Update}
    (h : s.topicToState.lookup u.topic = s'.topicToState.lookup u.topic) :
    u.check s = u.check s' := by
  cases u with
  | addFiles u => rw [topic] at h; simp only [check, AddFilesUpdate.canApply, h]
  | markFilesCommitted u =>
    rw [topic] at h
    simp only [check, MarkFilesCommittedUpdate.canApply, h]
  | topicLifecycleUpdate u =>
    rw [topic] at h
    simp only [check, TopicLifecycleUpdate.canApply, h]
  | resetTopicState u =>
    rw [topic] at h
    simp only [check, ResetTopicStateUpdate.canApply, h]

/-- An update that is accepted changes its topic, or nothing at all. -/
theorem apply_eq (u : Update) : u.apply s o = (u.check s).map fun changes =>
    if changes then s.setTopic u.topic (u.effect o (s.topic u.topic)) else s := by
  cases u with
  | addFiles u =>
    rw [apply, AddFilesUpdate.apply, check]
    rcases u.canApply s with _ | _ <;> rfl
  | markFilesCommitted u =>
    rw [apply, MarkFilesCommittedUpdate.apply, check]
    rcases u.canApply s with _ | _ <;> rfl
  | topicLifecycleUpdate u =>
    rw [apply, TopicLifecycleUpdate.apply, check]
    rcases u.canApply s with _ | _ | _ <;> rfl
  | resetTopicState u =>
    rw [apply, ResetTopicStateUpdate.apply, check, topic]
    rcases u.canApply s with _ | _
    · rfl
    · rcases ht : s.topicToState.lookup u.topic with _ | t
      · rfl
      · rw [topic_eq_of_lookup ht]
        rfl

/-- A reset changes nothing of a topic but its partitions. -/
theorem effect_resetTopicState {u : ResetTopicStateUpdate} {t : TopicState} :
    ∃ m, effect o (resetTopicState u) t = { t with pidToPendingFiles := m } := by
  refine foldl_invariant (fun _ (t' : TopicState) => ∃ m, t' = { t with pidToPendingFiles := m })
    (fun h => ?_) ?_
  · obtain ⟨m, rfl⟩ := h
    exact ⟨_, rfl⟩
  · split_ifs
    · exact ⟨∅, rfl⟩
    · exact ⟨t.pidToPendingFiles, rfl⟩

end Update

theorem step_iff {u : Update} : s.Step (o, u) s' ↔ ∃ changes, u.check s = .ok changes ∧
    (if changes then s.setTopic u.topic (u.effect o (s.topic u.topic)) else s) = s' := by
  rw [TopicsState.Step, u.apply_eq]
  rcases u.check s with _ | _
  · simp [Except.map]
  · simp [Except.map]

/-- The other topics stay as they are. -/
theorem lookup_of_step_of_ne {a : Int × Update} (h : s.Step a s') (hne : topic ≠ a.2.topic) :
    s'.topicToState.lookup topic = s.topicToState.lookup topic := by
  obtain ⟨changes, -, rfl⟩ := step_iff.1 h
  split_ifs
  · exact lookup_setTopic_of_ne hne
  · rfl

/-- An update that is accepted in one state is accepted in every state with the same topic, and does
    the same to it. -/
theorem exists_step_of_lookup_eq {a : Int × Update} (h : s.Step a s')
    (hs : s₁.topicToState.lookup a.2.topic = s.topicToState.lookup a.2.topic) :
    ∃ s₁', s₁.Step a s₁' ∧
      s₁'.topicToState.lookup a.2.topic = s'.topicToState.lookup a.2.topic := by
  obtain ⟨changes, hcheck, rfl⟩ := step_iff.1 h
  refine ⟨_, step_iff.2 ⟨changes, (Update.check_congr hs).trans hcheck, rfl⟩, ?_⟩
  split_ifs
  · rw [lookup_setTopic_self, lookup_setTopic_self, topic_congr hs]
  · exact hs

/-- The updates of one topic do to it in a state with the same topic what they do among those of
    others. -/
theorem exists_run_filter (h : Run Step s l s') (topic : Topic)
    (hs : s₁.topicToState.lookup topic = s.topicToState.lookup topic) :
    ∃ s₁', Run Step s₁ (l.filter (·.2.topic = topic)) s₁' ∧
      s₁'.topicToState.lookup topic = s'.topicToState.lookup topic := by
  induction h generalizing s₁ with
  | nil s => exact ⟨s₁, .nil s₁, hs⟩
  | @cons s t s' a l hstep _ ih =>
    by_cases ha : a.2.topic = topic
    · subst ha
      obtain ⟨t₁, hstep₁, ht⟩ := exists_step_of_lookup_eq hstep hs
      obtain ⟨s₁', hrun, hs'⟩ := ih ht
      refine ⟨s₁', ?_, hs'⟩
      rw [List.filter_cons_of_pos (by simp)]
      exact .cons hstep₁ hrun
    · -- the update of another topic is left out
      rw [List.filter_cons_of_neg (by simpa using ha)]
      exact ih (hs.trans (lookup_of_step_of_ne hstep (Ne.symm ha)).symm)

/-! ## Commits -/

/-- Only commits change the snapshot id and the bytes of a topic. -/
theorem effect_of_commitOf_eq_none {u : Update} (h : u.commitOf u.topic = none) (t : TopicState) :
    (u.effect o t).lastCommittedSnapshotId = t.lastCommittedSnapshotId ∧
      (u.effect o t).totalKafkaBytesProcessed = t.totalKafkaBytesProcessed := by
  cases u with
  | addFiles u => exact ⟨rfl, rfl⟩
  | markFilesCommitted u =>
    rw [Update.commitOf, Update.topic, if_pos rfl] at h
    cases h
  | topicLifecycleUpdate u => exact ⟨rfl, rfl⟩
  | resetTopicState u =>
    obtain ⟨m, hm⟩ := Update.effect_resetTopicState (o := o) (u := u) (t := t)
    rw [hm]
    exact ⟨rfl, rfl⟩

theorem of_step_of_commitOf_eq_none {a : Int × Update} (h : s.Step a s')
    (ha : a.2.commitOf topic = none) :
    (s'.topic topic).lastCommittedSnapshotId = (s.topic topic).lastCommittedSnapshotId ∧
      (s'.topic topic).totalKafkaBytesProcessed = (s.topic topic).totalKafkaBytesProcessed := by
  by_cases htopic : topic = a.2.topic
  · obtain ⟨changes, -, rfl⟩ := step_iff.1 h
    subst htopic
    split_ifs
    · rw [topic_setTopic_self]
      exact effect_of_commitOf_eq_none ha _
    · exact ⟨rfl, rfl⟩
  · rw [topic_congr (lookup_of_step_of_ne h htopic)]
    exact ⟨rfl, rfl⟩

/-- A commit sets the snapshot id of its topic, also if it carries none. -/
theorem lastCommittedSnapshotId_of_step {a : Int × Update} {c : MarkFilesCommittedUpdate}
    (h : s.Step a s') (ha : a.2.commitOf topic = some c) :
    (s'.topic topic).lastCommittedSnapshotId = some c.snapshotId := by
  obtain ⟨o, u⟩ := a
  cases u with
  | markFilesCommitted u =>
    obtain ⟨rfl, rfl⟩ : u.tp.topic = topic ∧ u = c := by
      simpa [Update.commitOf, ite_eq_iff] using ha
    obtain ⟨⟨⟩, -, h⟩ := bind_eq_ok.1 h
    rw [← Except.ok.inj h, topic_setTopic_self]
    rfl
  | _ => cases ha

theorem lastCommit_cons {a : Int × Update} :
    lastCommit topic (a :: l) = (lastCommit topic l).or (a.2.commitOf topic) := by
  rw [lastCommit, List.reverse_cons, List.findSome?_append, List.findSome?_singleton]
  rfl

/-- The topic has the snapshot id of its last commit, if there is any. -/
theorem lastCommittedSnapshotId_of_run (h : Run Step s l s') (topic : Topic) :
    (s'.topic topic).lastCommittedSnapshotId =
      ((lastCommit topic l).map (·.snapshotId)).or (s.topic topic).lastCommittedSnapshotId := by
  induction h with
  | nil s => rfl
  | @cons s t s' a l hstep _ ih =>
    rw [ih, lastCommit_cons]
    rcases lastCommit topic l with _ | c
    · rcases hc : a.2.commitOf topic with _ | c
      · exact (of_step_of_commitOf_eq_none hstep hc).1
      · exact lastCommittedSnapshotId_of_step hstep hc
    · rfl

theorem lastCommit_eq_none : lastCommit topic l = none ↔ ∀ a ∈ l, a.2.commitOf topic = none := by
  rw [lastCommit, List.findSome?_eq_none_iff]
  simp only [List.mem_reverse]

/-- The counters of a topic are as in the beginning if and only if there was no commit. -/
theorem untouched_iff (h : Run Step {} l s) (topic : Topic) :
    ((s.topic topic).totalKafkaBytesProcessed = 0 ∧
      (s.topic topic).lastCommittedSnapshotId = none) ↔ ∀ a ∈ l, a.2.commitOf topic = none := by
  constructor
  · rintro ⟨-, hnone⟩
    rw [lastCommittedSnapshotId_of_run h topic, Option.or_eq_none_iff,
      Option.map_eq_none_iff] at hnone
    exact lastCommit_eq_none.1 hnone.1
  · intro hl
    refine h.invariant_of_labels (P := fun s => (s.topic topic).totalKafkaBytesProcessed = 0 ∧
      (s.topic topic).lastCommittedSnapshotId = none) (fun hs ha hstep => ?_) hl ⟨rfl, rfl⟩
    have hkeep := of_step_of_commitOf_eq_none hstep ha
    exact ⟨hkeep.2.trans hs.1, hkeep.1.trans hs.2⟩

/-- The last commit that has a snapshot id, seen from the last commit. -/
theorem map_lastCommit_eq_iff :
    (lastCommit topic l).map (·.snapshotId) = lastSnapshotId topic l ↔
      ∀ c ∈ lastCommit topic l, c.snapshotId ≠ invalidSnapshotId := by
  rw [lastCommit, lastSnapshotId]
  induction l.reverse with
  | nil => simp
  | cons a l ih =>
    rcases hc : a.2.commitOf topic with _ | c
    · simpa [List.findSome?_cons, hc, Update.snapshotId] using ih
    · by_cases hid : c.snapshotId = invalidSnapshotId
      · have hne : l.findSome? (·.2.snapshotId topic) ≠ some invalidSnapshotId := by
          intro h
          obtain ⟨a', -, ha'⟩ := List.exists_of_findSome?_eq_some h
          obtain ⟨c', -, hc'⟩ := Option.bind_eq_some_iff.1 ha'
          simp at hc'
        have ha : a.2.snapshotId topic = none := by simp [Update.snapshotId, hc, hid]
        simp [hc, ha, hid, hne.symm]
      · have ha : a.2.snapshotId topic = some c.snapshotId := by simp [Update.snapshotId, hc, hid]
        simp [hc, ha, hid]

/-- An update of the lifecycle changes a topic that is not there, one that is purged and has an
    older revision, or one that is less far in its lifecycle; otherwise it is where the topic is. -/
theorem TopicLifecycleUpdate.canApply_eq_ok {changes : Bool} (h : u.canApply s = .ok changes) :
    (changes = true ∧ ∀ t ∈ s.topicToState.lookup u.topic,
      t.revision < u.revision ∧ t.lifecycleState = .purged ∨
        t.revision = u.revision ∧ t.lifecycleState.toNat < u.newState.toNat) ∨
    changes = false ∧ ∃ t ∈ s.topicToState.lookup u.topic,
      t.revision = u.revision ∧ t.lifecycleState = u.newState := by
  rw [canApply] at h
  rcases ht : s.topicToState.lookup u.topic with _ | t
  · rw [ht] at h
    exact .inl ⟨(Except.ok.inj h).symm, nofun⟩
  simp only [ht, ite_error_eq_ok, not_lt] at h
  obtain ⟨hle, h⟩ := h
  split_ifs at h with hrev hpurged hlt hgt hpending
  · -- a new revision
    refine .inl ⟨(Except.ok.inj h).symm, fun t' ht' => .inl ?_⟩
    obtain rfl : t = t' := Option.some.inj ht'
    exact ⟨hrev, not_not.1 hpurged⟩
  · refine .inl ⟨(Except.ok.inj h).symm, fun t' ht' => .inr ?_⟩
    obtain rfl : t = t' := Option.some.inj ht'
    exact ⟨le_antisymm hle (not_lt.1 hrev), hgt⟩
  · refine .inr ⟨(Except.ok.inj h).symm, t, rfl, le_antisymm hle (not_lt.1 hrev), ?_⟩
    have hnat : t.lifecycleState.toNat = u.newState.toNat := by omega
    revert hnat
    cases t.lifecycleState <;> cases u.newState <;> simp [LifecycleState.toNat]

/-! ## Partitions of a topic that is purged -/

/-- What the state of a topic tells of it while it is purged. -/
def Purged.ofTopic : Option TopicState → Purged
  | none => {}
  | some t =>
    if t.lifecycleState = .purged then ⟨some t.revision, t.pidToPendingFiles.keys.toFinset⟩ else {}

theorem Purged.ofTopic_of_ne {t : TopicState} (h : t.lifecycleState ≠ .purged) :
    Purged.ofTopic (some t) = {} :=
  if_neg h

theorem Purged.ofTopic_of_eq {t : TopicState} (h : t.lifecycleState = .purged) :
    Purged.ofTopic (some t) = ⟨some t.revision, t.pidToPendingFiles.keys.toFinset⟩ :=
  if_pos h

/-- A record of the updates agrees with the topic, and a topic that is purged has no files. -/
structure Purged.Describes (topic : Topic) (g : Purged) (s : TopicsState) : Prop where
  eq : g = Purged.ofTopic (s.topicToState.lookup topic)
  noEntries : ∀ t ∈ s.topicToState.lookup topic, t.lifecycleState = .purged →
    t.Forall (·.pendingEntries = [])

theorem keys_setPartition {t : TopicState} {pid : PartitionId} {p : PartitionState} :
    (t.setPartition pid p).pidToPendingFiles.keys.toFinset =
      insert pid t.pidToPendingFiles.keys.toFinset := by
  ext pid'
  rw [TopicState.setPartition, List.mem_toFinset, ← AList.mem_keys, AList.mem_insert,
    Finset.mem_insert, List.mem_toFinset, ← AList.mem_keys]

/-- After a reset, the partitions are those that were kept and those with an override. -/
theorem keys_effect_resetTopicState {u : ResetTopicStateUpdate} {t : TopicState} :
    (Update.effect o (.resetTopicState u) t).pidToPendingFiles.keys.toFinset =
      (if u.resetAllPartitions then ∅ else t.pidToPendingFiles.keys.toFinset) ∪
        u.partitionOverrides.keys.toFinset := by
  have hfold : ∀ (l : List (Sigma fun _ : PartitionId => PartitionStateOverride)) (t : TopicState),
      (l.foldl (fun t p => t.setPartition p.1 (ResetTopicStateUpdate.overridePartition p.2
        (t.partition p.1))) t).pidToPendingFiles.keys.toFinset =
        t.pidToPendingFiles.keys.toFinset ∪ l.keys.toFinset := by
    intro l
    induction l with
    | nil => simp
    | cons p l ih =>
      intro t
      rw [List.foldl_cons, ih, keys_setPartition, List.keys_cons, List.toFinset_cons,
        Finset.insert_union, Finset.union_insert]
  rw [Update.effect, hfold]
  split_ifs
  · rfl
  · rfl

/-- After a reset, a topic that had no files has none. -/
theorem noEntries_effect_resetTopicState {u : ResetTopicStateUpdate} {t : TopicState}
    (ht : t.Forall (·.pendingEntries = [])) :
    (Update.effect o (.resetTopicState u) t).Forall (·.pendingEntries = []) := by
  refine foldl_invariant (fun _ (t : TopicState) => t.Forall (·.pendingEntries = []))
    (fun ht => ht.setPartition rfl) ?_
  split_ifs
  · exact .of_eq_empty rfl
  · exact ht

namespace Purged.Describes

variable {g : Purged}

theorem of_ne {a : Int × Update} (hg : g.Describes topic s) (h : s.Step a s')
    (hne : topic ≠ a.2.topic) : (g.next topic a.2).Describes topic s' := by
  have hnext : g.next topic a.2 = g := by
    obtain ⟨o, u⟩ := a
    cases u with
    | addFiles u => rfl
    | markFilesCommitted u => rfl
    | topicLifecycleUpdate u => exact if_pos hne.symm
    | resetTopicState u => exact if_pos (.inl hne.symm)
  rw [hnext]
  obtain ⟨heq, hentries⟩ := hg
  rw [← lookup_of_step_of_ne h hne] at heq hentries
  exact ⟨heq, hentries⟩

/-- Files are added to topics that are live, and committed if there are any. -/
theorem of_not_purged {t t' : TopicState} (hg : g.Describes topic s)
    (ht : s.topicToState.lookup topic = some t) (hne : t.lifecycleState ≠ .purged)
    (ht' : t'.lifecycleState = t.lifecycleState) : g.Describes topic (s.setTopic topic t') := by
  refine ⟨?_, fun t₁ h₁ hpurged => ?_⟩
  · rw [hg.eq, ht, lookup_setTopic_self, ofTopic_of_ne hne, ofTopic_of_ne (ht' ▸ hne)]
  · rw [lookup_setTopic_self] at h₁
    obtain rfl : t' = t₁ := Option.some.inj h₁
    exact absurd (ht'.symm.trans hpurged) hne

/-- If a lifecycle update changes the topic, its files are dropped if it is purged now. -/
theorem topicLifecycleUpdate (hg : g.Describes u.topic s)
    (h : s.Step (o, .topicLifecycleUpdate u) s') :
    (g.next u.topic (.topicLifecycleUpdate u)).Describes u.topic s' := by
  obtain ⟨changes, hcheck, rfl⟩ := step_iff.1 h
  rw [Purged.next, if_neg (not_not.2 rfl)]
  obtain ⟨rfl, ht⟩ | ⟨rfl, t, ht, hrev, hstate⟩ := TopicLifecycleUpdate.canApply_eq_ok hcheck
  · rw [if_pos rfl]
    by_cases hpurged : u.newState = .purged
    · have hne : g.revision ≠ some u.revision := by
        rw [hg.eq]
        rcases htopic : s.topicToState.lookup u.topic with _ | t
        · exact nofun
        obtain ⟨hrev, hstate⟩ | ⟨-, hlt⟩ := ht t htopic
        · rw [ofTopic_of_eq hstate]
          exact fun h => hrev.ne (Option.some.inj h)
        · rw [ofTopic_of_ne fun h => by rw [h, hpurged] at hlt; exact hlt.false]
          exact nofun
      rw [if_neg (not_not.2 hpurged), if_neg hne]
      refine ⟨?_, fun t' ht' _ => ?_⟩
      · rw [Update.topic, lookup_setTopic_self, ofTopic_of_eq hpurged, Update.effect,
          if_pos hpurged]
        rfl
      · rw [Update.topic, lookup_setTopic_self] at ht'
        rw [← Option.some.inj ht']
        exact .of_eq_empty (if_pos hpurged)
    · rw [if_pos hpurged]
      refine ⟨?_, fun t' ht' h => ?_⟩
      · rw [Update.topic, lookup_setTopic_self, ofTopic_of_ne hpurged]
      · rw [Update.topic, lookup_setTopic_self] at ht'
        rw [← Option.some.inj ht'] at h
        exact absurd h hpurged
  · -- the topic is there already, and the record stays as it is
    rw [if_neg Bool.false_ne_true]
    have hnext : g = if u.newState ≠ .purged then {} else
        if g.revision = some u.revision then g else ⟨some u.revision, ∅⟩ := by
      have hg' := hg.eq
      rw [show _ = _ from ht] at hg'
      split_ifs with hpurged hrevision
      · rw [hg', ofTopic_of_ne (hstate ▸ hpurged)]
      · rfl
      · rw [not_not] at hpurged
        rw [hg', ofTopic_of_eq (hstate.trans hpurged), hrev] at hrevision
        exact absurd rfl hrevision
    rw [← hnext]
    exact hg

/-- A reset leaves states of partitions in a topic that is purged. -/
theorem resetTopicState {u : ResetTopicStateUpdate} (hg : g.Describes u.topic s)
    (h : s.Step (o, .resetTopicState u) s') :
    (g.next u.topic (.resetTopicState u)).Describes u.topic s' := by
  obtain ⟨⟨⟩, -, h⟩ := bind_eq_ok.1 h
  have heq := hg.eq
  rcases ht : s.topicToState.lookup u.topic with _ | t
  · rw [ht] at h heq
    rw [← Except.ok.inj h, Purged.next, if_pos (.inr (by rw [heq]; rfl))]
    exact hg
  rw [ht] at h heq
  obtain ⟨m, hm⟩ := Update.effect_resetTopicState (o := o) (u := u) (t := t)
  have hs' : s' = s.setTopic u.topic (Update.effect o (.resetTopicState u) t) :=
    (Except.ok.inj h).symm
  have hstate : (Update.effect o (.resetTopicState u) t).lifecycleState = t.lifecycleState := by
    rw [hm]
  by_cases hpurged : t.lifecycleState = .purged
  · rw [ofTopic_of_eq hpurged] at heq
    rw [hs', Purged.next, if_neg (by rw [heq]; simp)]
    refine ⟨?_, fun t' ht' _ => ?_⟩
    · rw [lookup_setTopic_self, ofTopic_of_eq (hstate.trans hpurged), keys_effect_resetTopicState,
        heq, hm]
    · rw [lookup_setTopic_self] at ht'
      rw [← Option.some.inj ht']
      exact noEntries_effect_resetTopicState (hg.noEntries t ht hpurged)
  · rw [ofTopic_of_ne hpurged] at heq
    rw [hs', Purged.next, if_pos (.inr (by rw [heq]))]
    exact hg.of_not_purged ht hpurged hstate

theorem step {a : Int × Update} (hg : g.Describes topic s) (h : s.Step a s') :
    (g.next topic a.2).Describes topic s' := by
  by_cases htopic : topic = a.2.topic
  · subst htopic
    obtain ⟨o, u⟩ := a
    cases u with
    | addFiles u =>
      obtain ⟨⟨⟩, hcan, h⟩ := bind_eq_ok.1 h
      obtain ⟨_, _, t, -, ht, -, hlive, -⟩ := AddFilesUpdate.canApply_eq_ok hcan
      rw [← Except.ok.inj h]
      exact hg.of_not_purged ht (by rw [hlive]; exact nofun) (by rw [topic_eq_of_lookup ht]; rfl)
    | markFilesCommitted u =>
      obtain ⟨t, p, ht, -, hp, ⟨e, he, -⟩, t', rfl, -, hlife, -⟩ :=
        MarkFilesCommittedUpdate.apply_eq_ok h
      refine hg.of_not_purged ht (fun hpurged => ?_) hlife
      rw [hg.noEntries t ht hpurged _ p hp] at he
      cases he
    | topicLifecycleUpdate u => exact hg.topicLifecycleUpdate h
    | resetTopicState u => exact hg.resetTopicState h
  · exact hg.of_ne h htopic

theorem run (hg : g.Describes topic s) (h : Run Step s l s') :
    (l.foldl (fun g a => g.next topic a.2) g).Describes topic s' := by
  induction h generalizing g with
  | nil s => exact hg
  | cons hstep _ ih => exact ih (hg.step hstep)

end Purged.Describes

/-! ## The new revision -/

/-- A topic is registered if it is not there, or is purged. -/
theorem eq_of_registers (hu : u.Registers s) (h : s.Step (o, .topicLifecycleUpdate u) s₁) :
    s₁ = s.setTopic u.topic (Update.effect o (.topicLifecycleUpdate u) (s.topic u.topic)) ∧
      ∀ t ∈ s.topicToState.lookup u.topic, t.lifecycleState = .purged := by
  obtain ⟨changes, hcheck, rfl⟩ := step_iff.1 h
  obtain ⟨rfl, ht⟩ | ⟨rfl, t, ht, hrev, -⟩ := TopicLifecycleUpdate.canApply_eq_ok hcheck
  · refine ⟨rfl, fun t htopic => ?_⟩
    obtain ⟨-, hpurged⟩ | ⟨hrev, -⟩ := ht t htopic
    · exact hpurged
    · exact absurd hrev (hu t htopic).ne
  · exact absurd hrev (hu t ht).ne

/-- The state of a topic right after it is registered for the first time. -/
def registered (u : TopicLifecycleUpdate) : TopicState where
  revision := u.revision
  lifecycleState := u.newState

theorem step_empty_iff :
    TopicsState.Step {} (o, .topicLifecycleUpdate u) s ↔
      s = setTopic {} u.topic (registered u) := by
  have heffect : Update.effect o (.topicLifecycleUpdate u) {} = registered u := by
    simp [Update.effect, registered]
  rw [step_iff, ← heffect]
  constructor
  · rintro ⟨changes, hcheck, rfl⟩
    obtain rfl : true = changes := Except.ok.inj hcheck
    rfl
  · rintro rfl
    exact ⟨true, rfl, rfl⟩

/-- The topic is as registered for the first time if and only if the updates so far left nothing. -/
theorem lookup_eq_registered_iff (hrun : Run Step {} l s) (hu : u.Registers s)
    (hstep : s.Step (o, .topicLifecycleUpdate u) s₁) :
    s₁.topicToState.lookup u.topic = some (registered u) ↔ NothingLeft u l := by
  obtain ⟨rfl, hpurged⟩ := eq_of_registers hu hstep
  have hg : (Purged.after u.topic l).Describes u.topic s :=
    Purged.Describes.run ⟨rfl, fun _ ht => absurd ht (Option.not_mem_none _)⟩ hrun
  -- a topic that registers was purged or never there, which the record describes
  have hpartitions : (Purged.after u.topic l).partitions = ∅ ↔
      (s.topic u.topic).pidToPendingFiles = ∅ := by
    rw [hg.eq]
    rcases ht : s.topicToState.lookup u.topic with _ | t
    · rw [TopicsState.topic, ht]
      exact iff_of_true rfl rfl
    · rw [topic_eq_of_lookup ht, Purged.ofTopic_of_eq (hpurged t ht), List.toFinset_eq_empty_iff,
        AList.keys, List.keys, List.map_eq_nil_iff]
      exact ⟨fun h => AList.ext h, fun h => by rw [h]; rfl⟩
  have huntouched := untouched_iff hrun u.topic
  rw [lookup_setTopic_self, Option.some.injEq]
  constructor
  · intro h
    have hbytes := congrArg TopicState.totalKafkaBytesProcessed h
    have hsnapshot := congrArg TopicState.lastCommittedSnapshotId h
    have hfiles := congrArg TopicState.pidToPendingFiles h
    refine ⟨huntouched.1 ⟨hbytes, hsnapshot⟩, ?_⟩
    by_cases hnew : u.newState = .purged
    · exact .inl hnew
    · exact .inr (hpartitions.2 ((if_neg hnew).symm.trans hfiles))
  · rintro ⟨hcommits, hresets⟩
    obtain ⟨hbytes, hsnapshot⟩ := huntouched.2 hcommits
    have hfiles :
        (if u.newState = .purged then ∅ else (s.topic u.topic).pidToPendingFiles) = ∅ := by
      split_ifs with hnew
      · rfl
      · exact hpartitions.1 (hresets.resolve_left hnew)
    rw [Update.effect, registered, hfiles, hbytes, hsnapshot]

/-- A topic is registered with a new revision after updates from the start. Whatever is done then,
    the topic is as if it was registered for the first time and driven by its updates since, if and
    only if nothing is left of it. If so, it has the last snapshot id that a commit carried since
    then, if and only if the last commit carries one. -/
theorem fresh_iff (hrun : Run Step {} l s) (hu : u.Registers s)
    (hstep : s.Step (o, .topicLifecycleUpdate u) s₁) :
    ((∀ l' s', Run Step s₁ l' s' → ∃ s'',
        Run Step {} ((o, .topicLifecycleUpdate u) :: l'.filter (·.2.topic = u.topic)) s'' ∧
          s''.topicToState.lookup u.topic = s'.topicToState.lookup u.topic) ↔ NothingLeft u l) ∧
    (NothingLeft u l → ∀ l' s', Run Step s₁ l' s' →
      ((s'.topic u.topic).lastCommittedSnapshotId = lastSnapshotId u.topic l' ↔
        ∀ c ∈ lastCommit u.topic l', c.snapshotId ≠ invalidSnapshotId)) := by
  have hleft := lookup_eq_registered_iff hrun hu hstep
  refine ⟨⟨fun h => ?_, fun h l' s' hrun' => ?_⟩, fun h l' s' hrun' => ?_⟩
  · -- no updates since
    obtain ⟨s'', hrun'', hs''⟩ := h [] s₁ (.nil s₁)
    cases hrun'' with
    | cons hstep'' hnil =>
      cases hnil
      rw [step_empty_iff.1 hstep'', lookup_setTopic_self] at hs''
      exact hleft.1 hs''.symm
  · have hfirst := (step_empty_iff (o := o) (u := u)).2 rfl
    have hsame : (setTopic {} u.topic (registered u)).topicToState.lookup u.topic =
        s₁.topicToState.lookup u.topic := lookup_setTopic_self.trans (hleft.2 h).symm
    obtain ⟨s'', hrun'', hs''⟩ := exists_run_filter hrun' u.topic hsame
    exact ⟨s'', .cons hfirst hrun'', hs''⟩
  · rw [lastCommittedSnapshotId_of_run hrun', topic_eq_of_lookup (hleft.2 h),
      show (registered u).lastCommittedSnapshotId = none from rfl, Option.or_none]
    exact map_lastCommit_eq_iff

/-- The first revision of a topic, whose files are given up before it is purged. -/
def firstRevision : List (Int × Update) :=
  [register, addRanges 1 [(0, 9)], (2, .topicLifecycleUpdate ⟨"users", 5, .live⟩), resetTo 3 9,
    (4, .topicLifecycleUpdate ⟨"orders", 1, .purged⟩)]

/-- What is done to the topic in its second revision, and to another one. -/
def secondRevision : List (Int × Update) :=
  [(6, .addFiles ⟨firstPartition, 2, [⟨0, 9, [], [], 0⟩, ⟨10, 19, [], [], 0⟩]⟩),
    (7, .topicLifecycleUpdate ⟨"users", 5, .closed⟩),
    (8, .markFilesCommitted ⟨firstPartition, 2, 9, 10, 7⟩)]

theorem fresh_iff_second : ∃ s s₁ s', Run Step {} firstRevision s ∧
    s.Step (5, .topicLifecycleUpdate ⟨"orders", 2, .live⟩) s₁ ∧ Run Step s₁ secondRevision s' ∧
    (∃ s'', Run Step {} ((5, .topicLifecycleUpdate ⟨"orders", 2, .live⟩) ::
        secondRevision.filter (·.2.topic = "orders")) s'' ∧
      s''.topicToState.lookup "orders" = s'.topicToState.lookup "orders") ∧
    (s'.topic "orders").lastCommittedSnapshotId = some 7 := by
  obtain ⟨s, s₁, s', hrun, hu, hstep, hrun'⟩ : ∃ s s₁ s', Run Step {} firstRevision s ∧
      TopicLifecycleUpdate.Registers ⟨"orders", 2, .live⟩ s ∧
      s.Step (5, .topicLifecycleUpdate ⟨"orders", 2, .live⟩) s₁ ∧
      Run Step s₁ secondRevision s' := by
    refine ⟨_, _, _, .cons rfl (.cons rfl (.cons rfl (.cons rfl (.single rfl)))), ?_, rfl,
      .cons rfl (.cons rfl (.single rfl))⟩
    rintro _ ⟨⟩
    decide
  have hleft : NothingLeft ⟨"orders", 2, .live⟩ firstRevision := by
    refine ⟨?_, .inr rfl⟩
    simp only [firstRevision, List.forall_mem_cons]
    exact ⟨rfl, rfl, rfl, rfl, rfl, nofun⟩
  have hfresh := fresh_iff hrun hu hstep
  refine ⟨s, s₁, s', hrun, hstep, hrun', hfresh.1.2 hleft _ s' hrun', ?_⟩
  refine (hfresh.2 hleft _ s' hrun').2 ?_
  rintro _ ⟨⟩
  decide

/-- Files of the first partition are committed. -/
def commitTo (o last : Int) (snapshotId : SnapshotId) : Int × Update :=
  (o, .markFilesCommitted ⟨firstPartition, 1, last, 10, snapshotId⟩)

/-- The new revision of a topic has the bytes and the snapshot id of the old one, and the committed
    offset that was set after the purge. A commit without a snapshot id takes the place of one. -/
theorem exists_revision_not_fresh :
    (∃ s, Run Step {} [register, addRanges 1 [(0, 9)], commitTo 2 9 7,
        (3, .topicLifecycleUpdate ⟨"orders", 1, .purged⟩), resetTo 4 9,
        (5, .topicLifecycleUpdate ⟨"orders", 2, .live⟩)] s ∧
      (s.topic "orders").revision = 2 ∧ (s.topic "orders").lastCommittedSnapshotId = some 7 ∧
      (s.topic "orders").totalKafkaBytesProcessed = 10 ∧
      s.partitionState firstPartition = some ⟨[], some 9⟩) ∧
    ∃ s, Run Step {} [register, addRanges 1 [(0, 9), (10, 19)], commitTo 2 9 7,
        commitTo 3 19 invalidSnapshotId] s ∧
      (s.topic "orders").lastCommittedSnapshotId = some invalidSnapshotId :=
  ⟨⟨_, .cons rfl (.cons rfl (.cons rfl (.cons rfl (.cons rfl (.single rfl))))), rfl, rfl, rfl, rfl⟩,
    _, .cons rfl (.cons rfl (.cons rfl (.single rfl))), rfl⟩

end Redpanda.Datalake
