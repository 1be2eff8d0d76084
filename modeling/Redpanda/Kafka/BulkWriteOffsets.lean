import Mathlib.Data.List.Basic

/-!
# Restoring the offsets of consumer groups

`do_bulk_write_offsets` commits the offsets of a snapshot, group by group. The answer to a commit
has an error for each partition, the first of which is to be returned. But an error is only
remembered if there is one already, so there never is: whatever becomes of the commits, all the
groups are gone through, and the answer is `none`.

* `snd_restoreGroups`: what is stored are the commits that are accepted and replicated.
* `storesAll_iff`: so everything is stored exactly if each offset is in such a commit.
* `exists_not_stored`: otherwise the answer is `none` as well.
-/

namespace Redpanda.Kafka

open List

/-- The codes of `error_code` that are returned here. -/
inductive GroupErrorCode
  | none
  | notLeaderForPartition
  | coordinatorLoadInProgress
  | coordinatorNotAvailable
  | notCoordinator
  | invalidGroupId
  | unknownMemberId
  | illegalGeneration
  | rebalanceInProgress
  | requestTimedOut
  | unknownServerError
  deriving DecidableEq

inductive GroupState
  | empty
  | preparingRebalance
  | completingRebalance
  | stable
  | dead
  deriving DecidableEq

/-- A group, as a commit sees it. -/
structure GroupView where
  state : GroupState
  members : List String
  generation : Int

/-- The partition of the offsets topic, as `_partitions` has it. -/
structure AttachedPartition where
  isLeader : Bool := true
  termChanged : Bool := false
  loading : Bool := false

/-- A group of the snapshot, with what is found when its turn comes: the group if it exists, the
    partition if it is attached, whether the group is blocked, and how replication will end. -/
structure GroupRestore where
  groupId : String
  /-- The topics, with the offsets of their partitions. -/
  offsets : List (String × List (Int × Int))
  group : Option GroupView
  partition : Option AttachedPartition := some {}
  isBlocked : Bool := false
  replicated : GroupErrorCode := .none

/-- An offset of a partition of a topic that is committed for a group. -/
structure OffsetCommit where
  groupId : String
  topic : String
  partition : Int
  offset : Int
  deriving DecidableEq

namespace GroupRestore

variable (r : GroupRestore)

def commits : List OffsetCommit :=
  r.offsets.flatMap fun t => t.2.map fun p => ⟨r.groupId, t.1, p.1, p.2⟩

/-- `validate_group_status`, for `offset_commit_api`. -/
def validateGroupStatus : GroupErrorCode :=
  match r.partition with
  | none => .notCoordinator
  | some p =>
    if r.isBlocked then .invalidGroupId
    else if !p.isLeader || p.termChanged || p.loading then .notCoordinator
    else .none

/-- `store_offsets`: the error, and what is replicated. -/
def storeOffsets : GroupErrorCode × List OffsetCommit :=
  if r.commits = [] then (.none, [])
  else (r.replicated, if r.replicated = .none then r.commits else [])

/-- `group::handle_offset_commit`, for a request without member and generation. -/
def handleOffsetCommit (g : GroupView) : GroupErrorCode × List OffsetCommit :=
  if g.state = .dead then (.coordinatorNotAvailable, [])
  else if g.state = .empty then r.storeOffsets
  else if "" ∉ g.members then (.unknownMemberId, [])
  else if g.generation ≠ -1 then (.illegalGeneration, [])
  else if g.state = .completingRebalance then (.rebalanceInProgress, [])
  else r.storeOffsets

/-- `group_manager::offset_commit`. A group that does not exist is created. -/
def offsetCommit : GroupErrorCode × List OffsetCommit :=
  if r.validateGroupStatus = .none then r.handleOffsetCommit (r.group.getD ⟨.empty, [], 0⟩)
  else (r.validateGroupStatus, [])

/-- The constructor of `offset_commit_response`. -/
def response (e : GroupErrorCode) : List (String × List (Int × GroupErrorCode)) :=
  r.offsets.map fun t => (t.1, t.2.map fun p => (p.1, e))

end GroupRestore

/-- The loop over the errors of a response. -/
def firstError (res : List (String × List (Int × GroupErrorCode))) : GroupErrorCode :=
  (res.flatMap Prod.snd).foldl (fun firstError p =>
    if p.2 ≠ .none then if firstError ≠ .none then p.2 else firstError else firstError) .none

variable (merge : Bool)

/-- The loop over the groups: the answer, and all that is stored. -/
def restoreGroups : List GroupRestore → GroupErrorCode × List OffsetCommit
  | [] => (.none, [])
  | r :: snap =>
    if r.group.isSome ∧ ¬ merge then restoreGroups snap
    else
      let (e, stored) := r.offsetCommit
      if firstError (r.response e) ≠ .none then (firstError (r.response e), stored)
      else ((restoreGroups snap).1, stored ++ (restoreGroups snap).2)

variable (partition : Option AttachedPartition) (snap : List GroupRestore)

def doBulkWriteOffsets : GroupErrorCode × List OffsetCommit :=
  match partition with
  | none => (.notLeaderForPartition, [])
  | some p =>
    if !p.isLeader then (.notLeaderForPartition, [])
    else if p.loading then (.coordinatorLoadInProgress, [])
    else restoreGroups merge snap

/-- A group that exists is skipped, unless the offsets are to be merged. -/
def GroupRestore.Restored (r : GroupRestore) : Prop :=
  r.group = none ∨ merge
  deriving Decidable

/-- Every offset of the groups that are not skipped is stored. -/
def StoresAll (stored : List OffsetCommit) : Prop :=
  ∀ r ∈ snap, r.Restored merge → ∀ o ∈ r.commits, o ∈ stored
  deriving Decidable

/-- The group takes a commit that has no member and no generation. -/
def GroupView.TakesCommit (g : GroupView) : Prop :=
  g.state = .empty ∨
    g.state ≠ .dead ∧ g.state ≠ .completingRebalance ∧ "" ∈ g.members ∧ g.generation = -1
  deriving Decidable

/-- The partition and the group accept the commit, and it is replicated. -/
def GroupRestore.Accepts (r : GroupRestore) : Prop :=
  r.validateGroupStatus = .none ∧ (∀ g ∈ r.group, g.TakesCommit) ∧ r.replicated = .none
  deriving Decidable

/-- No error is ever remembered. -/
theorem firstError_eq_none (res) : firstError res = .none :=
  foldlRecOn (motive := (· = GroupErrorCode.none)) _ _ rfl fun _ he p _ => by
    rw [he]
    split <;> rfl

namespace GroupRestore

variable {r : GroupRestore}

theorem snd_storeOffsets : r.storeOffsets.2 = if r.replicated = .none then r.commits else [] := by
  rw [storeOffsets]
  split_ifs <;> simp_all

theorem snd_handleOffsetCommit (g : GroupView) :
    (r.handleOffsetCommit g).2 = if g.TakesCommit then r.storeOffsets.2 else [] := by
  by_cases htakes : g.TakesCommit
  · rw [if_pos htakes, handleOffsetCommit]
    rcases htakes with hempty | ⟨hdead, hrebalance, hmember, hgeneration⟩
    · simp [hempty]
    · simp [hdead, hrebalance, hmember, hgeneration]
  · rw [if_neg htakes, handleOffsetCommit]
    rw [GroupView.TakesCommit] at htakes
    split_ifs <;> simp_all

/-- A commit stores all its offsets or none. -/
theorem snd_offsetCommit : r.offsetCommit.2 = if r.Accepts then r.commits else [] := by
  have hgroup : (r.group.getD ⟨.empty, [], 0⟩).TakesCommit ↔ ∀ g ∈ r.group, g.TakesCommit := by
    rcases r.group with _ | g
    · simp [GroupView.TakesCommit]
    · simp
  rw [offsetCommit]
  split_ifs with hstatus haccepts haccepts
  · rw [snd_handleOffsetCommit, if_pos (hgroup.2 haccepts.2.1), snd_storeOffsets,
      if_pos haccepts.2.2]
  · rw [snd_handleOffsetCommit, snd_storeOffsets]
    split_ifs with htakes hreplicated
    · exact absurd ⟨hstatus, hgroup.1 htakes, hreplicated⟩ haccepts
    · rfl
    · rfl
  · exact absurd haccepts.1 hstatus
  · rfl

end GroupRestore

/-- All groups are gone through, and each adds what its commit stores. -/
theorem snd_restoreGroups : (restoreGroups merge snap).2 =
    (snap.filter fun r => r.Restored merge).flatMap fun r => r.offsetCommit.2 := by
  induction snap with
  | nil => rfl
  | cons r snap ih =>
    rw [restoreGroups]
    split_ifs with hskip
    · have hnot : ¬ r.Restored merge := by
        rintro (hnone | hmerge)
        · simp [hnone] at hskip
        · exact hskip.2 hmerge
      rw [ih, filter_cons_of_neg (by simpa using hnot)]
    · have hrestored : r.Restored merge := by
        rcases hg : r.group with _ | g
        · exact .inl hg
        · simpa [hg, GroupRestore.Restored] using hskip
      simp only [firstError_eq_none]
      rw [if_neg (by simp), ih, filter_cons_of_pos (by simpa using hrestored), flatMap_cons]

theorem doBulkWriteOffsets_eq (hnone : (doBulkWriteOffsets merge partition snap).1 = .none) :
    doBulkWriteOffsets merge partition snap = restoreGroups merge snap := by
  rcases partition with _ | p
  · cases hnone
  · rw [doBulkWriteOffsets] at hnone ⊢
    split_ifs at hnone ⊢
    rfl

/-- If the answer is `none` then everything is stored exactly if each offset of a group that is
    not skipped is in a commit that is accepted and replicated. -/
theorem storesAll_iff (hnone : (doBulkWriteOffsets merge partition snap).1 = .none) :
    StoresAll merge snap (doBulkWriteOffsets merge partition snap).2 ↔
      ∀ r ∈ snap, r.Restored merge → ∀ o ∈ r.commits,
        ∃ r' ∈ snap, r'.Restored merge ∧ r'.Accepts ∧ o ∈ r'.commits := by
  have hmem : ∀ o, o ∈ (doBulkWriteOffsets merge partition snap).2 ↔
      ∃ r' ∈ snap, r'.Restored merge ∧ r'.Accepts ∧ o ∈ r'.commits := by
    intro o
    rw [doBulkWriteOffsets_eq _ _ _ hnone, snd_restoreGroups, mem_flatMap]
    simp only [mem_filter, decide_eq_true_eq, GroupRestore.snd_offsetCommit, and_assoc]
    refine exists_congr fun r' => and_congr_right fun _ => and_congr_right fun _ => ?_
    split_ifs with haccepts <;> simp [haccepts]
  simp only [StoresAll, hmem]

/-- An offset is restored, a group that exists is skipped, and one that is blocked has no
    offsets. -/
theorem storesAll_skipped :
    StoresAll false [⟨"a", [("t", [(0, 7)])], none, some {}, false, .none⟩,
      ⟨"b", [("t", [(0, 8)])], some ⟨.stable, ["m"], 3⟩, some {}, false, .none⟩,
      ⟨"c", [], none, some {}, true, .none⟩]
      [⟨"a", "t", 0, 7⟩] :=
  (storesAll_iff false (some {}) _ (by decide)).2 (by decide)

/-- Replication runs into a timeout, and the answer is `none`. -/
theorem exists_not_stored :
    ∃ snap, (doBulkWriteOffsets false (some {}) snap).1 = .none ∧
      ¬ StoresAll false snap (doBulkWriteOffsets false (some {}) snap).2 :=
  ⟨[⟨"a", [("t", [(0, 7)])], none, some {}, false, .requestTimedOut⟩], by decide, by decide⟩

end Redpanda.Kafka
