import Redpanda.Lib.Majority
import Redpanda.Lib.Run

/-!
# Group configurations

The configuration of a raft group: its voters and learners, the ones it is
moving away from while it is *joint*, and the update it is carrying out. The
operations are those of the strategy with symmetric cancellation
(`configuration_change_strategy_v6`), in which the update is kept until the
configuration is simple again, so that a cancellation can turn it around.

`GroupConfiguration.change` is what `consensus` does with a configuration: an
operation is only carried out where `consensus` would, i.e., on the leader
after the last configuration was committed, and behind the checks of the
function requesting it. It is `none` where the request is refused.

The broker based fields and operations of older versions are left out.
-/

namespace Redpanda.Raft

open Lib List

/-- A replica: the node and the revision at which it joined the group. -/
structure VNode where
  id : Int
  revision : Int
  deriving DecidableEq

/-- The voters and learners of one side of a configuration (`group_nodes`). -/
structure GroupNodes where
  voters : List VNode
  learners : List VNode
  deriving DecidableEq

def GroupNodes.contains (g : GroupNodes) (n : VNode) : Bool :=
  n ∈ g.voters || n ∈ g.learners

/-- The update a configuration is carrying out (`configuration_update`). -/
structure ConfigurationUpdate where
  replicasToAdd : List VNode
  replicasToRemove : List VNode
  learnerStartOffset : Option Int
  deriving DecidableEq

namespace ConfigurationUpdate

variable (u : ConfigurationUpdate)

def isToAdd (n : VNode) : Bool := n ∈ u.replicasToAdd

def isToRemove (n : VNode) : Bool := n ∈ u.replicasToRemove

/-- The update turned around (`std::swap` of the two replica lists). -/
@[simps]
def swap : ConfigurationUpdate :=
  { u with replicasToAdd := u.replicasToRemove, replicasToRemove := u.replicasToAdd }

/-- The update from the current to the requested nodes
    (`calculate_configuration_update`). -/
def calculate (currentNodes requestedNodes : List VNode) : ConfigurationUpdate where
  replicasToRemove := currentNodes.filter fun n => n ∉ requestedNodes
  replicasToAdd := requestedNodes.filter fun n => n ∉ currentNodes
  learnerStartOffset := none

end ConfigurationUpdate

inductive ConfigurationState
  | simple
  | transitional
  | joint
  deriving DecidableEq

/-- A group configuration (`group_configuration`). -/
structure GroupConfiguration where
  current : GroupNodes
  configurationUpdate : Option ConfigurationUpdate
  old : Option GroupNodes
  allReplicas : List VNode
  revision : Int
  deriving DecidableEq

/-- Appending to `acc` the nodes of `source` it does not hold yet. -/
def copyUnique (acc source : List VNode) : List VNode :=
  source.foldl (fun acc n => if n ∈ acc then acc else acc ++ [n]) acc

namespace GroupConfiguration

variable (c : GroupConfiguration) (u : ConfigurationUpdate)

/-- All replicas are those of both configurations, each once. -/
@[simps current old configurationUpdate]
def updateAllReplicas : GroupConfiguration :=
  let current := copyUnique (copyUnique [] c.current.voters) c.current.learners
  { c with
    allReplicas := match c.old with
      | none => current
      | some old => copyUnique (copyUnique current old.voters) old.learners }

/-- The constructor: a simple configuration of the given nodes. -/
def ofNodes (voters learners : List VNode) (revision : Int) : GroupConfiguration :=
  updateAllReplicas
    { current := ⟨voters, learners⟩, configurationUpdate := none, old := none,
      allReplicas := [], revision := revision }

/-- The state is told by which fields are set. -/
def getState : ConfigurationState :=
  if c.old.isSome then .joint
  else if c.configurationUpdate.isSome then .transitional
  else .simple

def contains (n : VNode) : Bool := n ∈ c.allReplicas

/-- The voters of the configuration without repetitions (`unique_voter_ids`). -/
def uniqueVoterIds : List VNode :=
  copyUnique (copyUnique [] c.current.voters) ((c.old.map (·.voters)).getD [])

def uniqueLearnerIds : List VNode :=
  copyUnique (copyUnique [] c.current.learners) ((c.old.map (·.learners)).getD [])

/-- Whether the predicate holds for a majority of the range
    (`details::majority`): nothing is asked of an empty one. -/
def majorityOf (f : VNode → Bool) (range : List VNode) : Bool :=
  range.isEmpty || IsMajority f range

/-- Whether the predicate holds for a majority of the voters, and while joint
    also for a majority of the old voters. -/
def majority (f : VNode → Bool) : Bool :=
  match c.old with
  | none => majorityOf f c.current.voters
  | some old => majorityOf f c.current.voters && majorityOf f old.voters

/-- `S` is a quorum of the configuration. -/
def IsQuorum (S : Finset VNode) : Prop :=
  c.majority (· ∈ S) = true
  deriving Decidable

/-! ## The change strategy -/

/-- `configuration_change_strategy_v6::finish_configuration_transition`: going
    joint if there is a replica left to remove, being done otherwise. -/
def v6FinishConfigurationTransition : GroupConfiguration :=
  match c.old, c.configurationUpdate with
  | none, some u =>
    if u.replicasToRemove.any c.current.contains then
      { c with
        old := some c.current
        current := { c.current with voters := c.current.voters.filter (!u.isToRemove ·) } }
    else { c with configurationUpdate := none }
  | _, _ => c -- not transitional

/-- The nodes are to become those given, learners first. -/
def v6Replace (replicas : List VNode) (rev : Int)
    (learnerStartOffset : Option Int) : GroupConfiguration :=
  let c := { c with revision := rev }
  -- the membership test also accepts learners
  if c.current.voters.length = replicas.length ∧ replicas.all c.contains then c
  else
    let u := { ConfigurationUpdate.calculate c.current.voters replicas with learnerStartOffset }
    let c := { c with
      configurationUpdate := some u
      current := { c.current with
        learners := c.current.learners ++ replicas.filter u.isToAdd } }
    if u.replicasToAdd.isEmpty then c.v6FinishConfigurationTransition else c

/-- `configuration_change_strategy_v6::fill_learners_with_nodes_to_add`. -/
def v6FillLearnersWithNodesToAdd : GroupConfiguration :=
  u.replicasToAdd.foldl (fun c n =>
    if c.current.contains n then c
    else { c with current := { c.current with learners := c.current.learners ++ [n] } }) c

/-- The change is turned round: the learners that were added go. -/
def v6CancelUpdateInTransitionalState : GroupConfiguration :=
  let u := u.swap
  let c := { c with
    configurationUpdate := some u
    current := { c.current with learners := c.current.learners.filter (!u.isToRemove ·) } }
  (c.v6FillLearnersWithNodesToAdd u).v6FinishConfigurationTransition

/-- The old nodes are the current ones again, and the change is turned round. -/
def v6CancelUpdateInJointState (old : GroupNodes) : GroupConfiguration :=
  let u := u.swap
  v6FillLearnersWithNodesToAdd
    { c with configurationUpdate := some u, current := old, old := none } u

/-- All nodes the configuration knows of, less the ones it was adding. -/
def v6AbortConfigurationChange (revision : Int) : GroupConfiguration :=
  let allNodeIds := copyUnique (copyUnique c.uniqueLearnerIds c.uniqueVoterIds) u.replicasToRemove
  { c with
    current := ⟨allNodeIds.filter (!u.isToAdd ·), []⟩
    old := none
    configurationUpdate := none
    revision := revision }

/-! ## Operations of a configuration

The assertions of the source are guards here: `none` stands for a failed one. -/

/-- Only a configuration in the simple state is changed. -/
def replace (nodes : List VNode) (rev : Int)
    (learnerStartOffset : Option Int) : Option GroupConfiguration :=
  if c.getState = .simple then
    some (c.v6Replace nodes rev learnerStartOffset).updateAllReplicas
  else none

def add (node : VNode) (rev : Int) (learnerStartOffset : Option Int) : Option GroupConfiguration :=
  if c.current.contains node then none
  else c.replace (c.allReplicas ++ [node]) rev learnerStartOffset

def remove (node : VNode) (rev : Int) : Option GroupConfiguration :=
  if c.current.contains node then c.replace (c.allReplicas.filter (· ≠ node)) rev none
  else none

def discardOldConfig : Option GroupConfiguration :=
  if c.old.isSome then some { c with old := none, configurationUpdate := none }.updateAllReplicas
  else none

def abortConfigurationChange (rev : Int) : Option GroupConfiguration :=
  c.configurationUpdate.map fun u => (c.v6AbortConfigurationChange u rev).updateAllReplicas

def cancelConfigurationChange (rev : Int) : Option GroupConfiguration :=
  c.configurationUpdate.map fun u =>
    let c' := match c.old with
      | none => c.v6CancelUpdateInTransitionalState u
      | some old => c.v6CancelUpdateInJointState u old
    { c' with revision := rev }.updateAllReplicas

def finishConfigurationTransition : GroupConfiguration :=
  c.v6FinishConfigurationTransition.updateAllReplicas

/-- Turning a learner into a voter. The list of all replicas is not recomputed. -/
def promoteToVoter (n : VNode) : GroupConfiguration :=
  if n ∈ c.current.learners then
    { c with current := ⟨c.current.voters ++ [n], c.current.learners.erase n⟩ }
  else c

/-- Turning the old voters which are not in the current configuration into
    learners, or `none` if there are no such voters. -/
def maybeDemoteRemovedVoters : Option GroupConfiguration :=
  c.old.bind fun old =>
    let removed := old.voters.filter (!c.current.contains ·)
    if removed.isEmpty then none
    else some { c with
      old := some ⟨old.voters.filter (c.current.contains ·), old.learners ++ removed⟩ }

end GroupConfiguration

/-! ## What consensus does with a configuration -/

/-- The changes of the configuration `consensus` carries out. -/
inductive ConfigurationChange
  | replace (nodes : List VNode) (rev : Int) (learnerStartOffset : Option Int)
  | add (node : VNode) (rev : Int) (learnerStartOffset : Option Int)
  | remove (node : VNode) (rev : Int)
  | promoteToVoter (node : VNode)
  /-- `maybe_commit_configuration`: finishing the transition, demoting the
      removed voters or discarding the old configuration. -/
  | maybeCommit
  | cancel (rev : Int)
  | abort (rev : Int)
  deriving DecidableEq

namespace GroupConfiguration

variable (c : GroupConfiguration)

/-- `consensus::change_configuration`: no new change while one is going on, nor
    one of an older revision. -/
def changeConfiguration
    (f : GroupConfiguration → Option GroupConfiguration) : Option GroupConfiguration :=
  if c.getState = .simple then (f c).filter fun c' => c.revision ≤ c'.revision
  else none

/-- `consensus::maybe_commit_configuration`, where the state transitions of a
    configuration are decided. -/
def maybeCommitConfiguration : Option GroupConfiguration :=
  if c.current.learners.isEmpty then
    match c.getState with
    | .simple => none
    | .transitional => some c.finishConfigurationTransition
    | .joint => c.maybeDemoteRemovedVoters <|> c.discardOldConfig
  else none

/-- `consensus::interrupt_configuration_change` and the same checks in
    `consensus::abort_configuration_change`. -/
def interruptConfigurationChange (rev : Int)
    (f : GroupConfiguration → Option GroupConfiguration) : Option GroupConfiguration :=
  if c.getState = .simple ∨ rev < c.revision then none else f c

/-- The configuration `consensus` replicates on a requested change. -/
def change : ConfigurationChange → Option GroupConfiguration
  | .replace nodes rev offset => c.changeConfiguration (·.replace nodes rev offset)
  | .add node rev offset => c.changeConfiguration fun c =>
      if c.contains node then none else c.add node rev offset
  | .remove node rev => c.changeConfiguration fun c =>
      if c.contains node then (c.remove node rev).filter (!·.current.voters.isEmpty) else none
  | .promoteToVoter node =>
      -- `maybe_promote_to_voter` checks that the node is a learner and up to date
      -- before it waits for the lock, so the check says nothing about `c`
      some (c.promoteToVoter node)
  | .maybeCommit => c.maybeCommitConfiguration
  | .cancel rev => c.interruptConfigurationChange rev fun c =>
      -- no cancellation after the old voters were demoted
      if c.old.any (!·.learners.isEmpty) then none else c.cancelConfigurationChange rev
  | .abort rev => c.interruptConfigurationChange rev (·.abortConfigurationChange rev)

/-- The configuration `c` is changed into `c'`. -/
def Step (op : ConfigurationChange) (c' : GroupConfiguration) : Prop :=
  c.change op = some c'
  deriving Decidable

/-! ## What a step does -/

/-- The changes by the state of the configuration they happen in, with the checks
    passed on the way. -/
inductive Transition (c : GroupConfiguration) :
    ConfigurationChange → GroupConfiguration → Prop
  | replace {nodes rev offset} (hold : c.old = none) (hupd : c.configurationUpdate = none) :
      Transition c (.replace nodes rev offset) (c.v6Replace nodes rev offset).updateAllReplicas
  | add {node rev offset} (hold : c.old = none) (hupd : c.configurationUpdate = none) :
      Transition c (.add node rev offset)
        (c.v6Replace (c.allReplicas ++ [node]) rev offset).updateAllReplicas
  | remove {node rev nodes} (hold : c.old = none) (hupd : c.configurationUpdate = none)
      (hvoters : (c.v6Replace nodes rev none).current.voters ≠ []) :
      Transition c (.remove node rev) (c.v6Replace nodes rev none).updateAllReplicas
  | promote {node} : Transition c (.promoteToVoter node) (c.promoteToVoter node)
  | finish {u} (hold : c.old = none) (hupd : c.configurationUpdate = some u)
      (hlearners : c.current.learners = []) :
      Transition c .maybeCommit c.v6FinishConfigurationTransition.updateAllReplicas
  | demote {old} (hold : c.old = some old) (hlearners : c.current.learners = [])
      (hremoved : old.voters.filter (!c.current.contains ·) ≠ []) :
      Transition c .maybeCommit { c with
        old := some ⟨old.voters.filter (c.current.contains ·),
          old.learners ++ old.voters.filter (!c.current.contains ·)⟩ }
  | discard {old} (hold : c.old = some old) (hlearners : c.current.learners = []) :
      Transition c .maybeCommit { c with old := none, configurationUpdate := none }.updateAllReplicas
  | cancelTransitional {rev u} (hold : c.old = none) (hupd : c.configurationUpdate = some u) :
      Transition c (.cancel rev)
        { c.v6CancelUpdateInTransitionalState u with revision := rev }.updateAllReplicas
  | cancelJoint {rev u old} (hold : c.old = some old) (hupd : c.configurationUpdate = some u)
      (hlearners : old.learners = []) :
      Transition c (.cancel rev)
        { c.v6CancelUpdateInJointState u old with revision := rev }.updateAllReplicas
  | abort {rev u} (hupd : c.configurationUpdate = some u) :
      Transition c (.abort rev) (c.v6AbortConfigurationChange u rev).updateAllReplicas

variable {c c' : GroupConfiguration}

theorem getState_eq_simple :
    c.getState = .simple ↔ c.old = none ∧ c.configurationUpdate = none := by
  unfold getState
  cases c.old <;> cases c.configurationUpdate <;> simp

theorem getState_eq_transitional :
    c.getState = .transitional ↔ c.old = none ∧ ∃ u, c.configurationUpdate = some u := by
  unfold getState
  cases c.old <;> cases c.configurationUpdate <;> simp

theorem getState_eq_joint : c.getState = .joint ↔ ∃ old, c.old = some old := by
  unfold getState
  cases c.old <;> cases c.configurationUpdate <;> simp

theorem replace_eq_some {nodes : List VNode} {rev : Int} {offset : Option Int}
    (h : c.replace nodes rev offset = some c') :
    c' = (c.v6Replace nodes rev offset).updateAllReplicas := by
  unfold replace at h
  split at h <;> simp_all

/-- What a commit does to each state. -/
theorem maybeCommitConfiguration_transition (h : c.maybeCommitConfiguration = some c') :
    c.Transition .maybeCommit c' := by
  unfold maybeCommitConfiguration at h
  split at h
  case isFalse => contradiction
  case isTrue hl =>
    have hl : c.current.learners = [] := by simpa using hl
    split at h
    · contradiction
    · case _ hs =>
      obtain ⟨hold, u, hupd⟩ := getState_eq_transitional.1 hs
      cases h
      exact .finish hold hupd hl
    · case _ hs =>
      obtain ⟨old, hold⟩ := getState_eq_joint.1 hs
      by_cases hr : old.voters.filter (!c.current.contains ·) = []
      · have : c.maybeDemoteRemovedVoters = none := by
          simp only [maybeDemoteRemovedVoters, hold, Option.bind_some, hr]
          rfl
        rw [this] at h
        simp only [discardOldConfig, hold, Option.isSome_some, if_true] at h
        cases h
        exact .discard hold hl
      · have hd : c.maybeDemoteRemovedVoters = some { c with
            old := some ⟨old.voters.filter (c.current.contains ·),
              old.learners ++ old.voters.filter (!c.current.contains ·)⟩ } := by
          simp only [maybeDemoteRemovedVoters, hold, Option.bind_some]
          rw [if_neg (by simpa using hr)]
        rw [hd] at h
        cases h
        exact .demote hold hl hr

/-- A change starts from a simple configuration. -/
theorem changeConfiguration_eq_some {f : GroupConfiguration → Option GroupConfiguration}
    (h : c.changeConfiguration f = some c') :
    c.old = none ∧ c.configurationUpdate = none ∧ f c = some c' := by
  rw [changeConfiguration, Option.ite_none_right_eq_some] at h
  obtain ⟨hold, hupd⟩ := getState_eq_simple.1 h.1
  exact ⟨hold, hupd, (Option.filter_eq_some_iff.1 h.2).1⟩

/-- Every step is one of the transitions. -/
theorem Step.transition {op : ConfigurationChange} (h : c.Step op c') : c.Transition op c' := by
  unfold Step change at h
  cases op with
  | replace nodes rev offset =>
    obtain ⟨hold, hupd, h⟩ := changeConfiguration_eq_some h
    obtain rfl := replace_eq_some h
    exact .replace hold hupd
  | add node rev offset =>
    obtain ⟨hold, hupd, h⟩ := changeConfiguration_eq_some h
    obtain ⟨-, h⟩ := Option.ite_none_left_eq_some.1 h
    unfold add at h
    obtain ⟨-, h⟩ := Option.ite_none_left_eq_some.1 h
    obtain rfl := replace_eq_some h
    exact .add hold hupd
  | remove node rev =>
    obtain ⟨hold, hupd, h⟩ := changeConfiguration_eq_some h
    obtain ⟨-, h⟩ := Option.ite_none_right_eq_some.1 h
    obtain ⟨h, hv⟩ := Option.filter_eq_some_iff.1 h
    unfold remove at h
    obtain ⟨-, h⟩ := Option.ite_none_right_eq_some.1 h
    obtain rfl := replace_eq_some h
    exact .remove hold hupd (by simpa [updateAllReplicas] using hv)
  | promoteToVoter node =>
    cases h
    exact .promote
  | maybeCommit => exact maybeCommitConfiguration_transition h
  | cancel rev =>
    obtain ⟨-, h⟩ := Option.ite_none_left_eq_some.1 h
    obtain ⟨hl, h⟩ := Option.ite_none_left_eq_some.1 h
    obtain ⟨u, hupd, rfl⟩ := Option.map_eq_some_iff.1 h
    cases hold : c.old with
    | none => exact .cancelTransitional hold hupd
    | some old => exact .cancelJoint hold hupd (by simpa [hold] using hl)
  | abort rev =>
    obtain ⟨-, h⟩ := Option.ite_none_left_eq_some.1 h
    obtain ⟨u, hupd, rfl⟩ := Option.map_eq_some_iff.1 h
    exact .abort hupd

/-! ## The replicas of a configuration -/

end GroupConfiguration

theorem mem_copyUnique {acc source : List VNode} {n : VNode} :
    n ∈ copyUnique acc source ↔ n ∈ acc ∨ n ∈ source := by
  unfold copyUnique
  induction source generalizing acc with
  | nil => simp
  | cons m source ih =>
    rw [foldl_cons, ih]
    by_cases hm : m ∈ acc
    · simp only [hm, if_true, mem_cons]
      constructor
      · tauto
      · rintro (h | rfl | h) <;> tauto
    · simp only [hm, if_false, mem_append, mem_cons]
      tauto

theorem nodup_copyUnique {acc source : List VNode} (h : acc.Nodup) :
    (copyUnique acc source).Nodup := by
  unfold copyUnique
  induction source generalizing acc with
  | nil => exact h
  | cons m source ih =>
    rw [foldl_cons]
    split
    case isTrue => exact ih h
    case isFalse hm => exact ih (nodup_append.2 ⟨h, by simp, by grind⟩)

namespace GroupConfiguration

theorem nodup_updateAllReplicas (c : GroupConfiguration) :
    c.updateAllReplicas.allReplicas.Nodup := by
  have hcurrent : (copyUnique (copyUnique [] c.current.voters) c.current.learners).Nodup :=
    nodup_copyUnique (nodup_copyUnique nodup_nil)
  unfold updateAllReplicas
  cases c.old with
  | none => exact hcurrent
  | some old => exact nodup_copyUnique (nodup_copyUnique hcurrent)

variable {c : GroupConfiguration}

/-- The replicas of a configuration with only one side are its voters and learners. -/
theorem mem_updateAllReplicas (h : c.old = none) {n : VNode} :
    n ∈ c.updateAllReplicas.allReplicas ↔ n ∈ c.current.voters ∨ n ∈ c.current.learners := by
  simp [updateAllReplicas, h, mem_copyUnique]

@[simp] theorem mem_uniqueVoterIds {n : VNode} :
    n ∈ c.uniqueVoterIds ↔ n ∈ c.current.voters ∨ ∃ old, c.old = some old ∧ n ∈ old.voters := by
  cases h : c.old <;> simp [uniqueVoterIds, h, mem_copyUnique]

@[simp] theorem mem_uniqueLearnerIds {n : VNode} :
    n ∈ c.uniqueLearnerIds ↔
      n ∈ c.current.learners ∨ ∃ old, c.old = some old ∧ n ∈ old.learners := by
  cases h : c.old <;> simp [uniqueLearnerIds, h, mem_copyUnique]

end GroupConfiguration

/-! ## The building blocks of the strategy -/

namespace ConfigurationUpdate

variable {u : ConfigurationUpdate} {n : VNode}

@[simp] theorem isToAdd_eq_true : u.isToAdd n = true ↔ n ∈ u.replicasToAdd := by
  simp [isToAdd]

@[simp] theorem isToAdd_eq_false : u.isToAdd n = false ↔ n ∉ u.replicasToAdd := by
  simp [isToAdd]

@[simp] theorem isToRemove_eq_false : u.isToRemove n = false ↔ n ∉ u.replicasToRemove := by
  simp [isToRemove]

end ConfigurationUpdate

@[simp] theorem GroupNodes.contains_iff {g : GroupNodes} {n : VNode} :
    g.contains n = true ↔ n ∈ g.voters ∨ n ∈ g.learners := by
  simp [GroupNodes.contains]

namespace GroupConfiguration

variable {c : GroupConfiguration} {u : ConfigurationUpdate}

/-- With a node to remove, the configuration becomes joint. -/
theorem finish_of_exists (hold : c.old = none) (hupd : c.configurationUpdate = some u)
    (h : ∃ n ∈ u.replicasToRemove, c.current.contains n) :
    c.v6FinishConfigurationTransition = { c with
      old := some c.current
      current := { c.current with voters := c.current.voters.filter (!u.isToRemove ·) } } := by
  unfold v6FinishConfigurationTransition
  simp only [hold, hupd]
  rw [if_pos (any_eq_true.2 h)]

/-- With nothing to remove, the change is done. -/
theorem finish_of_forall (hold : c.old = none) (hupd : c.configurationUpdate = some u)
    (h : ∀ n ∈ u.replicasToRemove, ¬ c.current.contains n) :
    c.v6FinishConfigurationTransition = { c with configurationUpdate := none } := by
  unfold v6FinishConfigurationTransition
  simp only [hold, hupd]
  rw [if_neg (by simpa using h)]

/-- Filling the learners adds exactly the nodes to add which are not there yet. -/
theorem fill_eq (c : GroupConfiguration) (u : ConfigurationUpdate) :
    ∃ added : List VNode,
      c.v6FillLearnersWithNodesToAdd u = { c with
        current := { c.current with learners := c.current.learners ++ added } } ∧
      ∀ n, n ∈ added ↔ n ∈ u.replicasToAdd ∧ ¬ c.current.contains n := by
  unfold v6FillLearnersWithNodesToAdd
  induction u.replicasToAdd generalizing c with
  | nil => exact ⟨[], by simp⟩
  | cons m l ih =>
    rw [foldl_cons]
    by_cases hm : c.current.contains m
    · obtain ⟨added, heq, hadded⟩ := ih c
      refine ⟨added, by rw [if_pos hm, heq], fun n => ?_⟩
      rw [hadded, mem_cons]
      constructor
      · exact fun h => ⟨.inr h.1, h.2⟩
      · rintro ⟨rfl | h, hn⟩
        · exact absurd hm hn
        · exact ⟨h, hn⟩
    · -- `m` is now a learner, and in the way of a second occurrence of itself
      obtain ⟨added, heq, hadded⟩ := ih { c with
        current := { c.current with learners := c.current.learners ++ [m] } }
      refine ⟨m :: added, by rw [if_neg hm, heq]; simp, fun n => ?_⟩
      rw [mem_cons, hadded, mem_cons]
      by_cases hn : n = m
      · subst hn
        simpa using hm
      · simp [hn]

/-- The update `replace` carries out. -/
def updateTo (c : GroupConfiguration) (nodes : List VNode) (offset : Option Int) :
    ConfigurationUpdate :=
  { ConfigurationUpdate.calculate c.current.voters nodes with learnerStartOffset := offset }

variable {nodes : List VNode} {offset : Option Int}

theorem mem_updateTo_add {n : VNode} :
    n ∈ (c.updateTo nodes offset).replicasToAdd ↔ n ∈ nodes ∧ n ∉ c.current.voters := by
  simp [updateTo, ConfigurationUpdate.calculate]

theorem mem_updateTo_remove {n : VNode} :
    n ∈ (c.updateTo nodes offset).replicasToRemove ↔ n ∈ c.current.voters ∧ n ∉ nodes := by
  simp [updateTo, ConfigurationUpdate.calculate]

/-- What `replace` does to a simple configuration: nothing but setting the
    revision if there is nothing to change, adding learners if there are replicas
    to add, and going straight to the joint configuration otherwise. -/
theorem v6Replace_cases {rev : Int} (hold : c.old = none) (hupd : c.configurationUpdate = none)
    (hu : c.updateTo nodes offset = u) :
    (((c.current.voters.length = nodes.length ∧ ∀ n ∈ nodes, n ∈ c.allReplicas) ∨
        (u.replicasToAdd = [] ∧ u.replicasToRemove = [])) ∧
      c.v6Replace nodes rev offset = { c with revision := rev }) ∨
    (u.replicasToAdd ≠ [] ∧
      c.v6Replace nodes rev offset = { c with
        revision := rev
        configurationUpdate := some u
        current := { c.current with
          learners := c.current.learners ++ nodes.filter u.isToAdd } }) ∨
    (u.replicasToAdd = [] ∧
      c.v6Replace nodes rev offset = { c with
        revision := rev
        configurationUpdate := some u
        old := some c.current
        current := { c.current with voters := c.current.voters.filter (!u.isToRemove ·) } }) := by
  by_cases heq : c.current.voters.length = nodes.length ∧ nodes.all c.contains
  · left
    refine ⟨.inl (by simpa [contains] using heq), ?_⟩
    simp only [v6Replace]
    exact if_pos heq
  have hrep : c.v6Replace nodes rev offset =
      let c' := { c with
        revision := rev
        configurationUpdate := some u
        current := { c.current with
          learners := c.current.learners ++ nodes.filter u.isToAdd } }
      if u.replicasToAdd.isEmpty then c'.v6FinishConfigurationTransition else c' :=
    hu ▸ if_neg heq
  by_cases hadd : u.replicasToAdd = []
  · -- no learner is added, and the transition is finished at once
    have hfilter : nodes.filter u.isToAdd = [] := by simp [hadd]
    rw [hfilter, append_nil, hadd] at hrep
    have hrep : c.v6Replace nodes rev offset =
        v6FinishConfigurationTransition { c with revision := rev, configurationUpdate := some u } :=
      hrep.trans (if_pos rfl)
    by_cases hrem : u.replicasToRemove = []
    · left
      refine ⟨.inr ⟨hadd, hrem⟩, ?_⟩
      rw [hrep.trans (finish_of_forall hold rfl fun n hn => by simp [hrem] at hn), ← hupd]
    · right; right
      refine ⟨hadd, ?_⟩
      obtain ⟨n, hn⟩ := exists_mem_of_ne_nil _ hrem
      exact hrep.trans (finish_of_exists hold rfl
        ⟨n, hn, GroupNodes.contains_iff.2 (.inl (mem_updateTo_remove.1 (hu ▸ hn)).1)⟩)
  · right; left
    exact ⟨hadd, hrep.trans (if_neg (by simpa using hadd))⟩

/-- Cancelling while transitional takes back the learners which were to be added
    and goes back either at once or through a joint configuration. -/
theorem cancelTransitional_cases (hold : c.old = none) :
    ∃ g : GroupNodes, g.voters = c.current.voters ∧
      (∀ n, n ∈ g.learners ↔ (n ∈ c.current.learners ∧ n ∉ u.replicasToAdd) ∨
        (n ∈ u.replicasToRemove ∧ n ∉ c.current.voters)) ∧
      (((∃ n ∈ u.replicasToAdd, g.contains n) ∧
          c.v6CancelUpdateInTransitionalState u = { c with
            configurationUpdate := some u.swap
            old := some g
            current := ⟨g.voters.filter (!u.swap.isToRemove ·), g.learners⟩ }) ∨
        ((∀ n ∈ u.replicasToAdd, ¬ g.contains n) ∧
          c.v6CancelUpdateInTransitionalState u = { c with
            configurationUpdate := none
            current := g })) := by
  let c₁ : GroupConfiguration := { c with
    configurationUpdate := some u.swap
    current := { c.current with learners := c.current.learners.filter (!u.swap.isToRemove ·) } }
  obtain ⟨added, hfill, hadded⟩ := fill_eq c₁ u.swap
  let g : GroupNodes := ⟨c.current.voters, c₁.current.learners ++ added⟩
  have hcancel : c.v6CancelUpdateInTransitionalState u =
      v6FinishConfigurationTransition { c₁ with current := g } :=
    congrArg v6FinishConfigurationTransition hfill
  refine ⟨g, rfl, fun n => ?_, ?_⟩
  · have hfilter : n ∈ c₁.current.learners ↔ n ∈ c.current.learners ∧ n ∉ u.replicasToAdd := by
      simp [c₁]
    rw [mem_append, hadded, GroupNodes.contains_iff, hfilter, u.swap_replicasToAdd]
    tauto
  · by_cases hrem : ∃ n ∈ u.replicasToAdd, g.contains n
    · exact .inl ⟨hrem, hcancel.trans (finish_of_exists hold rfl hrem)⟩
    · have hrem : ∀ n ∈ u.replicasToAdd, ¬ g.contains n := fun n hn hg => hrem ⟨n, hn, hg⟩
      exact .inr ⟨hrem, hcancel.trans (finish_of_forall hold rfl hrem)⟩

/-- Cancelling while joint goes back to the old configuration, which is then
    transitional with the removed replicas as learners. -/
theorem cancelJoint_eq (c : GroupConfiguration) (u : ConfigurationUpdate) (old : GroupNodes) :
    ∃ added : List VNode, (∀ n, n ∈ added ↔ n ∈ u.replicasToRemove ∧ ¬ old.contains n) ∧
      c.v6CancelUpdateInJointState u old = { c with
        configurationUpdate := some u.swap
        current := ⟨old.voters, old.learners ++ added⟩
        old := none } := by
  obtain ⟨added, hfill, hadded⟩ := fill_eq
    { c with configurationUpdate := some u.swap, current := old, old := none } u.swap
  exact ⟨added, hadded, hfill⟩

end GroupConfiguration

end Redpanda.Raft
