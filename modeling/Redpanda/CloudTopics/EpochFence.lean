import Redpanda.CloudTopics.CtpStmState
import Redpanda.Lib.Run

/-!
# The epoch fence

A leader lets the epoch of a batch into the log only under a *fence* (`ctp_stm::fence_epoch`). A
call takes a read lock if the epoch is in the window (`FencePhase.sharing`). If it is above the
window, the call takes the write lock, which waits for all fences to be released
(`FencePhase.updating`), and moves the window of the epochs that were seen. The fence is held
until the replication of the batch has finished.

The system `FencedPartition` is one partition with its replicas. Each of them has the log, the state
machine with the number of batches that it has applied, the calls and the fences. Leaders are
elected in new terms (`elect`), while those of earlier terms may still be there. A follower
takes the log from a leader (`follow`). The log is committed by the leader of the latest term
(`commit`), and the replicas apply what is committed, at any later time.

* The entries of the log are the placeholders and the commands with an epoch. Other batches
  are left out, and the offset of an entry is its position.
* A call waits for the state machine to catch up with the term (`sync`): the leader has then
  applied all entries from before its term.
* The read lock is granted at any time, also while a call waits for the write lock.
* A call that finds another one updating the epoch waits, and then checks again.
-/

namespace Redpanda.CloudTopics

open Lib

/-- A batch with an epoch. -/
structure EpochBatch where
  term : Int
  epoch : Int
  deriving DecidableEq

/-- What a call waits for. -/
inductive FencePhase where
  | checking
  | sharing
  | updating
  deriving DecidableEq

/-- A call of `fence_epoch`, with the term in which it started. -/
structure FenceCall where
  epoch : Int
  term : Int
  phase : FencePhase := .checking
  deriving DecidableEq

/-- A fence, under which a batch may be replicated in its term. -/
structure ClusterEpochFence where
  epoch : Int
  term : Int
  replicated : Bool := false
  deriving DecidableEq

/-- A replica of a partition. -/
structure FencedReplica where
  log : List EpochBatch := []
  /-- The term in which the replica is a leader, and the length of its log at the start. -/
  leader : Option Int := none
  termStart : Nat := 0
  applied : Nat := 0
  state : CtpStmState := {}
  checker : EpochWindowChecker := {}
  calls : List FenceCall := []
  fences : List ClusterEpochFence := []
  /-- The checker has failed. -/
  asserted : Bool := false
  deriving DecidableEq

/-- What happens at one replica. -/
inductive ReplicaAction where
  | call (epoch : Int)
  | check (i : Nat)
  | acquire (i : Nat)
  | replicate (i : Nat)
  | release (i : Nat)
  | apply
  | stepDown
  deriving DecidableEq

namespace FencedReplica

variable (r : FencedReplica) (i : Nat)

/-- The epochs in the log. -/
def epochs : List Int := r.log.map EpochBatch.epoch

/-- A call starts when the state machine is in sync with the term. -/
def call (epoch : Int) : Option FencedReplica :=
  r.leader.bind fun term =>
    if r.termStart ≤ r.applied ∧ ClusterEpoch.min ≤ epoch then
      some { r with calls := r.calls ++ [{ epoch, term }] }
    else none

variable (c : FenceCall)

/-- A call looks at the window. -/
def check : Option FencedReplica :=
  if c.phase ≠ .checking then none
  else if r.state.epochInWindow c.term c.epoch then
    some { r with calls := r.calls.set i { c with phase := .sharing } }
  else if r.state.epochAboveWindow c.term c.epoch then
    -- one call updates the epoch, and the others wait
    if r.calls.any (·.phase = .updating) then none
    else some { r with calls := r.calls.set i { c with phase := .updating } }
  else some { r with calls := r.calls.eraseIdx i }

/-- The call returns with a fence. -/
def grant : FencedReplica :=
  { r with calls := r.calls.eraseIdx i, fences := r.fences ++ [⟨c.epoch, c.term, false⟩] }

/-- A call has acquired the lock, and looks at the window again. -/
def acquire : Option FencedReplica :=
  match c.phase with
  | .checking => none
  | .sharing =>
    if r.state.epochInWindow c.term c.epoch then some (r.grant i c)
    else some { r with calls := r.calls.eraseIdx i }
  | .updating =>
    if r.fences ≠ [] then none
    else if r.state.epochInWindow c.term c.epoch || r.state.epochAboveWindow c.term c.epoch then
      some { r.grant i c with state := r.state.advanceMaxSeenEpoch c.term c.epoch }
    else some { r with calls := r.calls.eraseIdx i }

/-- A batch is appended to the log of the leader, in the term of the fence. -/
def replicate (f : ClusterEpochFence) : Option FencedReplica :=
  if f.replicated = false ∧ r.leader = some f.term then
    some { r with
      log := r.log ++ [⟨f.term, f.epoch⟩]
      fences := r.fences.set i { f with replicated := true } }
  else none

/-- The next entry is applied. -/
def apply (committed : List EpochBatch) : Option FencedReplica :=
  committed[r.applied]?.bind fun b =>
    if r.asserted = false ∧ r.log.take (r.applied + 1) = committed.take (r.applied + 1) then
      match r.checker.checkEpoch b.epoch r.applied with
      | none => some { r with asserted := true }
      | some checker =>
        some { r with
          checker, applied := r.applied + 1, state := r.state.advanceEpoch b.epoch r.applied }
    else none

/-- One action of a replica. -/
def act (committed : List EpochBatch) : ReplicaAction → Option FencedReplica
  | .call epoch => r.call epoch
  | .check i => r.calls[i]?.bind (r.check i)
  | .acquire i => r.calls[i]?.bind (r.acquire i)
  | .replicate i => r.fences[i]?.bind (r.replicate i)
  | .release i => if i < r.fences.length then some { r with fences := r.fences.eraseIdx i } else none
  | .apply => r.apply committed
  | .stepDown => some { r with leader := none }

end FencedReplica

/-- A partition with its replicas. -/
structure FencedPartition (ι : Type) where
  replicas : ι → FencedReplica
  /-- The latest term. -/
  term : Int
  committed : List EpochBatch

/-- What happens to a partition. -/
inductive PartitionAction (ι : Type) where
  | replica (r : ι) (a : ReplicaAction)
  | elect (r : ι) (term : Int)
  | follow (r leader : ι) (n : Nat)
  | commit (r : ι) (n : Nat)

namespace FencedPartition

variable {ι : Type} [DecidableEq ι]

/-- A new partition. -/
def create : FencedPartition ι := ⟨fun _ => {}, 0, []⟩

/-- One action. A leader has all committed entries, and a follower keeps those that it has
    applied. -/
def next (σ : FencedPartition ι) : PartitionAction ι → Option (FencedPartition ι)
  | .replica r a => ((σ.replicas r).act σ.committed a).map fun r' =>
    { σ with replicas := Function.update σ.replicas r r' }
  | .elect r term =>
    let replica := σ.replicas r
    if σ.term < term ∧ σ.committed <+: replica.log then
      some { σ with
        term
        replicas := Function.update σ.replicas r
          { replica with leader := some term, termStart := replica.log.length } }
    else none
  | .follow r leader n =>
    let replica := σ.replicas r
    let log := (σ.replicas leader).log.take n
    if replica.leader = none ∧ (σ.replicas leader).leader.isSome ∧ replica.applied ≤ n ∧
        replica.log.take replica.applied <+: log then
      some { σ with replicas := Function.update σ.replicas r { replica with log } }
    else none
  | .commit r n =>
    let replica := σ.replicas r
    if replica.leader = some σ.term ∧ σ.committed.length ≤ n ∧ n ≤ replica.log.length then
      some { σ with committed := replica.log.take n }
    else none

/-- The steps of a partition. -/
def Step (σ : FencedPartition ι) (a : PartitionAction ι) (σ' : FencedPartition ι) : Prop :=
  σ.next a = some σ'

end FencedPartition

end Redpanda.CloudTopics
