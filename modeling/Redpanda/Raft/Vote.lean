import Redpanda.Raft.Configuration

/-!
# Elections

The part of `consensus` deciding who is the leader: handling vote requests
(`do_vote`), requesting votes (`vote_stm`), raising the term, and starting from
what was persisted (`do_start`). Each of these holds the lock `_op_lock`, hence
is one step of a node.

A group of nodes is a map from nodes to their states, together with the vote
requests and replies sent so far: any of these may be delivered any number of
times, in any order, or never. What depends on time, priorities or failures is
part of the label of a step (`Action`), and so may be anything. Messages of other
kinds only matter here by raising the term or making a node step down.
-/

namespace Redpanda.Raft

open Lib

inductive VoteState
  | follower
  | candidate
  | leader
  deriving DecidableEq

/-- The end of a log, as compared in elections. -/
structure LogEnd where
  dirtyOffset : Int
  lastEntryTerm : Int
  deriving DecidableEq

structure VoteRequest where
  nodeId : VNode
  targetNodeId : VNode
  term : Int
  prevLogIndex : Int
  prevLogTerm : Int
  leadershipTransfer : Bool
  /-- Whether the request belongs to a prevote, which the receiver is not told. -/
  prevote : Bool
  deriving DecidableEq

structure VoteReply where
  targetNodeId : VNode
  term : Int
  granted : Bool
  logOk : Bool
  nodeId : VNode
  deriving DecidableEq

/-- How a put to the key-value store ends. A failed one may still be durable, and
    so may one during which the node crashes. -/
inductive PutResult
  | ok
  | failed (durable : Bool)
  deriving DecidableEq

/-- An election of a candidate (`vote_stm`), with the replies received so far. -/
structure Election where
  prevote : Bool
  request : VoteRequest
  replies : List (VNode × VoteReply)
  deriving DecidableEq

namespace Election

variable (e : Election)

/-- The state of the reply of a voter is `vote_granted`. -/
def voteGranted (id : VNode) : Bool :=
  e.replies.any fun p => p.1 = id ∧ p.2.term = e.request.term ∧ p.2.granted

/-- The state of the reply of a voter is `log_ok`. -/
def logOk (id : VNode) : Bool :=
  e.replies.any fun p => p.1 = id ∧ p.2.term = e.request.term ∧ ¬ p.2.granted ∧ p.2.logOk

/-- The replies make the election successful. For a prevote it is enough that the
    voters report an up to date log. -/
def majorityGranted (config : GroupConfiguration) : Bool :=
  config.majority fun id => e.voteGranted id || (e.prevote && e.logOk id)

end Election

/-- The state of a node in elections. The last two fields survive a crash. -/
structure Voter where
  term : Int
  votedFor : Option VNode
  vstate : VoteState
  election : Option Election
  /-- The record in the key-value store (`voted_for_configuration`). -/
  persisted : Option (VNode × Int)
  lastSnapshotTerm : Int
  deriving DecidableEq

namespace Voter

variable (n : Voter)

/-- Persisting the vote in the current term (`write_voted_for`). -/
def writeVotedFor (v : VNode) : PutResult → Voter
  | .ok => { n with persisted := some (v, n.term) }
  | .failed durable => if durable then { n with persisted := some (v, n.term) } else n

/-- The term is raised, and the vote of the node is free again. -/
def raiseTerm (term : Int) : Voter :=
  { n with term := term, votedFor := none, vstate := .follower }

/-- The end of `do_vote`: granting the vote if it is free and can be persisted, or if
    it was granted to the same node before. -/
def castVote (candidate : VNode) (put : PutResult) : Voter × Bool :=
  match n.votedFor with
  | some v => (n, candidate = v)
  | none =>
    let n := n.writeVotedFor candidate put
    match put with
    | .ok => ({ n with votedFor := some candidate }, true)
    | .failed _ => (n, false)

/-- What `do_vote` depends on besides the state of the node and the request. -/
structure VoteChecks where
  log : LogEnd
  /-- The heartbeats to the requesting node have failed. -/
  heartbeatsFailed : Bool
  /-- There was a heartbeat from the leader recently. -/
  heardFromLeader : Bool
  /-- The priority of the requesting node is below the target priority. -/
  lowPriority : Bool
  put : PutResult
  deriving DecidableEq

/-- `consensus::do_vote`. -/
def doVote (self : VNode) (n : Voter) (r : VoteRequest) (checks : VoteChecks) : Voter × VoteReply :=
  let reply : VoteReply := ⟨r.nodeId, n.term, false, false, self⟩
  if r.targetNodeId ≠ self then (n, reply)
  else if n.vstate = .leader ∧ r.term ≤ n.term ∧ checks.heartbeatsFailed then (n, reply)
  else if checks.heardFromLeader ∧ ¬ r.leadershipTransfer ∧ some r.nodeId ≠ n.votedFor then
    (n, reply)
  else
    let logOk : Bool := checks.log.lastEntryTerm < r.prevLogTerm ∨
      (r.prevLogTerm = checks.log.lastEntryTerm ∧ checks.log.dirtyOffset ≤ r.prevLogIndex)
    let reply := { reply with logOk }
    if r.term < n.term then (n, reply)
    else if checks.lowPriority ∧ ¬ r.leadershipTransfer then (n, reply)
    else
      let n := if n.term < r.term then n.raiseTerm r.term else n
      let reply := { reply with term := r.term }
      if ¬ logOk then (n, reply)
      else
        let (n, granted) := n.castVote r.nodeId checks.put
        (n, { reply with granted })

/-- `vote_stm::vote`, up to sending the requests: becoming a candidate and voting for
    oneself. A leader does not start elections; a prevote for a leadership transfer
    succeeds without any request; and no request is sent if the own vote could not
    be persisted. -/
def startVote (self : VNode) (n : Voter) (prevote leadershipTransfer : Bool) (log : LogEnd)
    (put : PutResult) : Option Voter :=
  if n.vstate = .leader then none
  else
    let n := { n with vstate := .candidate, election := none }
    if prevote ∧ leadershipTransfer then some n
    else
      let n := if prevote then n else { n with term := n.term + 1, votedFor := some self }
      let request : VoteRequest :=
        ⟨self, self, n.term, log.dirtyOffset, log.lastEntryTerm, leadershipTransfer, prevote⟩
      let reply : VoteReply := ⟨self, n.term, true, true, self⟩
      let voted := { n with election := some ⟨prevote, request, [(self, reply)]⟩ }
      if prevote then some voted
      else match put with
        | .ok => some (voted.writeVotedFor self put)
        | .failed _ => some (n.writeVotedFor self put)

/-- A reply is set in the election it is a reply of, at most once for each voter. -/
def setReply (id : VNode) (reply : VoteReply) : Voter :=
  { n with
    election := n.election.map fun e =>
      if e.replies.any (·.1 = id) then e else { e with replies := e.replies ++ [(id, reply)] } }

/-- `vote_stm::update_vote_state` at the end of an election, with the reply of a larger
    term found, whether the election was successful, and whether becoming the leader
    is blocked. It is `none` if there is no such election. -/
def updateVoteState (config : GroupConfiguration) (larger : Option VoteReply)
    (success blocked : Bool) : Option Voter :=
  n.election.bind fun e =>
    let n := { n with election := none }
    match larger with
    | some r =>
      if n.term < r.term ∧ e.replies.any (·.2 = r) then some (n.raiseTerm r.term) else none
    | none =>
      if e.replies.any (n.term < ·.2.term) then none
      else if n.vstate ≠ .candidate ∨ n.term ≠ e.request.term then some n
      else if ¬ success then some { n with vstate := .follower }
      else if ¬ e.majorityGranted config then none
      else if e.prevote then some n
      else if blocked then some { n with vstate := .follower }
      else some { n with vstate := .leader }

/-- `consensus::do_start` after a crash, with the last term of the log: the vote is
    reset only if the term comes from the log. -/
def restart (logTerm : Int) : Voter :=
  let (votedFor, term) := match n.persisted with
    | some (v, t) => (some v, t)
    | none => (none, 0)
  let term := if term < n.lastSnapshotTerm then n.lastSnapshotTerm else term
  let (votedFor, term) := if term < logTerm then (none, logTerm) else (votedFor, term)
  { n with term, votedFor, vstate := .follower, election := none }

end Voter

/-! ## A group of nodes -/

/-- A vote a node granted. -/
structure Grant where
  voter : VNode
  candidate : VNode
  term : Int
  prevote : Bool
  deriving DecidableEq

/-- The nodes and the messages between them, with the votes granted and the leaders
    elected so far. -/
structure Group where
  voters : VNode → Voter
  requests : List VoteRequest
  replies : List (VoteRequest × VoteReply)
  grants : List Grant
  leaders : List (VNode × Int)

/-- The group before anything happened: nothing is persisted. -/
def Group.init : Group where
  voters := fun _ => ⟨0, none, .follower, none, none, 0⟩
  requests := []
  replies := []
  grants := []
  leaders := []

/-- The steps of a group. -/
inductive Action
  /-- The node starts an election. -/
  | vote (self : VNode) (prevote leadershipTransfer : Bool) (log : LogEnd) (put : PutResult)
  /-- The node handles a vote request. -/
  | handleVote (self : VNode) (r : VoteRequest) (checks : Voter.VoteChecks)
  /-- The candidate receives a reply to a request of its current election. -/
  | receiveReply (self : VNode) (r : VoteRequest) (reply : VoteReply)
  /-- The candidate ends its election. -/
  | endVote (self : VNode) (larger : Option VoteReply) (success blocked : Bool)
  /-- The node learns of a higher term, from any request or reply. -/
  | raiseTerm (self : VNode) (term : Int)
  /-- The node steps down in its term. -/
  | stepDown (self : VNode)
  /-- A snapshot is taken or installed. It never replaces a later one, and terms do
      not decrease along the log. -/
  | snapshot (self : VNode) (term : Int)
  /-- The node crashes and starts again. -/
  | restart (self : VNode) (logTerm : Int)
  deriving DecidableEq

namespace Group

variable (config : GroupConfiguration) (s : Group) (self : VNode)

def setVoter (n : Voter) : Group :=
  { s with voters := Function.update s.voters self n }

variable (r : VoteRequest)

/-- The requests of an election, to all other voters of the configuration. -/
def requestsOf : List VoteRequest :=
  (config.uniqueVoterIds.filter (· ≠ r.nodeId)).map fun id => { r with targetNodeId := id }

/-- Starting an election, voting for oneself in a real one. -/
def vote (prevote leadershipTransfer : Bool) (log : LogEnd) (put : PutResult) : Option Group :=
  ((s.voters self).startVote self prevote leadershipTransfer log put).map fun n =>
    match n.election with
    | none => s.setVoter self n
    | some e => { s.setVoter self n with
        requests := s.requests ++ requestsOf config e.request
        grants := if prevote then s.grants else s.grants ++ [⟨self, self, n.term, false⟩] }

/-- Handling a vote request. -/
def handleVote (checks : Voter.VoteChecks) : Option Group :=
  if r ∈ s.requests then
    let (n, reply) := (s.voters self).doVote self r checks
    some { s.setVoter self n with
      replies := s.replies ++ [(r, reply)]
      grants :=
        if reply.granted then s.grants ++ [⟨self, r.nodeId, n.term, r.prevote⟩] else s.grants }
  else none

/-- Receiving a reply, which the rpc layer matches to its request. -/
def receiveReply (reply : VoteReply) : Option Group :=
  if (r, reply) ∈ s.replies ∧
      (s.voters self).election.any fun e => r = { e.request with targetNodeId := r.targetNodeId }
  then some (s.setVoter self ((s.voters self).setReply r.targetNodeId reply))
  else none

/-- Ending an election, possibly as the leader. -/
def endVote (larger : Option VoteReply) (success blocked : Bool) : Option Group :=
  ((s.voters self).updateVoteState config larger success blocked).map fun n =>
    { s.setVoter self n with
      leaders := if n.vstate = .leader ∧ (s.voters self).vstate ≠ .leader then
        s.leaders ++ [(self, n.term)] else s.leaders }

def step : Action → Option Group
  | .vote self prevote leadershipTransfer log put =>
    s.vote config self prevote leadershipTransfer log put
  | .handleVote self r checks => s.handleVote self r checks
  | .receiveReply self r reply => s.receiveReply self r reply
  | .endVote self larger success blocked => s.endVote config self larger success blocked
  | .raiseTerm self term =>
    if (s.voters self).term < term then some (s.setVoter self ((s.voters self).raiseTerm term))
    else none
  | .stepDown self => some (s.setVoter self { s.voters self with vstate := .follower })
  | .snapshot self term =>
    if (s.voters self).lastSnapshotTerm ≤ term then
      some (s.setVoter self { s.voters self with lastSnapshotTerm := term })
    else none
  | .restart self logTerm => some (s.setVoter self ((s.voters self).restart logTerm))

/-- The group takes a step. -/
def Step (a : Action) (s' : Group) : Prop :=
  s.step config a = some s'

end Group

end Redpanda.Raft
