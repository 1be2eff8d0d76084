import Redpanda.Lib.Pairwise
import Redpanda.Raft.Quorum
import Redpanda.Raft.Vote

/-!
# Election safety

A node grants at most one vote in each term, even when it crashes in between, and
so there is at most one leader in each term. Its majority survives crashes
(`majority_of_leader`).

The current term is only persisted together with a vote, and a node may restart
in a lower term than it had. What carries the argument over a crash is that every
vote granted is accounted for by what survives (`VoterInv.durable`): its term is
at most that of the persisted record or that of the snapshot, and if it is not
below the term of the record, then it was granted to the candidate recorded. The
latter also covers the votes granted after a restart which took the term from
the snapshot but kept the vote of an older term.
-/

namespace Redpanda.Raft

open Lib List

/-! ## One node -/

/-- The votes granted by a node, a relation between candidates and terms, are
    accounted for by its state. -/
structure VoterInv (node : VNode) (n : Voter) (granted : VNode → Int → Prop) : Prop where
  bound : ∀ {c T}, granted c T → T ≤ n.term
  persisted_le : ∀ {v t}, n.persisted = some (v, t) → t ≤ n.term
  durable : ∀ {c T}, granted c T → ∃ v t, n.persisted = some (v, t) ∧
    (T ≤ t ∨ T ≤ n.lastSnapshotTerm) ∧ (t ≤ T → c = v)
  current : ∀ {c}, granted c n.term → n.votedFor = some c
  /-- The vote for another node is persisted, or it is kept in the term of the
      snapshot. -/
  backed : ∀ {v}, n.votedFor = some v → v ≠ node →
    ∃ t, n.persisted = some (v, t) ∧ (n.term ≤ t ∨ n.term ≤ n.lastSnapshotTerm)

variable {node : VNode} {n : Voter} {granted : VNode → Int → Prop}

namespace VoterInv

variable {m : Voter}

section

variable (h : VoterInv node n granted)

include h

theorem raiseTerm {t : Int} (ht : n.term < t) : VoterInv node (n.raiseTerm t) granted where
  bound hg := (h.bound hg).trans ht.le
  persisted_le hp := (h.persisted_le hp).trans ht.le
  durable hg := h.durable hg
  current hg := absurd (h.bound hg) (not_le.2 ht)
  backed hv := nomatch hv

theorem snapshot {t : Int} (ht : n.lastSnapshotTerm ≤ t) :
    VoterInv node { n with lastSnapshotTerm := t } granted where
  bound hg := h.bound hg
  persisted_le hp := h.persisted_le hp
  durable hg := by
    obtain ⟨v, t', hp, hle, hc⟩ := h.durable hg
    exact ⟨v, t', hp, hle.imp_right fun hle => hle.trans ht, hc⟩
  current hg := h.current hg
  backed hv hne := by
    obtain ⟨t', hp, hle⟩ := h.backed hv hne
    exact ⟨t', hp, hle.imp_right fun hle => hle.trans ht⟩

/-- Persisting a vote while the vote in the current term is free. -/
theorem persist (hfree : ∀ c, ¬ granted c n.term) (v : VNode) :
    VoterInv node { n with persisted := some (v, n.term), votedFor := none } granted where
  bound hg := h.bound hg
  persisted_le hp := by
    cases hp
    exact le_rfl
  durable hg := ⟨v, n.term, rfl, .inl (h.bound hg), fun hle =>
    absurd (le_antisymm (h.bound hg) hle ▸ hg) (hfree _)⟩
  current hg := absurd hg (hfree _)
  backed hvoted := nomatch hvoted

end

/-- The votes granted with one more. -/
def Also (granted : VNode → Int → Prop) (v : VNode) (t : Int) (c : VNode) (T : Int) : Prop :=
  granted c T ∨ c = v ∧ T = t

variable (h : VoterInv node n granted)

include h

/-- Granting a vote with a put while the vote in the current term is free. -/
theorem grant (hfree : ∀ c, ¬ granted c n.term) (v : VNode) :
    VoterInv node { n with persisted := some (v, n.term), votedFor := some v }
      (Also granted v n.term) where
  bound hg := hg.elim h.bound fun heq => heq.2.le
  persisted_le hp := by
    cases hp
    exact le_rfl
  durable hg := by
    refine ⟨v, n.term, rfl, ?_⟩
    rcases hg with hg | ⟨rfl, rfl⟩
    · exact ⟨.inl (h.bound hg), fun hle =>
        absurd (le_antisymm (h.bound hg) hle ▸ hg) (hfree _)⟩
    · exact ⟨.inl le_rfl, fun _ => rfl⟩
  current hg := by
    rcases hg with hg | ⟨rfl, -⟩
    · exact absurd hg (hfree _)
    · rfl
  backed hvoted _ := by
    cases hvoted
    exact ⟨n.term, rfl, .inl le_rfl⟩

/-- Granting the vote again to the node already voted for. -/
theorem grantAgain {v : VNode} (hv : n.votedFor = some v) (hne : v ≠ node) :
    VoterInv node n (Also granted v n.term) where
  bound hg := hg.elim h.bound fun heq => heq.2.le
  __ := h
  durable hg := by
    rcases hg with hg | ⟨rfl, rfl⟩
    · exact h.durable hg
    · obtain ⟨t, hp, hle⟩ := h.backed hv hne
      exact ⟨_, t, hp, hle, fun _ => rfl⟩
  current hg := by
    rcases hg with hg | ⟨rfl, -⟩
    · exact h.current hg
    · exact hv

/-- No vote was granted in a term in which the vote is free. -/
theorem free (hv : n.votedFor = none) (c : VNode) : ¬ granted c n.term := by
  intro hg
  simpa [hv] using h.current hg

/-- The state after a crash still accounts for the votes granted before. -/
theorem restart (logTerm : Int) : VoterInv node (n.restart logTerm) granted := by
  cases hp : n.persisted with
  | none =>
    have hnone : ∀ {c T}, ¬ granted c T := fun hg => by
      obtain ⟨v, t, hp', -⟩ := h.durable hg
      simp [hp] at hp'
    refine ⟨fun hg => absurd hg hnone, fun hp' => ?_, fun hg => absurd hg hnone,
      fun hg => absurd hg hnone, fun hv => ?_⟩
    · simp [Voter.restart, hp] at hp'
    · simp only [Voter.restart, hp] at hv
      split_ifs at hv
  | some p =>
    obtain ⟨v, t⟩ := p
    have hdurable : ∀ {c T}, granted c T → (T ≤ t ∨ T ≤ n.lastSnapshotTerm) ∧ (t ≤ T → c = v) :=
      fun hg => by
        obtain ⟨v', t', hp', h⟩ := h.durable hg
        cases hp.symm.trans hp'
        exact h
    -- the term is the highest of the three, and the vote is reset if it is the log's
    have hrestart : n.restart logTerm = { n with
        term := max (max t n.lastSnapshotTerm) logTerm
        votedFor := if max t n.lastSnapshotTerm < logTerm then none else some v
        vstate := .follower
        election := none } := by
      simp only [Voter.restart, hp]
      split_ifs <;> simp_all <;> omega
    rw [hrestart]
    refine ⟨fun hg => ?_, fun hp' => ?_, fun hg => ⟨v, t, hp, hdurable hg⟩, fun hg => ?_,
      fun hv _ => ?_⟩
    · have := (hdurable hg).1
      simp only
      omega
    · cases hp.symm.trans hp'
      simp only
      omega
    · obtain ⟨hle, hc⟩ := hdurable hg
      simp only at hle hc ⊢
      rw [if_neg (by omega), hc (by omega)]
    · simp only at hv ⊢
      split_ifs at hv with hlog
      cases hv
      exact ⟨t, hp, by omega⟩

end VoterInv

/-- The votes granted with one more, if it was. -/
theorem VoterInv.mono {node : VNode} {n : Voter} {granted granted' : VNode → Int → Prop}
    (h : VoterInv node n granted) (hiff : ∀ c T, granted' c T ↔ granted c T) :
    VoterInv node n granted' := by
  have : granted' = granted := funext fun c => funext fun T => propext (hiff c T)
  exact this ▸ h

/-! ## Voting -/

variable {self : VNode} {n' : Voter}

namespace Voter

variable {r : VoteRequest} {reply : VoteReply} {checks : VoteChecks}

/-- Handling a vote request does nothing, or raises the term, or casts a vote in the
    term of the request, which may have been raised to it. -/
theorem doVote_cases (h : n.doVote self r checks = (n', reply)) :
    reply.granted = false ∧ n' = n ∨
    reply.granted = false ∧ n.term < r.term ∧ n' = n.raiseTerm r.term ∨
    r.targetNodeId = self ∧ ∃ m, (m = n ∨ n.term < r.term ∧ m = n.raiseTerm r.term) ∧
      m.term = r.term ∧ m.castVote r.nodeId checks.put = (n', reply.granted) := by
  unfold doVote at h
  simp only at h
  split_ifs at h with htarget hbeat hheard hterm hprio hlog hraise hraise
  all_goals cases h
  iterate 5 exact .inl ⟨rfl, rfl⟩
  · exact .inr (.inr ⟨not_not.1 htarget, _, .inr ⟨hraise, rfl⟩, rfl, rfl⟩)
  · exact .inr (.inr ⟨not_not.1 htarget, n, .inl rfl, by omega, rfl⟩)
  · exact .inr (.inl ⟨rfl, hraise, rfl⟩)
  · exact .inl ⟨rfl, rfl⟩

theorem castVote_election {c : VNode} {put : PutResult} {b : Bool}
    (h : n.castVote c put = (n', b)) : n'.election = n.election := by
  unfold castVote writeVotedFor at h
  split at h
  · cases h
    rfl
  · cases put with
    | ok =>
      cases h
      rfl
    | failed durable => cases durable <;> cases h <;> rfl

theorem doVote_election (h : n.doVote self r checks = (n', reply)) : n'.election = n.election := by
  rcases doVote_cases h with ⟨-, rfl⟩ | ⟨-, -, rfl⟩ | ⟨-, m, hm, -, hcast⟩
  · rfl
  · rfl
  · rw [castVote_election hcast]
    rcases hm with rfl | ⟨-, rfl⟩ <;> rfl

/-- How an election ends: in a higher term, or in the same term and, only if it was a
    real one and successful, as the leader. -/
theorem updateVoteState_cases {config : GroupConfiguration} {larger : Option VoteReply}
    {success blocked : Bool} (h : n.updateVoteState config larger success blocked = some n') :
    ∃ e, n.election = some e ∧ n'.election = none ∧
      ((∃ t, n.term < t ∧ n' = { n with election := none }.raiseTerm t) ∨
        ∃ vstate, n' = { n with election := none, vstate } ∧
          (vstate = .leader → n.vstate = .leader ∨
            n.term = e.request.term ∧ e.prevote = false ∧ e.majorityGranted config)) := by
  obtain ⟨e, he, h⟩ := Option.bind_eq_some_iff.1 h
  refine ⟨e, he, ?_⟩
  cases larger with
  | some r =>
    simp only at h
    split_ifs at h with hlarger
    cases h
    exact ⟨rfl, .inl ⟨r.term, hlarger.1, rfl⟩⟩
  | none =>
    simp only at h
    split_ifs at h with hlarger hstate hsuccess hmajority hprevote hblocked
    all_goals cases h
    · exact ⟨rfl, .inr ⟨n.vstate, rfl, .inl⟩⟩
    · exact ⟨rfl, .inr ⟨n.vstate, rfl, .inl⟩⟩
    · exact ⟨rfl, .inr ⟨.follower, rfl, nofun⟩⟩
    · rw [not_or, not_not, not_not] at hstate
      exact ⟨rfl, .inr ⟨.leader, rfl, fun _ =>
        .inr ⟨hstate.2, by simpa using hprevote, hmajority⟩⟩⟩
    · exact ⟨rfl, .inr ⟨.follower, rfl, nofun⟩⟩

end Voter

namespace VoterInv

variable {c : VNode} {b : Bool}

/-- The votes granted after casting one for `c` in the term `t`, granting it or not. -/
def After (granted : VNode → Int → Prop) (b : Bool) (c : VNode) (t : Int) (v : VNode) (T : Int) :
    Prop :=
  granted v T ∨ b = true ∧ v = c ∧ T = t

section

variable (h : VoterInv node n granted)

include h

theorem not_after {t : Int} : VoterInv node n (After granted false c t) :=
  h.mono fun v T => by simp [After]

/-- Casting a vote for another node is accounted for, and goes to a node which was
    already voted for in the term if there is one. -/
theorem castVote {put : PutResult} (hc : c ≠ node) (hcast : n.castVote c put = (n', b)) :
    n'.term = n.term ∧ VoterInv node n' (After granted b c n.term) ∧
      (b = true → ∀ v, granted v n.term → v = c) := by
  cases hv : n.votedFor with
  | some v =>
    simp only [Voter.castVote, hv, Prod.mk.injEq] at hcast
    obtain ⟨rfl, rfl⟩ := hcast
    refine ⟨rfl, ?_, fun hb w hw => ?_⟩
    · by_cases hcv : c = v
      · subst hcv
        exact (h.grantAgain hv hc).mono fun w T => by simp [After, Also]
      · exact h.mono fun w T => by simp [After, hcv]
    · have := h.current hw
      simp_all
  | none =>
    have hfree := h.free hv
    cases put with
    | ok =>
      simp only [Voter.castVote, hv, Voter.writeVotedFor, Prod.mk.injEq] at hcast
      obtain ⟨rfl, rfl⟩ := hcast
      exact ⟨rfl, (h.grant hfree c).mono fun w T => by simp [After, Also],
        fun _ w hw => absurd hw (hfree w)⟩
    | failed durable =>
      simp only [Voter.castVote, hv, Voter.writeVotedFor, Prod.mk.injEq] at hcast
      obtain ⟨rfl, rfl⟩ := hcast
      refine ⟨by split_ifs <;> rfl, ?_, nofun⟩
      split_ifs
      · exact (h.persist hfree c).not_after
      · exact h.not_after

/-- Handling a vote request of another node. -/
theorem doVote {r : VoteRequest} {reply : VoteReply} {checks : Voter.VoteChecks}
    (hr : r.nodeId ≠ r.targetNodeId)
    (hvote : n.doVote node r checks = (n', reply)) :
    VoterInv node n' (After granted reply.granted r.nodeId n'.term) ∧
      (reply.granted = true → n'.term = r.term ∧ r.targetNodeId = node ∧
        ∀ v, granted v n'.term → v = r.nodeId) := by
  rcases Voter.doVote_cases hvote with ⟨hno, rfl⟩ | ⟨hno, hterm, rfl⟩ |
    ⟨rfl, m, hm, hterm, hcast⟩
  · exact ⟨hno ▸ h.not_after, by simp [hno]⟩
  · exact ⟨hno ▸ (h.raiseTerm hterm).not_after, by simp [hno]⟩
  · have hm : VoterInv r.targetNodeId m granted := by
      rcases hm with rfl | ⟨hlt, rfl⟩
      · exact h
      · exact h.raiseTerm hlt
    obtain ⟨hterm', hinv, hv⟩ := hm.castVote hr hcast
    rw [hterm']
    exact ⟨hinv, fun hb => ⟨hterm, rfl, hv hb⟩⟩

/-- Starting an election: in a real one the own vote is granted, in a new term. -/
theorem startVote {prevote transfer : Bool} {log : LogEnd} {put : PutResult}
    (hstart : n.startVote node prevote transfer log put = some n') :
    n'.election = none ∧ VoterInv node n' granted ∨
    ∃ request reply, n'.election = some ⟨prevote, request, [(node, reply)]⟩ ∧
      request.nodeId = node ∧ request.prevote = prevote ∧ request.term = n'.term ∧
      VoterInv node n' (After granted (!prevote) node n'.term) ∧
      (prevote = false → ∀ v, ¬ granted v n'.term) := by
  unfold Voter.startVote at hstart
  simp only at hstart
  split_ifs at hstart with hleader htransfer hprevote
  · cases hstart
    exact .inl ⟨rfl, { h with }⟩
  · cases hstart
    refine .inr ⟨_, _, rfl, rfl, rfl, rfl, ?_, by simp [hprevote]⟩
    exact { h.mono fun v T => by simp [After, hprevote] with }
  · -- the new term is free
    have hraised := h.raiseTerm (Int.lt_succ n.term)
    have hfree : ∀ v, ¬ granted v (n.term + 1) := hraised.free rfl
    cases put with
    | ok =>
      cases hstart
      refine .inr ⟨_, _, rfl, rfl, rfl, rfl, ?_, fun _ => hfree⟩
      refine { (hraised.grant hfree node).mono fun v T => ?_ with }
      simp [After, Also, hprevote, Voter.writeVotedFor, Voter.raiseTerm]
    | failed durable =>
      cases hstart
      refine .inl ⟨by cases durable <;> rfl, ?_⟩
      -- the vote for oneself counts for nobody if it could not be persisted
      cases durable with
      | true =>
        have := hraised.persist hfree node
        exact ⟨this.bound, this.persisted_le, this.durable, fun hg => absurd hg (hfree _),
          fun hv hne => absurd (Option.some.inj hv).symm hne⟩
      | false =>
        exact ⟨hraised.bound, hraised.persisted_le, hraised.durable,
          fun hg => absurd hg (hfree _), fun hv hne => absurd (Option.some.inj hv).symm hne⟩

end

end VoterInv

/-! ## The group -/

namespace Group

variable {config : GroupConfiguration} {s s' : Group}

/-- The node granted its vote to the candidate in the term. -/
def Granted (s : Group) (node c : VNode) (T : Int) : Prop :=
  ∃ prevote, ⟨node, c, T, prevote⟩ ∈ s.grants

/-- The voters of the candidate in a real election. -/
def votes (s : Group) (c : VNode) (T : Int) (id : VNode) : Bool := ⟨id, c, T, false⟩ ∈ s.grants

/-- The votes granted are accounted for by the nodes, granted votes are what the
    replies say, and leaders were elected by a majority. -/
structure Inv (config : GroupConfiguration) (s : Group) : Prop where
  voters : ∀ node, VoterInv node (s.voters node) (s.Granted node)
  unique : ∀ {node c c' T}, s.Granted node c T → s.Granted node c' T → c = c'
  requests : ∀ r ∈ s.requests, r.nodeId ≠ r.targetNodeId
  replies : ∀ {r reply}, (r, reply) ∈ s.replies → reply.granted →
    ⟨r.targetNodeId, r.nodeId, r.term, r.prevote⟩ ∈ s.grants
  elections : ∀ {node e}, (s.voters node).election = some e →
    e.request.nodeId = node ∧ e.request.prevote = e.prevote ∧
      (e.prevote = false → ∀ {id reply}, (id, reply) ∈ e.replies → reply.granted →
        ⟨id, node, e.request.term, false⟩ ∈ s.grants)
  leaders : ∀ {c T}, (c, T) ∈ s.leaders → config.majority (s.votes c T)

theorem inv_init : Inv config init where
  voters node := by
    have hnone : ∀ {c T}, ¬ init.Granted node c T := by simp [Granted, init]
    exact ⟨fun hg => absurd hg hnone, fun hp => by simp [init] at hp, fun hg => absurd hg hnone,
      fun hg => absurd hg hnone, fun hv => by simp [init] at hv⟩
  unique hg := by simp [Granted, init] at hg
  requests _ h := nomatch h
  replies h := nomatch h
  elections h := nomatch h
  leaders h := nomatch h

theorem majority_mono {f g : VNode → Bool} (hfg : ∀ id, f id → g id) (h : config.majority f) :
    config.majority g := by
  have hmono : ∀ {l}, GroupConfiguration.majorityOf f l → GroupConfiguration.majorityOf g l := by
    intro l hl
    simp only [GroupConfiguration.majorityOf, Bool.or_eq_true, decide_eq_true_eq] at hl ⊢
    exact hl.imp_right fun hl => hl.trans (countP_mono_left fun id _ => hfg id)
  unfold GroupConfiguration.majority at h ⊢
  split at h
  · exact hmono h
  · rw [Bool.and_eq_true] at h ⊢
    exact h.imp hmono hmono

/-- The votes granted after a step in which a node may have granted one more. -/
theorem granted_iff {node id c v : VNode} {T t : Int} {b prevote : Bool}
    (hgrants : s'.grants = if b then s.grants ++ [⟨node, v, t, prevote⟩] else s.grants) :
    s'.Granted id c T ↔ s.Granted id c T ∨ b = true ∧ id = node ∧ c = v ∧ T = t := by
  cases b with
  | false => simp [Granted, hgrants]
  | true => simp [Granted, hgrants, exists_or]

/-- A step of one node: what has to be shown about its state, the vote it may grant and
    the messages it sends. -/
theorem Inv.update (h : Inv config s) {node v : VNode} {n : Voter} {b p : Bool}
    (hvoters : s'.voters = Function.update s.voters node n)
    (hgrants : s'.grants = if b then s.grants ++ [⟨node, v, n.term, p⟩] else s.grants)
    (hn : VoterInv node n (VoterInv.After (s.Granted node) b v n.term))
    (hcurrent : b = true → ∀ c, s.Granted node c n.term → c = v)
    (hrequests : ∀ r ∈ s'.requests, r ∈ s.requests ∨ r.nodeId ≠ r.targetNodeId)
    (hreplies : ∀ {r reply}, (r, reply) ∈ s'.replies → reply.granted →
      (r, reply) ∈ s.replies ∨ ⟨r.targetNodeId, r.nodeId, r.term, r.prevote⟩ ∈ s'.grants)
    (helection : ∀ {e}, n.election = some e → (s.voters node).election = some e ∨
      e.request.nodeId = node ∧ e.request.prevote = e.prevote ∧
        (e.prevote = false → ∀ {id reply}, (id, reply) ∈ e.replies → reply.granted →
          ⟨id, node, e.request.term, false⟩ ∈ s'.grants))
    (hleaders : ∀ {c T}, (c, T) ∈ s'.leaders →
      (c, T) ∈ s.leaders ∨ config.majority (s.votes c T)) : Inv config s' := by
  have hkept : ∀ g ∈ s.grants, g ∈ s'.grants := fun g hg => by
    rw [hgrants]
    split_ifs
    · exact mem_append_left _ hg
    · exact hg
  refine ⟨fun id => ?_, fun {id c c' T} hc hc' => ?_, fun r hr => ?_, fun hr hgr => ?_,
    fun {id e} he => ?_, fun {c T} hl => ?_⟩
  · rw [hvoters]
    by_cases hid : id = node
    · subst hid
      rw [Function.update_self]
      exact hn.mono fun c T => (granted_iff hgrants).trans (by simp [VoterInv.After])
    · rw [Function.update_of_ne hid]
      exact (h.voters id).mono fun c T => (granted_iff hgrants).trans (by simp [hid])
  -- two votes of one node in one term: only the new one needs an argument
  · rcases (granted_iff hgrants).1 hc with hc | ⟨hb, rfl, rfl, rfl⟩ <;>
      rcases (granted_iff hgrants).1 hc' with hc' | ⟨hb', hid, rfl, hT⟩
    · exact h.unique hc hc'
    · exact hcurrent hb' _ (hid ▸ hT ▸ hc)
    · exact (hcurrent hb _ hc').symm
    · rfl
  · exact (hrequests r hr).elim (h.requests r) fun hne => hne
  · exact (hreplies hr hgr).elim (fun hr => hkept _ (h.replies hr hgr)) fun hg => hg
  · rw [hvoters] at he
    -- a reply counted before is a vote cast before, and votes are never taken back
    have hkeep (hold : (s.voters id).election = some e) : e.request.nodeId = id ∧
        e.request.prevote = e.prevote ∧ (e.prevote = false → ∀ {i reply}, (i, reply) ∈ e.replies →
          reply.granted → ⟨i, id, e.request.term, false⟩ ∈ s'.grants) := by
      obtain ⟨hnode, hprevote, hreplies⟩ := h.elections hold
      exact ⟨hnode, hprevote, fun hreal _ _ hr hgr => hkept _ (hreplies hreal hr hgr)⟩
    by_cases hid : id = node
    · subst hid
      rw [Function.update_self] at he
      exact (helection he).elim hkeep fun hnew => hnew
    · rw [Function.update_of_ne hid] at he
      exact hkeep he
  · refine majority_mono (fun id hid => ?_) ((hleaders hl).elim h.leaders fun hm => hm)
    simp only [votes, decide_eq_true_eq] at hid ⊢
    exact hkept _ hid

/-- A node changes its state without granting votes or going on with an election. -/
theorem Inv.setVoter (h : Inv config s) {node : VNode} {n : Voter}
    (hn : VoterInv node n (s.Granted node))
    (he : n.election = none ∨ n.election = (s.voters node).election) :
    Inv config (s.setVoter node n) := by
  refine h.update (v := node) (b := false) (p := false) rfl rfl hn.not_after nofun
    (fun _ => .inl) (fun hr _ => .inl hr) (fun {e} hsome => ?_) .inl
  rcases he with he | he
  · simp [he] at hsome
  · exact .inl (he ▸ hsome)

section

variable (h : Inv config s)

include h

theorem Inv.vote {prevote transfer : Bool} {log : LogEnd}
    {put : PutResult} (hstep : s.vote config self prevote transfer log put = some s') :
    Inv config s' := by
  obtain ⟨n, hn, rfl⟩ := Option.map_eq_some_iff.1 hstep
  rcases (h.voters self).startVote hn with
    ⟨he, hinv⟩ | ⟨request, reply, he, hnode, hprevote, hterm, hinv, hfree⟩
  · simp only [he]
    exact h.setVoter hinv (.inl he)
  simp only [he]
  -- no vote was granted in the new term before
  refine h.update rfl (by cases prevote <;> rfl) hinv
    (fun hb c hc => absurd hc (hfree (by simpa using hb) c)) (fun r hr => ?_)
    (fun hr _ => .inl hr) (fun hsome => .inr ?_) .inl
  · rcases mem_append.1 hr with hr | hr
    · exact .inl hr
    · obtain ⟨id, hid, rfl⟩ := mem_map.1 hr
      have hne : id ≠ request.nodeId := by simpa using (mem_filter.1 hid).2
      exact .inr hne.symm
  · cases he.symm.trans hsome
    refine ⟨hnode, hprevote, fun hreal id reply' hr _ => ?_⟩
    cases hreal
    obtain ⟨rfl, -⟩ := Prod.mk.inj (mem_singleton.1 hr)
    rw [hterm]
    exact mem_concat_self

theorem Inv.handleVote {r : VoteRequest}
    {checks : Voter.VoteChecks} (hstep : s.handleVote self r checks = some s') :
    Inv config s' := by
  unfold Group.handleVote at hstep
  split_ifs at hstep with hr
  cases hvote : (s.voters self).doVote self r checks with
  | mk n reply =>
  simp only [hvote, Option.some.injEq] at hstep
  obtain ⟨hinv, hgrant⟩ := (h.voters self).doVote (h.requests r hr) hvote
  subst hstep
  refine h.update rfl rfl hinv (fun hb => (hgrant hb).2.2) (fun _ => .inl)
    (fun {r' reply'} hmem hgr => ?_)
    (fun hsome => .inl (Voter.doVote_election hvote ▸ hsome)) .inl
  rcases mem_concat.1 hmem with hmem | heq
  · exact .inl hmem
  · obtain ⟨rfl, rfl⟩ := Prod.mk.inj heq
    obtain ⟨hterm, htarget, -⟩ := hgrant hgr
    exact .inr (by simp [hgr, hterm, htarget])

theorem Inv.receiveReply {r : VoteRequest} {reply : VoteReply}
    (hstep : s.receiveReply self r reply = some s') : Inv config s' := by
  unfold Group.receiveReply at hstep
  split_ifs at hstep with hr
  cases hstep
  obtain ⟨hreply, hmatch⟩ := hr
  refine h.update (v := self) (b := false) (p := false) rfl rfl
    { (h.voters self).not_after with } nofun (fun _ => .inl) (fun hmem _ => .inl hmem)
    (fun {e'} hsome => .inr ?_) .inl
  obtain ⟨e, he, rfl⟩ := Option.map_eq_some_iff.1 hsome
  obtain ⟨hnode, hprevote, hreplies⟩ := h.elections he
  split_ifs
  · exact ⟨hnode, hprevote, hreplies⟩
  refine ⟨hnode, hprevote, fun hreal id reply' hmem hgr => ?_⟩
  rcases mem_concat.1 hmem with hmem | heq
  · exact hreplies hreal hmem hgr
  · -- the reply belongs to a request of this election
    obtain ⟨rfl, rfl⟩ := Prod.mk.inj heq
    have hgrant := h.replies hreply hgr
    rw [he, Option.any_some, decide_eq_true_eq] at hmatch
    have hreal : e.prevote = false := hreal
    rw [hmatch] at hgrant
    simp only [hnode, hprevote, hreal] at hgrant
    exact hgrant

/-- A successful real election has the votes of a majority. -/
theorem Inv.majority_votes {e : Election}
    (he : (s.voters self).election = some e) (hreal : e.prevote = false)
    (hmajority : e.majorityGranted config) : config.majority (s.votes self e.request.term) := by
  refine majority_mono (fun id hid => ?_) hmajority
  simp only [hreal, Bool.false_and, Bool.or_false, Election.voteGranted, any_eq_true,
    decide_eq_true_eq] at hid
  obtain ⟨⟨id', reply⟩, hmem, rfl, -, hgr⟩ := hid
  simpa [votes] using (h.elections he).2.2 hreal hmem hgr

theorem Inv.endVote {larger : Option VoteReply}
    {success blocked : Bool} (hstep : s.endVote config self larger success blocked = some s') :
    Inv config s' := by
  obtain ⟨n, hn, rfl⟩ := Option.map_eq_some_iff.1 hstep
  obtain ⟨e, he, hnone, hcases⟩ := Voter.updateVoteState_cases hn
  refine h.update (v := self) (b := false) (p := false) rfl rfl
    (VoterInv.not_after ?_) nofun (fun _ => .inl) (fun hmem _ => .inl hmem)
    (fun hsome => by simp [hnone] at hsome) (fun {c T} hmem => ?_)
  · rcases hcases with ⟨t, ht, rfl⟩ | ⟨vstate, rfl, -⟩
    · exact { (h.voters self).raiseTerm ht with }
    · exact { h.voters self with }
  · simp only at hmem
    split_ifs at hmem with hleader
    · rcases mem_concat.1 hmem with hmem | heq
      · exact .inl hmem
      · obtain ⟨rfl, rfl⟩ := Prod.mk.inj heq
        right
        rcases hcases with ⟨t, -, rfl⟩ | ⟨vstate, rfl, hvstate⟩
        · exact nomatch hleader.1
        · obtain ⟨hterm, hreal, hmajority⟩ := (hvstate hleader.1).resolve_left hleader.2
          rw [show (_ : Int) = e.request.term from hterm]
          exact h.majority_votes he hreal hmajority
    · exact .inl hmem

end

/-- Every step keeps the invariant. -/
theorem Step.inv {a : Action} (hstep : s.Step config a s') (h : Inv config s) : Inv config s' := by
  cases a with
  | vote self prevote transfer log put => exact h.vote hstep
  | handleVote self r checks => exact h.handleVote hstep
  | receiveReply self r reply => exact h.receiveReply hstep
  | endVote self larger success blocked => exact h.endVote hstep
  | raiseTerm self term =>
    obtain ⟨hterm, ⟨⟩⟩ := Option.ite_none_right_eq_some.1 hstep
    exact h.setVoter ((h.voters self).raiseTerm hterm) (.inr rfl)
  | stepDown self =>
    cases hstep
    exact h.setVoter { h.voters self with } (.inr rfl)
  | snapshot self term =>
    obtain ⟨hterm, ⟨⟩⟩ := Option.ite_none_right_eq_some.1 hstep
    exact h.setVoter ((h.voters self).snapshot hterm) (.inr rfl)
  | restart self logTerm =>
    cases hstep
    exact h.setVoter ((h.voters self).restart logTerm) (.inl rfl)

/-- **Election safety**: in any run of a group with one configuration, with messages
    lost, delayed, reordered and duplicated and nodes crashing, no node grants votes
    to different candidates in real elections of the same term, and no two nodes
    become the leader in the same term. -/
theorem election_safety {actions : List Action} (hconfig : config.current.voters ≠ [])
    (hrun : Run (Step config) init actions s) :
    (∀ g ∈ s.grants, ∀ g' ∈ s.grants, g.prevote = false → g'.prevote = false →
      g.voter = g'.voter → g.term = g'.term → g.candidate = g'.candidate) ∧
    ∀ n n' T, (n, T) ∈ s.leaders → (n', T) ∈ s.leaders → n = n' := by
  have h : Inv config s := hrun.invariant (fun h hstep => hstep.inv h) inv_init
  constructor
  · rintro ⟨voter, c, T, p⟩ hg ⟨_, c', _, p'⟩ hg' - - rfl rfl
    exact h.unique ⟨p, hg⟩ ⟨p', hg'⟩
  · -- the majorities which elected the two leaders share a voter
    intro n n' T hn hn'
    obtain ⟨id, hid, hid'⟩ :=
      GroupConfiguration.exists_of_majority hconfig (h.leaders hn) (h.leaders hn')
    simp only [votes, decide_eq_true_eq] at hid hid'
    exact h.unique ⟨false, hid⟩ ⟨false, hid'⟩

/-- Three voters, of which the first is elected with the vote of the second. -/
theorem election_safety_three_voters :
    let n₁ : VNode := ⟨1, 0⟩
    let n₂ : VNode := ⟨2, 0⟩
    let config := GroupConfiguration.ofNodes [n₁, n₂, ⟨3, 0⟩] [] 0
    let request : VoteRequest := ⟨n₁, n₂, 1, -1, 0, false, false⟩
    let actions : List Action :=
      [.vote n₁ false false ⟨-1, 0⟩ .ok, .handleVote n₂ request ⟨⟨-1, 0⟩, false, false, false, .ok⟩,
        .receiveReply n₁ request ⟨n₁, 1, true, true, n₂⟩,
        .endVote n₁ none true false]
    ∃ s, Run (Step config) init actions s ∧ (n₁, 1) ∈ s.leaders ∧
      ∀ n, (n, 1) ∈ s.leaders → n = n₁ := by
  intro n₁ n₂ config request actions
  have hexec : (actions.foldlM (step config) init).map leaders = some [(n₁, 1)] := by decide
  obtain ⟨s, hrun, hleaders⟩ := Run.exists_of_map_foldlM hexec
  have hleader : (n₁, 1) ∈ s.leaders := by simp [hleaders]
  exact ⟨s, hrun, hleader, fun n hn => (election_safety (by decide) hrun).2 n n₁ 1 hn hleader⟩

/-- The majority which elected a leader is not lost when nodes crash: its voters are in the term
    of the leader or in a later one, and those in the term have voted for the leader. -/
theorem majority_of_leader {actions : List Action} (hrun : Run (Step config) init actions s)
    {c : VNode} {T : Int} (hleader : (c, T) ∈ s.leaders) :
    config.majority fun id => T ≤ (s.voters id).term ∧
      ((s.voters id).term = T → (s.voters id).votedFor = some c) := by
  have h : Inv config s := hrun.invariant (fun h hstep => hstep.inv h) inv_init
  refine majority_mono (fun id hid => decide_eq_true ?_) (h.leaders hleader)
  have hgranted : s.Granted id c T := ⟨false, of_decide_eq_true hid⟩
  refine ⟨(h.voters id).bound hgranted, fun hterm => (h.voters id).current ?_⟩
  rwa [hterm]

/-- The first of three voters is elected with the vote of the second, which crashes. The third one
    starts an election of its own in the next term, to which the first one moves on. -/
theorem majority_of_leader_restart :
    let n₁ : VNode := ⟨1, 0⟩
    let n₂ : VNode := ⟨2, 0⟩
    let n₃ : VNode := ⟨3, 0⟩
    let config := GroupConfiguration.ofNodes [n₁, n₂, n₃] [] 0
    let request : VoteRequest := ⟨n₁, n₂, 1, -1, 0, false, false⟩
    let actions : List Action :=
      [.vote n₁ false false ⟨-1, 0⟩ .ok, .handleVote n₂ request ⟨⟨-1, 0⟩, false, false, false, .ok⟩,
        .receiveReply n₁ request ⟨n₁, 1, true, true, n₂⟩, .endVote n₁ none true false,
        .restart n₂ 0, .raiseTerm n₁ 2, .vote n₃ false false ⟨-1, 0⟩ .ok]
    ∃ s, Run (Step config) init actions s ∧ (n₁, 1) ∈ s.leaders ∧ (s.voters n₁).term = 2 ∧
      config.majority fun id => 1 ≤ (s.voters id).term ∧
        ((s.voters id).term = 1 → (s.voters id).votedFor = some n₁) := by
  intro n₁ n₂ n₃ config request actions
  have hexec : (actions.foldlM (step config) init).map
      (fun s => (s.leaders, (s.voters n₁).term)) = some ([(n₁, 1)], 2) := by decide
  obtain ⟨s, hrun, hs⟩ := Run.exists_of_map_foldlM hexec
  obtain ⟨hleaders, hterm⟩ := Prod.mk.inj hs
  have hleader : (n₁, 1) ∈ s.leaders := by simp [hleaders]
  exact ⟨s, hrun, hleader, hterm, majority_of_leader hrun hleader⟩

end Group

end Redpanda.Raft
