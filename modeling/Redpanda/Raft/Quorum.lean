import Redpanda.Raft.Configuration

/-!
# Quorums of consecutive configurations

Any two quorums of a configuration and of the one it is changed into meet: the
two configurations share a voter list, or one list is the other with a promoted
learner at its end (`Transition.meets`).

For this no shared list may be empty, since nothing is asked of an empty voter
list. That a change can be carried out and turned around without running out of
voters is the invariant `KeepsVoters`. It is kept by all changes as long as the
replicas requested by `replace` are not none (`ConfigurationChange.AsksForReplicas`).
-/

namespace Redpanda.Raft

open Lib List

namespace ConfigurationChange

/-- The change is an abort, which may lose data (as documented) and is not
    replicated but set on each replica. -/
def IsAbort : ConfigurationChange → Bool
  | .abort _ => true
  | _ => false

/-- The change is not a replacement by no replicas at all. -/
def AsksForReplicas : ConfigurationChange → Bool
  | .replace nodes _ _ => !nodes.isEmpty
  | _ => true

end ConfigurationChange

namespace GroupConfiguration

/-! ## Quorums sharing a list -/

section Majority

variable {S T : Finset VNode} {l : List VNode}

theorem isMajority_of_majorityOf {f : VNode → Bool} (hl : l ≠ []) (h : majorityOf f l) :
    IsMajority f l := by
  simpa [majorityOf, hl] using h

theorem majorityOf_inter (hl : l ≠ []) (hS : majorityOf (· ∈ S) l) (hT : majorityOf (· ∈ T) l) :
    (S ∩ T).Nonempty := by
  obtain ⟨n, -, hnS, hnT⟩ :=
    (isMajority_of_majorityOf hl hS).exists_mem (isMajority_of_majorityOf hl hT)
  exact ⟨n, Finset.mem_inter.2 ⟨by simpa using hnS, by simpa using hnT⟩⟩

theorem majorityOf_inter_append {n : VNode} (hl : l ≠ []) (hS : majorityOf (· ∈ S) l)
    (hT : majorityOf (· ∈ T) (l ++ [n])) : (S ∩ T).Nonempty := by
  obtain ⟨m, -, hmS, hmT⟩ := (isMajority_of_majorityOf hl hS).exists_mem_append_singleton
    (isMajority_of_majorityOf (by simp) hT)
  exact ⟨m, Finset.mem_inter.2 ⟨by simpa using hmS, by simpa using hmT⟩⟩

variable {c : GroupConfiguration}

theorem majorityOf_current {f : VNode → Bool} (h : c.majority f) :
    majorityOf f c.current.voters := by
  unfold majority at h
  split at h
  · exact h
  · exact (Bool.and_eq_true_iff.1 h).1

/-- Two majorities of a configuration with voters share a voter. -/
theorem exists_of_majority {f g : VNode → Bool} (hc : c.current.voters ≠ [])
    (hf : c.majority f) (hg : c.majority g) : ∃ n, f n ∧ g n := by
  obtain ⟨n, -, hn⟩ := (isMajority_of_majorityOf hc (majorityOf_current hf)).exists_mem
    (isMajority_of_majorityOf hc (majorityOf_current hg))
  exact ⟨n, hn⟩

theorem IsQuorum.current (h : c.IsQuorum S) : majorityOf (· ∈ S) c.current.voters :=
  majorityOf_current h

theorem IsQuorum.old {old : GroupNodes} (hold : c.old = some old) (h : c.IsQuorum S) :
    majorityOf (· ∈ S) old.voters := by
  unfold IsQuorum majority at h
  rw [hold] at h
  exact (Bool.and_eq_true_iff.1 h).2

end Majority

/-! ## The invariant -/

/-- While replicas are added, there is one which will not be removed and a voter
    which will not be on the way back. -/
structure TransitionalVoters (g : GroupNodes) (u : ConfigurationUpdate) : Prop where
  disjoint : ∀ n ∈ u.replicasToAdd, n ∉ u.replicasToRemove
  kept : ∃ n, g.contains n ∧ n ∉ u.replicasToRemove
  origin : ∃ n ∈ g.voters, n ∉ u.replicasToAdd

/-- While joint, there are voters, and as long as the change can be turned around
    also old voters which will not be removed on the way back and forth. -/
structure JointVoters (g old : GroupNodes) (u : ConfigurationUpdate) : Prop where
  disjoint : ∀ n ∈ u.replicasToAdd, n ∉ u.replicasToRemove
  voters : g.voters ≠ []
  kept : old.learners = [] → ∃ n ∈ old.voters, n ∉ u.replicasToRemove
  origin : old.learners = [] → ∃ n ∈ old.voters, n ∉ u.replicasToAdd

/-- The configuration does not run out of voters. -/
def KeepsVoters (c : GroupConfiguration) : Prop :=
  match c.old, c.configurationUpdate with
  | none, none => c.current.voters ≠ []
  | none, some u => TransitionalVoters c.current u
  | some old, some u => JointVoters c.current old u
  | some _, none => False

variable {c c' : GroupConfiguration} {op : ConfigurationChange} {u : ConfigurationUpdate}
  {old : GroupNodes}

section

variable (h : c.KeepsVoters)

include h

theorem KeepsVoters.simple (hold : c.old = none)
    (hupd : c.configurationUpdate = none) : c.current.voters ≠ [] := by
  simpa [KeepsVoters, hold, hupd] using h

theorem KeepsVoters.transitional (hold : c.old = none)
    (hupd : c.configurationUpdate = some u) : TransitionalVoters c.current u := by
  simpa [KeepsVoters, hold, hupd] using h

theorem KeepsVoters.joint (hold : c.old = some old) :
    ∃ u, c.configurationUpdate = some u ∧ JointVoters c.current old u := by
  unfold KeepsVoters at h
  cases hupd : c.configurationUpdate with
  | none => simp [hold, hupd] at h
  | some u => exact ⟨u, rfl, by simpa [hold, hupd] using h⟩

/-- There are always current voters. -/
theorem KeepsVoters.voters_ne_nil : c.current.voters ≠ [] := by
  cases hold : c.old with
  | some old =>
    obtain ⟨u, -, hj⟩ := h.joint hold
    exact hj.voters
  | none =>
    cases hupd : c.configurationUpdate with
    | none => exact h.simple hold hupd
    | some u =>
      obtain ⟨n, hn, -⟩ := (h.transitional hold hupd).origin
      exact ne_nil_of_mem hn

end

theorem filter_ne_nil {l : List VNode} {n : VNode} (hn : n ∈ l) (hu : n ∉ u.replicasToRemove) :
    l.filter (!u.isToRemove ·) ≠ [] :=
  ne_nil_of_mem (mem_filter.2 ⟨hn, by simpa using hu⟩)

/-! ## Every change keeps the invariant -/

section Replace

variable {nodes : List VNode} {rev : Int} {offset : Option Int}

/-- Replacing a simple configuration by no replicas leaves it without voters. -/
theorem v6Replace_nil_voters (hold : c.old = none) (hupd : c.configurationUpdate = none)
    (hv : c.current.voters ≠ []) : (c.v6Replace [] rev offset).current.voters = [] := by
  have hrem : (c.updateTo [] offset).replicasToRemove = c.current.voters := by
    simp [updateTo, ConfigurationUpdate.calculate]
  rcases @v6Replace_cases c _ [] offset rev hold hupd rfl with
    ⟨hsame, -⟩ | ⟨hadd, -⟩ | ⟨-, hjoint⟩
  · rcases hsame with ⟨hlen, -⟩ | ⟨-, hrem'⟩
    · exact absurd (eq_nil_of_length_eq_zero hlen) hv
    · exact absurd (hrem ▸ hrem') hv
  · exact absurd rfl hadd
  · rw [hjoint]
    simp [hrem]

theorem disjoint_updateTo (hu : c.updateTo nodes offset = u) :
    ∀ n ∈ u.replicasToAdd, n ∉ u.replicasToRemove := by
  rintro n hadd hrem
  rw [← hu] at hadd hrem
  exact (mem_updateTo_add.1 hadd).2 (mem_updateTo_remove.1 hrem).1

theorem KeepsVoters.v6Replace (h : c.KeepsVoters) (hold : c.old = none)
    (hupd : c.configurationUpdate = none) (hnodes : nodes ≠ []) :
    (c.v6Replace nodes rev offset).KeepsVoters := by
  have hv := h.simple hold hupd
  obtain ⟨n, hn⟩ := exists_mem_of_ne_nil _ hnodes
  generalize hu : c.updateTo nodes offset = u
  have hkept : n ∉ u.replicasToRemove := fun hrem => (mem_updateTo_remove.1 (hu ▸ hrem)).2 hn
  rcases @v6Replace_cases c u nodes offset rev hold hupd hu with
    ⟨-, heq⟩ | ⟨-, heq⟩ | ⟨hadd, heq⟩
  · rw [heq]
    simpa [KeepsVoters, hold, hupd] using hv
  · -- the requested replica is a voter already, or a learner now
    obtain ⟨v, hvoter⟩ := exists_mem_of_ne_nil _ hv
    have ht : TransitionalVoters
        ⟨c.current.voters, c.current.learners ++ nodes.filter u.isToAdd⟩ u := by
      refine ⟨disjoint_updateTo hu, ⟨n, ?_, hkept⟩,
        v, hvoter, fun hadd => (mem_updateTo_add.1 (hu ▸ hadd)).2 hvoter⟩
      by_cases hnv : n ∈ c.current.voters
      · simp [hnv]
      · have : n ∈ u.replicasToAdd := hu ▸ mem_updateTo_add.2 ⟨hn, hnv⟩
        simp [hn, this]
    simpa only [KeepsVoters, hold, heq] using ht
  · -- without replicas to add the requested replica is a voter
    have hvoter : n ∈ c.current.voters := by
      by_contra hnv
      exact ne_nil_of_mem (mem_updateTo_add.2 ⟨hn, hnv⟩) (hu ▸ hadd)
    have hj : JointVoters ⟨c.current.voters.filter (!u.isToRemove ·), c.current.learners⟩
        c.current u :=
      ⟨disjoint_updateTo hu, filter_ne_nil hvoter hkept, fun _ => ⟨n, hvoter, hkept⟩,
        fun _ => ⟨n, hvoter, by simp [hadd]⟩⟩
    simpa only [KeepsVoters, heq] using hj

end Replace

theorem KeepsVoters.promoteToVoter (h : c.KeepsVoters) (n : VNode) :
    (c.promoteToVoter n).KeepsVoters := by
  unfold GroupConfiguration.promoteToVoter
  split
  case isFalse => exact h
  case isTrue hn =>
    cases hold : c.old with
    | some old =>
      obtain ⟨u, hupd, hj⟩ := h.joint hold
      have : JointVoters ⟨c.current.voters ++ [n], c.current.learners.erase n⟩ old u :=
        { hj with voters := by simp }
      simpa [KeepsVoters, hold, hupd] using this
    | none =>
      cases hupd : c.configurationUpdate with
      | none => simp [KeepsVoters]
      | some u =>
        have ht := h.transitional hold hupd
        have : TransitionalVoters ⟨c.current.voters ++ [n], c.current.learners.erase n⟩ u := by
          obtain ⟨m, hm, hmr⟩ := ht.kept
          obtain ⟨v, hv, hva⟩ := ht.origin
          refine ⟨ht.disjoint, ⟨m, ?_, hmr⟩, v, mem_append_left _ hv, hva⟩
          by_cases hmn : m = n
          · simp [hmn]
          · simpa [hmn, mem_erase_of_ne hmn] using hm
        simpa [KeepsVoters, hold, hupd] using this

section

variable (h : c.KeepsVoters) (hupd : c.configurationUpdate = some u)

include h hupd

theorem KeepsVoters.finish (hold : c.old = none) (hl : c.current.learners = []) :
    c.v6FinishConfigurationTransition.KeepsVoters := by
  have ht := h.transitional hold hupd
  by_cases hrem : ∃ n ∈ u.replicasToRemove, c.current.contains n
  · obtain ⟨n, hn, hkept⟩ := ht.kept
    have hn : n ∈ c.current.voters := by simpa [hl] using hn
    have : JointVoters ⟨c.current.voters.filter (!u.isToRemove ·), c.current.learners⟩
        c.current u :=
      ⟨ht.disjoint, filter_ne_nil hn hkept, fun _ => ⟨n, hn, hkept⟩, fun _ => ht.origin⟩
    simpa only [KeepsVoters, finish_of_exists hold hupd hrem, hupd] using this
  · rw [finish_of_forall hold hupd fun n hn hc => hrem ⟨n, hn, hc⟩]
    simpa [KeepsVoters, hold] using h.voters_ne_nil

theorem KeepsVoters.cancelTransitional (hold : c.old = none) :
    (c.v6CancelUpdateInTransitionalState u).KeepsVoters := by
  have ht := h.transitional hold hupd
  obtain ⟨v, hv, horigin⟩ := ht.origin
  obtain ⟨g, hgv, -, ⟨⟨n, hn, hgn⟩, heq⟩ | ⟨-, heq⟩⟩ := @cancelTransitional_cases c u hold
  · rw [← hgv] at hv
    have hj : JointVoters ⟨g.voters.filter (!u.swap.isToRemove ·), g.learners⟩ g u.swap := by
      refine ⟨fun m hm hm' => ht.disjoint m hm' hm, filter_ne_nil hv horigin,
        fun _ => ⟨v, hv, horigin⟩, fun hl => ?_⟩
      -- without learners, some replica to be added is a voter by now
      exact ⟨n, by simpa [hl] using hgn, ht.disjoint n hn⟩
    simpa only [KeepsVoters, heq] using hj
  · rw [heq]
    simpa [KeepsVoters, hold, hgv] using h.voters_ne_nil

theorem KeepsVoters.cancelJoint (hold : c.old = some old) (hl : old.learners = []) :
    (c.v6CancelUpdateInJointState u old).KeepsVoters := by
  obtain ⟨u', hupd', hj⟩ := h.joint hold
  obtain rfl : u' = u := Option.some.inj (hupd'.symm.trans hupd)
  obtain ⟨added, -, heq⟩ := cancelJoint_eq c u' old
  obtain ⟨v, hv, horigin⟩ := hj.origin hl
  have ht : TransitionalVoters ⟨old.voters, old.learners ++ added⟩ u'.swap :=
    ⟨fun n hn hn' => hj.disjoint n hn' hn, ⟨v, by simp [hv], horigin⟩, hj.kept hl⟩
  simpa only [KeepsVoters, heq] using ht

end

/-- Every change but an abort keeps the invariant. -/
theorem Transition.keepsVoters (h : c.Transition op c') (habort : ¬ op.IsAbort)
    (hop : op.AsksForReplicas) (hc : c.KeepsVoters) : c'.KeepsVoters := by
  cases h with
  | replace hold hupd =>
    exact hc.v6Replace hold hupd (by simpa [ConfigurationChange.AsksForReplicas] using hop)
  | add hold hupd => exact hc.v6Replace hold hupd (by simp)
  | remove hold hupd hvoters =>
    refine hc.v6Replace hold hupd ?_
    rintro rfl
    exact hvoters (v6Replace_nil_voters hold hupd (hc.simple hold hupd))
  | promote => exact hc.promoteToVoter _
  | finish hold hupd hl => exact hc.finish hupd hold hl
  | @demote old hold hl hremoved =>
    -- the demoted voters are learners now: there is no way back
    obtain ⟨u, hupd, hj⟩ := hc.joint hold
    have hdemoted : old.learners ++ old.voters.filter (!c.current.contains ·) ≠ [] :=
      append_ne_nil_of_right_ne_nil _ hremoved
    have : JointVoters c.current ⟨old.voters.filter (c.current.contains ·),
        old.learners ++ old.voters.filter (!c.current.contains ·)⟩ u :=
      ⟨hj.disjoint, hj.voters, fun h => absurd h hdemoted, fun h => absurd h hdemoted⟩
    simpa only [KeepsVoters, hupd] using this
  | discard hold hl => simpa [KeepsVoters] using hc.voters_ne_nil
  | cancelTransitional hold hupd => exact hc.cancelTransitional hupd hold
  | cancelJoint hold hupd hl => exact hc.cancelJoint hupd hold hl
  | abort => exact absurd rfl habort

/-! ## Quorums of the configurations before and after a change meet -/

/-- Every quorum of a configuration meets every one of another. -/
def Meets (c c' : GroupConfiguration) : Prop :=
  ∀ {S T : Finset VNode}, c.IsQuorum S → c'.IsQuorum T → (S ∩ T).Nonempty

section

variable (hc : c.KeepsVoters)

include hc

/-- Two configurations with the same current voters. -/
theorem meets_of_voters_eq (h : c'.current.voters = c.current.voters) : c.Meets c' :=
  fun hS hT => majorityOf_inter hc.voters_ne_nil hS.current (h ▸ hT.current)

/-- The voters are still asked as the old voters. -/
theorem meets_of_old_eq (hold : c'.old = some old) (h : old.voters = c.current.voters) :
    c.Meets c' :=
  fun hS hT => majorityOf_inter hc.voters_ne_nil hS.current (h ▸ hT.old hold)

theorem meets_v6Replace {nodes : List VNode} {rev : Int} {offset : Option Int}
    (hold : c.old = none) (hupd : c.configurationUpdate = none) :
    c.Meets (c.v6Replace nodes rev offset) := by
  rcases @v6Replace_cases c _ nodes offset rev hold hupd rfl with ⟨-, heq⟩ | ⟨-, heq⟩ | ⟨-, heq⟩
  · exact meets_of_voters_eq hc (by rw [heq])
  · exact meets_of_voters_eq hc (by rw [heq])
  · exact meets_of_old_eq hc (by rw [heq]) rfl

theorem meets_promoteToVoter (n : VNode) : c.Meets (c.promoteToVoter n) := by
  by_cases hn : n ∈ c.current.learners
  · have hvoters : (c.promoteToVoter n).current.voters = c.current.voters ++ [n] := by
      simp [promoteToVoter, hn]
    exact fun hS hT =>
      majorityOf_inter_append hc.voters_ne_nil hS.current (hvoters ▸ hT.current)
  · exact meets_of_voters_eq hc (by simp [promoteToVoter, hn])

theorem meets_finish (hold : c.old = none) (hupd : c.configurationUpdate = some u) :
    c.Meets c.v6FinishConfigurationTransition := by
  by_cases hrem : ∃ n ∈ u.replicasToRemove, c.current.contains n
  · exact meets_of_old_eq hc (by rw [finish_of_exists hold hupd hrem]) rfl
  · have heq := finish_of_forall hold hupd fun n hn hc => hrem ⟨n, hn, hc⟩
    exact meets_of_voters_eq hc (by rw [heq])

theorem meets_cancelTransitional (hold : c.old = none) :
    c.Meets (c.v6CancelUpdateInTransitionalState u) := by
  obtain ⟨g, hgv, -, ⟨-, heq⟩ | ⟨-, heq⟩⟩ := @cancelTransitional_cases c u hold
  · exact meets_of_old_eq hc (by rw [heq]) hgv
  · exact meets_of_voters_eq hc (by rw [heq]; exact hgv)

/-- The old voters are the current ones after a cancellation. -/
theorem meets_cancelJoint (hold : c.old = some old) (hl : old.learners = []) :
    c.Meets (c.v6CancelUpdateInJointState u old) := by
  intro S T hS hT
  obtain ⟨u', -, hj⟩ := hc.joint hold
  obtain ⟨v, hv, -⟩ := hj.origin hl
  obtain ⟨added, -, heq⟩ := cancelJoint_eq c u old
  refine majorityOf_inter (ne_nil_of_mem hv) (hS.old hold) ?_
  have := hT.current
  rwa [heq] at this

/-- A quorum of a configuration and one of the configuration it is changed into
    meet. -/
theorem Transition.meets (h : c.Transition op c') (habort : ¬ op.IsAbort) : c.Meets c' := by
  cases h with
  | replace hold hupd | add hold hupd | remove hold hupd => exact meets_v6Replace hc hold hupd
  | promote => exact meets_promoteToVoter hc _
  | finish hold hupd => exact meets_finish hc hold hupd
  | demote | discard => exact meets_of_voters_eq hc (by rfl)
  | cancelTransitional hold => exact meets_cancelTransitional hc hold
  | cancelJoint hold _ hl => exact meets_cancelJoint hc hold hl
  | abort => exact absurd rfl habort

end

/-- The steps of `consensus` other than aborts. -/
def QuorumStep (c : GroupConfiguration) (op : ConfigurationChange) (c' : GroupConfiguration) :
    Prop :=
  ¬ op.IsAbort ∧ c.Step op c'

/-- **Consecutive configurations share a quorum**: whatever changes a simple
    configuration with voters went through, every quorum of the configuration
    before one more change meets every quorum of the configuration after it, as
    long as no configuration was replaced by one without replicas. -/
theorem quorum_inter_of_run {c₀ : GroupConfiguration} {ops : List ConfigurationChange}
    (hsimple : c₀.getState = .simple) (hvoters : c₀.current.voters ≠ [])
    (hrun : Run (fun c op c' => op.AsksForReplicas ∧ QuorumStep c op c') c₀ ops c)
    (hstep : QuorumStep c op c') {S T : Finset VNode}
    (hS : c.IsQuorum S) (hT : c'.IsQuorum T) : (S ∩ T).Nonempty := by
  obtain ⟨hold, hupd⟩ := getState_eq_simple.1 hsimple
  have h₀ : c₀.KeepsVoters := by simpa [KeepsVoters, hold, hupd] using hvoters
  have hc : c.KeepsVoters :=
    hrun.invariant (fun hc h => h.2.2.transition.keepsVoters h.2.1 h.1 hc) h₀
  exact Transition.meets hc hstep.2.transition hstep.1 hS hT

/-- Replacing replica 1 of three by replica 4: a quorum which includes the new
    replica, before the old one is removed, and a quorum after it. -/
theorem quorum_inter_replace_one :
    let n₁ : VNode := ⟨1, 0⟩
    let n₂ : VNode := ⟨2, 0⟩
    let n₃ : VNode := ⟨3, 0⟩
    let n₄ : VNode := ⟨4, 1⟩
    let c : GroupConfiguration :=
      ⟨⟨[n₁, n₂, n₃, n₄], []⟩, some ⟨[n₄], [n₁], none⟩, none, [n₁, n₂, n₃, n₄], 1⟩
    Run (fun c op c' => op.AsksForReplicas ∧ QuorumStep c op c') (ofNodes [n₁, n₂, n₃] [] 0)
        [.replace [n₂, n₃, n₄] 1 none, .promoteToVoter n₄] c ∧
      QuorumStep c .maybeCommit c.finishConfigurationTransition ∧
      (({n₁, n₂, n₄} : Finset VNode) ∩ {n₂, n₃, n₄}).Nonempty := by
  intro n₁ n₂ n₃ n₄ c
  refine ⟨?run, ?step, quorum_inter_of_run rfl (by decide) ?run ?step (by decide) (by decide)⟩
  case run =>
    exact .cons ⟨rfl, Bool.false_ne_true, rfl⟩ (.single ⟨rfl, Bool.false_ne_true, rfl⟩)
  case step => exact ⟨Bool.false_ne_true, rfl⟩

/-- Replacing the only replica by none is accepted, and once the removed voter is
    demoted nobody is asked any more: the empty set is a quorum. -/
theorem empty_isQuorum_of_replace_nil :
    let c₀ := ofNodes [⟨1, 0⟩] [] 0
    c₀.getState = .simple ∧ c₀.current.voters ≠ [] ∧
      ∃ c c', Run QuorumStep c₀ [.replace [] 1 none] c ∧ QuorumStep c .maybeCommit c' ∧
        c.IsQuorum {⟨1, 0⟩} ∧ c'.IsQuorum ∅ ∧
        ¬ (({⟨1, 0⟩} : Finset VNode) ∩ ∅).Nonempty := by
  refine ⟨rfl, by decide, _, _, .single ⟨Bool.false_ne_true, rfl⟩, ⟨Bool.false_ne_true, rfl⟩,
    by decide, by decide, by decide⟩

end GroupConfiguration

end Redpanda.Raft
