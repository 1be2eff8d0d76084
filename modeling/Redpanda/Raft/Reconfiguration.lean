import Redpanda.Raft.Configuration

/-!
# Where a reconfiguration ends

A configuration which is not simple is *heading* from some voters `X` to other
voters `Y` (`Heading`): its update leads from `X` to `Y`, and the voters and
learners on its sides are what is left of `X` and already there of `Y`. All
changes but cancellations and aborts keep the heading, and these turn it around
(`Transition.heading`), so that the voters of the configuration which ends the
reconfiguration are decided by how often it was turned around
(`voters_of_replace`).
-/

namespace Redpanda.Raft

open Lib List
open GroupNodes (contains_iff)

/-- The changes which turn a reconfiguration around. -/
def ConfigurationChange.IsInterrupt : ConfigurationChange → Bool
  | .cancel _ => true
  | .abort _ => true
  | _ => false

/-- The update leads from the voters `X` to the voters `Y`. -/
structure ConfigurationUpdate.Leads (u : ConfigurationUpdate) (X Y : List VNode) : Prop where
  mem_add : ∀ n, n ∈ u.replicasToAdd ↔ n ∈ Y ∧ n ∉ X
  mem_remove : ∀ n, n ∈ u.replicasToRemove ↔ n ∈ X ∧ n ∉ Y

namespace GroupConfiguration

variable {c c' : GroupConfiguration} {op : ConfigurationChange} {u : ConfigurationUpdate}
  {old : GroupNodes} {X Y : List VNode} {ops : List ConfigurationChange} {offset : Option Int}

theorem leads_swap (h : u.Leads X Y) : u.swap.Leads Y X :=
  ⟨h.mem_remove, h.mem_add⟩

/-- While replicas are added, the voters of `X` are there, and the others are
    voters or learners. -/
structure TransitionalHeading (X Y : List VNode) (g : GroupNodes) : Prop where
  contains : ∀ n, g.contains n ↔ n ∈ X ∨ n ∈ Y
  origin : ∀ n ∈ X, n ∈ g.voters
  learners : ∀ n ∈ g.learners, n ∉ X

/-- While joint, the voters are those of `Y`, and as long as the change can be
    turned around they all are old voters too. -/
structure JointHeading (X Y : List VNode) (g old : GroupNodes) : Prop where
  voters : ∀ n, n ∈ g.voters ↔ n ∈ Y
  learners : g.learners = []
  old_subset : ∀ n, old.contains n → n ∈ X ∨ n ∈ Y
  subset_old : old.learners = [] → ∀ n ∈ Y, n ∈ old.voters

/-- The configuration is heading from the voters `X` to the voters `Y`. -/
def Heading (X Y : List VNode) (c : GroupConfiguration) : Prop :=
  match c.old, c.configurationUpdate with
  | none, none => (∀ n, n ∈ c.current.voters ↔ n ∈ Y) ∧ c.current.learners = []
  | none, some u => u.Leads X Y ∧ TransitionalHeading X Y c.current
  | some old, some u => u.Leads X Y ∧ JointHeading X Y c.current old
  | some _, none => False

theorem Heading.simple (h : c.Heading X Y) (hold : c.old = none)
    (hupd : c.configurationUpdate = none) :
    (∀ n, n ∈ c.current.voters ↔ n ∈ Y) ∧ c.current.learners = [] := by
  simpa only [Heading, hold, hupd] using h

theorem Heading.transitional (h : c.Heading X Y) (hold : c.old = none)
    (hupd : c.configurationUpdate = some u) :
    u.Leads X Y ∧ TransitionalHeading X Y c.current := by
  simpa only [Heading, hold, hupd] using h

theorem Heading.joint (h : c.Heading X Y) (hold : c.old = some old) :
    ∃ u, c.configurationUpdate = some u ∧ u.Leads X Y ∧ JointHeading X Y c.current old := by
  unfold Heading at h
  cases hupd : c.configurationUpdate with
  | none => simp [hold, hupd] at h
  | some u => exact ⟨u, rfl, by simpa only [hold, hupd] using h⟩

theorem heading_of_simple (hold : c.old = none) (hupd : c.configurationUpdate = none)
    (hv : ∀ n, n ∈ c.current.voters ↔ n ∈ Y) (hl : c.current.learners = []) :
    c.Heading X Y := by
  simpa only [Heading, hold, hupd] using ⟨hv, hl⟩

theorem heading_of_transitional (hold : c.old = none) (hupd : c.configurationUpdate = some u)
    (hu : u.Leads X Y) (h : TransitionalHeading X Y c.current) : c.Heading X Y := by
  simpa only [Heading, hold, hupd] using ⟨hu, h⟩

theorem heading_of_joint (hold : c.old = some old) (hupd : c.configurationUpdate = some u)
    (hu : u.Leads X Y) (h : JointHeading X Y c.current old) : c.Heading X Y := by
  simpa only [Heading, hold, hupd] using ⟨hu, h⟩

/-! ## Changes keeping the heading -/

theorem Heading.promoteToVoter (h : c.Heading X Y) (hc : c.getState ≠ .simple) (n : VNode) :
    (c.promoteToVoter n).Heading X Y := by
  unfold GroupConfiguration.promoteToVoter
  split
  case isFalse => exact h
  case isTrue hn =>
    cases hold : c.old with
    | some old =>
      obtain ⟨u, -, -, hj⟩ := h.joint hold
      simp [hj.learners] at hn
    | none =>
      cases hupd : c.configurationUpdate with
      | none => exact absurd (getState_eq_simple.2 ⟨hold, hupd⟩) hc
      | some u =>
        obtain ⟨hu, ht⟩ := h.transitional hold hupd
        refine heading_of_transitional rfl rfl hu ⟨fun m => ?_, fun m hm => ?_, fun m hm => ?_⟩
        · rw [← ht.contains]
          by_cases hmn : m = n
          · simp [hmn, hn]
          · simp [hmn, mem_erase_of_ne hmn]
        · exact mem_append_left _ (ht.origin m hm)
        · exact ht.learners m (mem_of_mem_erase hm)

section

variable (h : c.Heading X Y) (hupd : c.configurationUpdate = some u)

include h hupd

theorem Heading.finish (hold : c.old = none) (hl : c.current.learners = []) :
    c.v6FinishConfigurationTransition.Heading X Y := by
  obtain ⟨hu, ht⟩ := h.transitional hold hupd
  have hmem : ∀ n, n ∈ c.current.voters ↔ n ∈ X ∨ n ∈ Y := fun n => by
    rw [← ht.contains, contains_iff]
    simp [hl]
  by_cases hrem : ∃ n ∈ u.replicasToRemove, c.current.contains n
  · rw [finish_of_exists hold hupd hrem]
    refine heading_of_joint rfl hupd hu ⟨fun n => ?_, hl, fun n => (ht.contains n).1,
      fun _ n hn => (hmem n).2 (.inr hn)⟩
    simp only [mem_filter, Bool.not_eq_true', ConfigurationUpdate.isToRemove_eq_false,
      hu.mem_remove, hmem]
    grind
  · -- all replicas of `X` are there, so none of them is to be removed
    have hXY : ∀ n ∈ X, n ∈ Y := fun n hn => by
      by_contra hnY
      exact hrem ⟨n, (hu.mem_remove n).2 ⟨hn, hnY⟩, (ht.contains n).2 (.inl hn)⟩
    rw [finish_of_forall hold hupd fun n hn hc => hrem ⟨n, hn, hc⟩]
    refine heading_of_simple hold rfl (fun n => ?_) hl
    rw [hmem]
    exact ⟨fun hn => hn.elim (hXY n) id, .inr⟩

/-! ## Changes turning around -/

theorem Heading.cancelTransitional (hold : c.old = none) :
    (c.v6CancelUpdateInTransitionalState u).Heading Y X := by
  obtain ⟨hu, ht⟩ := h.transitional hold hupd
  have hvoters : ∀ n ∈ c.current.voters, n ∈ X ∨ n ∈ Y := fun n hn =>
    (ht.contains n).1 (contains_iff.2 (.inl hn))
  obtain ⟨g, hgv, hgl, hcases⟩ := @cancelTransitional_cases c u hold
  -- all learners were to be added, and the replicas to remove are still voters
  have hl : g.learners = [] := by
    refine eq_nil_iff_forall_not_mem.2 fun n hn => ?_
    rcases (hgl n).1 hn with ⟨hnl, hna⟩ | ⟨hnr, hnv⟩
    · have hnX := ht.learners n hnl
      have hnY := ((ht.contains n).1 (contains_iff.2 (.inr hnl))).resolve_left hnX
      exact hna ((hu.mem_add n).2 ⟨hnY, hnX⟩)
    · exact hnv (ht.origin n ((hu.mem_remove n).1 hnr).1)
  rcases hcases with ⟨-, heq⟩ | ⟨hnone, heq⟩
  · rw [heq]
    refine heading_of_joint rfl rfl (leads_swap hu) ⟨fun n => ?_, hl, fun n hn => ?_,
      fun _ n hn => hgv ▸ ht.origin n hn⟩
    · have := hvoters n
      have := ht.origin n
      simp only [mem_filter, Bool.not_eq_true', ConfigurationUpdate.isToRemove_eq_false,
        ConfigurationUpdate.swap_replicasToRemove, hu.mem_add, hgv]
      grind
    · rw [contains_iff, hgv, hl] at hn
      exact (hvoters n (by simpa using hn)).symm
  · -- no replica was added yet
    rw [heq]
    refine heading_of_simple hold rfl (fun n => ⟨fun hn => ?_, fun hn => hgv ▸ ht.origin n hn⟩) hl
    by_contra hnX
    have hnY := (hvoters n (hgv ▸ hn)).resolve_left hnX
    exact hnone n ((hu.mem_add n).2 ⟨hnY, hnX⟩) (contains_iff.2 (.inl hn))

theorem Heading.cancelJoint (hold : c.old = some old) (hl : old.learners = []) :
    (c.v6CancelUpdateInJointState u old).Heading Y X := by
  obtain ⟨u', hupd', hu, hj⟩ := h.joint hold
  obtain rfl : u' = u := Option.some.inj (hupd'.symm.trans hupd)
  obtain ⟨added, hadded, heq⟩ := cancelJoint_eq c u' old
  rw [heq]
  refine heading_of_transitional rfl rfl (leads_swap hu) ⟨fun n => ?_, hj.subset_old hl,
    fun n hn => ?_⟩
  · have hsub := hj.old_subset n
    have hsup := hj.subset_old hl n
    simp only [contains_iff, mem_append, hl, hadded, hu.mem_remove] at hsub ⊢
    simp only [not_mem_nil, or_false, false_or] at hsub ⊢
    grind
  · have hn : n ∈ added := by simpa [hl] using hn
    exact ((hu.mem_remove n).1 ((hadded n).1 hn).1).2

theorem Heading.abort (rev : Int) : (c.v6AbortConfigurationChange u rev).Heading Y X := by
  have hmem : ∀ n, n ∈ (c.v6AbortConfigurationChange u rev).current.voters ↔
      ((n ∈ c.current.voters ∨ n ∈ c.current.learners ∨
        ∃ old, c.old = some old ∧ old.contains n) ∨ n ∈ u.replicasToRemove) ∧
      n ∉ u.replicasToAdd := fun n => by
    cases hold : c.old <;>
      simp [v6AbortConfigurationChange, mem_copyUnique, hold] <;> grind
  refine heading_of_simple rfl rfl (fun n => ?_) rfl
  rw [hmem]
  cases hold : c.old with
  | none =>
    obtain ⟨hu, ht⟩ := h.transitional hold hupd
    have := ht.contains n
    rw [contains_iff] at this
    simp only [hu.mem_add, hu.mem_remove, reduceCtorEq, false_and]
    grind
  | some old =>
    obtain ⟨u', hupd', hu, hj⟩ := h.joint hold
    obtain rfl : u' = u := Option.some.inj (hupd'.symm.trans hupd)
    have := hj.old_subset n
    have := hj.voters n
    simp only [hu.mem_add, hu.mem_remove, hj.learners, Option.some.injEq, exists_eq_left',
      not_mem_nil, false_or]
    grind

end

/-- A change of a configuration which is not simple keeps the heading, unless it
    turns it around. -/
theorem Transition.heading (h : c.Transition op c') (hc : c.getState ≠ .simple)
    (hh : c.Heading X Y) : if op.IsInterrupt then c'.Heading Y X else c'.Heading X Y := by
  cases h with
  | replace hold hupd | add hold hupd | remove hold hupd =>
    exact absurd (getState_eq_simple.2 ⟨hold, hupd⟩) hc
  | promote => exact hh.promoteToVoter hc _
  | finish hold hupd hl => exact hh.finish hupd hold hl
  | demote hold hl hremoved =>
    obtain ⟨u, hupd, hu, hj⟩ := hh.joint hold
    refine heading_of_joint rfl hupd hu ⟨hj.voters, hl, fun n hn => hj.old_subset n ?_, fun h =>
      absurd h (append_ne_nil_of_right_ne_nil _ hremoved)⟩
    simp only [contains_iff, mem_filter, mem_append] at hn ⊢
    grind
  | discard hold hl =>
    obtain ⟨u, hupd, hu, hj⟩ := hh.joint hold
    have : Heading X Y { c with old := none, configurationUpdate := none } :=
      heading_of_simple rfl rfl hj.voters hl
    exact this
  | cancelTransitional hold hupd => exact hh.cancelTransitional hupd hold
  | cancelJoint hold hupd hl => exact hh.cancelJoint hupd hold hl
  | @abort rev _ hupd => exact hh.abort hupd rev

/-! ## The replicas along a reconfiguration -/

/-- The list of all replicas has no repetitions, and outside of a joint
    configuration it lists the voters and learners. -/
structure ListsReplicas (c : GroupConfiguration) : Prop where
  nodup : c.allReplicas.Nodup
  mem : c.old = none → ∀ n, n ∈ c.allReplicas ↔ c.current.contains n

theorem listsReplicas_updateAllReplicas (c : GroupConfiguration) :
    c.updateAllReplicas.ListsReplicas :=
  ⟨nodup_updateAllReplicas c, fun hold _ =>
    (mem_updateAllReplicas hold).trans contains_iff.symm⟩

theorem Transition.listsReplicas (h : c.Transition op c') (hc : c.ListsReplicas) :
    c'.ListsReplicas := by
  cases h with
  | @promote n =>
    unfold promoteToVoter
    split
    case isFalse => exact hc
    case isTrue hn =>
      refine ⟨hc.nodup, fun hold m => ?_⟩
      rw [hc.mem hold]
      by_cases hmn : m = n
      · simp [hmn, hn]
      · simp [hmn, mem_erase_of_ne hmn]
  | demote => exact ⟨hc.nodup, nofun⟩
  | _ => exact listsReplicas_updateAllReplicas _

/-! ## Reconfigurations -/

/-- The changes of a reconfiguration which goes on, i.e., those of configurations
    which are not simple. -/
def ReconfigurationStep (c : GroupConfiguration) (op : ConfigurationChange)
    (c' : GroupConfiguration) : Prop :=
  c.getState ≠ .simple ∧ c.Step op c'

/-- The voters the reconfiguration from `A` to `B` ends in, after the changes. -/
def endpoint (A B : List VNode) (ops : List ConfigurationChange) : List VNode :=
  if Even (ops.countP (·.IsInterrupt)) then B else A

/-- Turning around once more exchanges the endpoints. -/
theorem endpoint_cons (A B : List VNode) (op : ConfigurationChange)
    (ops : List ConfigurationChange) :
    endpoint A B (op :: ops) =
      if op.IsInterrupt then endpoint B A ops else endpoint A B ops := by
  unfold endpoint
  by_cases h : op.IsInterrupt
  · by_cases heven : Even (ops.countP (·.IsInterrupt)) <;>
      simp [h, heven, Nat.even_add_one]
  · simp [h]

theorem heading_of_run (h : c.Heading X Y) (hrun : Run ReconfigurationStep c ops c') :
    c'.Heading (endpoint Y X ops) (endpoint X Y ops) := by
  induction hrun generalizing X Y with
  | nil => simpa [endpoint] using h
  | @cons c d _ op ops hstep _ ih =>
    have hd := hstep.2.transition.heading hstep.1 h
    rw [endpoint_cons, endpoint_cons]
    split at hd
    case isTrue hop => simpa [hop] using ih hd
    case isFalse hop => simpa [hop] using ih hd

/-- Right after `replace` the configuration is heading for what was asked. -/
theorem heading_of_replace {A B : List VNode} {rev₀ rev : Int} (hB : B.Nodup) :
    ((ofNodes A [] rev₀).v6Replace B rev offset).updateAllReplicas.Heading A B := by
  set c := ofNodes A [] rev₀ with hc
  have hu : (c.updateTo B offset).Leads A B :=
    ⟨fun n => mem_updateTo_add, fun n => mem_updateTo_remove⟩
  rcases @v6Replace_cases c _ B offset rev rfl rfl rfl with ⟨hsame, heq⟩ | ⟨-, heq⟩ | ⟨hadd, heq⟩
  · rw [heq]
    refine heading_of_simple rfl rfl (fun n => ?_) rfl
    rcases hsame with ⟨hlen, hsub⟩ | ⟨hadd, hrem⟩
    · -- as many different replicas as there are voters, all of them voters
      have hsub : B ⊆ A := fun n hn => by
        simpa [hc, ofNodes, updateAllReplicas, mem_copyUnique] using hsub n hn
      have hperm : Perm B A :=
        (subperm_of_subset hB hsub).perm_of_length_le (le_of_eq hlen)
      exact hperm.mem_iff.symm
    · have hn := hu.mem_add n
      have hn' := hu.mem_remove n
      simp only [hadd, hrem, not_mem_nil, false_iff] at hn hn'
      change n ∈ A ↔ n ∈ B
      grind
  · rw [heq]
    refine heading_of_transitional rfl rfl hu ⟨fun n => ?_, fun _ => id, fun n hn => ?_⟩
    · simp only [updateAllReplicas_current, contains_iff, mem_append,
        mem_filter, ConfigurationUpdate.isToAdd_eq_true, hu.mem_add]
      change n ∈ A ∨ n ∈ [] ∨ _ ↔ _
      simp only [not_mem_nil, false_or]
      grind
    · have hn : n ∈ B.filter (c.updateTo B offset).isToAdd := hn
      exact ((hu.mem_add n).1 (by simpa using (mem_filter.1 hn).2)).2
  · have hsub : ∀ n ∈ B, n ∈ A := fun n hn => by
      by_contra hnA
      exact ne_nil_of_mem ((hu.mem_add n).2 ⟨hn, hnA⟩) hadd
    rw [heq]
    refine heading_of_joint rfl rfl hu ⟨fun n => ?_, rfl, fun n hn => ?_, fun _ => hsub⟩
    · have := hsub n
      simp only [updateAllReplicas_current, mem_filter, Bool.not_eq_true',
        ConfigurationUpdate.isToRemove_eq_false, hu.mem_remove]
      change n ∈ A ∧ _ ↔ _
      grind
    · have hn : n ∈ A ∨ n ∈ [] := contains_iff.1 hn
      exact .inl (by simpa using hn)

/-- **A reconfiguration ends in what was asked for**: replacing a configuration
    with voters `A` by the replicas `B`, the first time the configuration is simple
    again its voters are those of `B` or, after an odd number of cancellations and
    aborts, those of `A`; there are no learners, and all replicas are voters. -/
theorem voters_of_replace {A B : List VNode} {rev₀ rev : Int}
    {c₁ c : GroupConfiguration} (hB : B.Nodup)
    (hreplace : (ofNodes A [] rev₀).Step (.replace B rev offset) c₁)
    (hrun : Run ReconfigurationStep c₁ ops c) (hc : c.getState = .simple) :
    (∀ n, n ∈ c.current.voters ↔
      n ∈ if Even (ops.countP (·.IsInterrupt)) then B else A) ∧
    c.current.learners = [] ∧
    c.allReplicas.Nodup ∧ ∀ n, n ∈ c.allReplicas ↔ n ∈ c.current.voters := by
  obtain ⟨hold, hupd⟩ := getState_eq_simple.1 hc
  have h₁ : c₁.Heading A B ∧ c₁.ListsReplicas := by
    cases hreplace.transition
    exact ⟨heading_of_replace hB, listsReplicas_updateAllReplicas _⟩
  obtain ⟨hvoters, hlearners⟩ := (heading_of_run h₁.1 hrun).simple hold hupd
  have hlists : c.ListsReplicas :=
    hrun.invariant (fun hc hstep => hstep.2.transition.listsReplicas hc) h₁.2
  refine ⟨hvoters, hlearners, hlists.nodup, fun n => ?_⟩
  rw [hlists.mem hold, contains_iff]
  simp [hlearners]

/-- Replacing two of three replicas by a new one, cancelled when the new one is a
    voter and the configuration joint, ends in the three replicas. -/
theorem voters_of_replace_cancel :
    let n₁ : VNode := ⟨1, 0⟩
    let n₂ : VNode := ⟨2, 0⟩
    let n₃ : VNode := ⟨3, 0⟩
    let n₄ : VNode := ⟨4, 1⟩
    let c₁ : GroupConfiguration :=
      ⟨⟨[n₁, n₂, n₃], [n₄]⟩, some ⟨[n₄], [n₁, n₂], none⟩, none, [n₁, n₂, n₃, n₄], 1⟩
    let c : GroupConfiguration := ⟨⟨[n₁, n₂, n₃], []⟩, none, none, [n₁, n₂, n₃], 2⟩
    (ofNodes [n₁, n₂, n₃] [] 0).Step (.replace [n₃, n₄] 1 none) c₁ ∧
      Run ReconfigurationStep c₁ [.promoteToVoter n₄, .maybeCommit, .cancel 2, .maybeCommit,
        .maybeCommit, .maybeCommit] c ∧
      ∀ n, n ∈ c.current.voters ↔ n ∈ [n₁, n₂, n₃] := by
  intro n₁ n₂ n₃ n₄ c₁ c
  refine ⟨?replace, ?run, (voters_of_replace (by decide) ?replace ?run rfl).1⟩
  case replace => decide
  case run =>
    exact .cons ⟨by decide, rfl⟩ (.cons ⟨by decide, rfl⟩ (.cons ⟨by decide, rfl⟩
      (.cons ⟨by decide, rfl⟩ (.cons ⟨by decide, rfl⟩ (.single ⟨by decide, rfl⟩)))))

end GroupConfiguration

end Redpanda.Raft
