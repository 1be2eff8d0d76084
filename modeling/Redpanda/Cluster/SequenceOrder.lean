import Redpanda.Cluster.InflightRequests

/-!
# Idempotent batches are written once and in order

The batches of a producer in the committed log follow each other: the first sequence number of
each is the one after the last of the batch before (`Partition.follows_of_run`). This holds for
every run in which the producer stays known, whatever clients send, however replications end
and whoever leads, if two conditions are met when a batch is accepted (`Replica.Orderly`).

* The oldest request in flight is not dropped after it has failed. When more than five requests
  are in flight the oldest ones are dropped if they are completed, and the finished requests
  are forgotten with them. If the oldest one has failed, maybe none of them is written: a leader
  that has lost its term, but still has a batch waiting for the lock, forgets so what the last
  batch was. When it leads again, it expects the sequence number 0, and a batch that is sent
  again is written twice (`exists_run_not_follows`).
* No other batch with the same sequence numbers is in the log of the leader without being applied
  or in flight. The numbers wrap around, so this excludes that all of them are used up by
  batches that are not applied yet.
-/

namespace Redpanda.Cluster

open Lib List
open ReplicatedLog (exists_of_map_mk leader_of_stepDown stepDown_entries)

variable {ν : Type} {pid : ProducerIdentity}

/-- A batch that a client sends is of the producer. -/
def NodeAction.IsOf (pid : ProducerIdentity) : NodeAction → Prop
  | .receive h => h.bid.pid = pid
  | _ => True

namespace Replica

variable {L L' : ReplicatedLog ν (Entry ν)} {n : ν} {x x' : Replica}

/-! ## Steps of a replica -/

/-- The steps of a replica which meet the condition: the producer is known, the oldest request
    is not dropped after it has failed, and a batch has not the sequence numbers of another
    one that is in the log of the leader, but neither applied nor in flight any more. -/
def Orderly (x : Replica) (L : ReplicatedLog ν (Entry ν)) (n : ν) : NodeAction → Prop
  | .emplace => ∀ w ∈ x.waiting.head?,
    KeepsFailed (x.requests.gcRequestsFromOlderTerms w.expectedTerm) ∧
    (L.Leads n w.expectedTerm →
      Distinguishes L x (x.requests.gcRequestsFromOlderTerms w.expectedTerm) w)
  | _ => True

/-- The sequence numbers of the batch are checked. -/
def StaysKnown (x : Replica) : NodeAction → Prop
  | .emplace => ∀ w ∈ x.waiting.head?, Waiting.skipSequenceChecks w = false
  | _ => True

/-- The first waiting batch gets a request, or is answered at once. -/
theorem Inv.emplace (h : x.Inv pid L n) (hent : EntriesInv pid L)
    (hord : x.Orderly L n .emplace) (hknown : x.StaysKnown .emplace)
    (hx' : x.emplace = some x') : x'.Inv pid L n := by
  obtain ⟨w, ws, p, hhold, hwait, hp, hcases⟩ := emplace_cases h.own hknown hx'
  obtain ⟨hkeep, hdist⟩ := hord w (by simp [hwait])
  rcases hcases with ⟨r, as, hr, rfl⟩ | ⟨r, hr, hnew, hvalid, rfl⟩
  · exact h.emplace_old hwait hp hr
  · rw [← requests_eq hp] at hr
    rw [← hr] at hkeep hdist
    exact ⟨h.own.accepted hwait hp hr, h.logged.accepted h.own hwait hr hkeep, fun hl =>
      (h.leading hl).accepted h.own h.logged hent hhold hwait hr hnew hvalid fun ht =>
        hdist ⟨hl, ht⟩⟩

variable [DecidableEq ν]

section

variable (h : x.Inv pid L n)

include h

/-- Requests of older terms are forgotten. -/
theorem Inv.sync (hx' : x.sync L n = some x') : x'.Inv pid L n := by
  rw [Replica.sync] at hx'
  obtain ⟨⟨hl, hstart⟩, hx'⟩ := Option.ite_none_right_eq_some.1 hx'
  split at hx'
  · exact Option.some.inj hx' ▸ h
  · rename_i hne
    cases hx'
    have hlt : x.insyncTerm < L.term := lt_of_le_of_ne h.logged.insync_le hne
    let f : Requests → Requests := (·.gcRequestsFromOlderTerms L.term)
    have hs : x.requests.Shrinks (x.modifyRequests f).requests :=
      shrinks_modifyRequests fun r => r.shrinks_gcRequestsFromOlderTerms L.term
    have hok : x.requests.NoneSucceeds (x.modifyRequests f).requests :=
      noneSucceeds_modifyRequests fun r => r.noneSucceeds_gcRequestsFromOlderTerms L.term
    have hfin : (x.modifyRequests f).requests.finished = x.requests.finished :=
      apply_modifyRequests (·.finished) fun _ => rfl
    set x' : Replica := { x.modifyRequests f with insyncTerm := L.term }
    have hpend : x'.pending L = [] := by
      refine filter_eq_nil_iff.2 fun q hq => ?_
      obtain ⟨d, hd, rfl⟩ := mem_map.1 hq
      obtain ⟨-, -, -, -, hle, -⟩ := h.own.holding d (Option.mem_toList.1 hd)
      simpa using (hle.trans_lt hlt).ne
    -- All of the log is from before the term, and applied.
    have happ : x'.applied = L.entries.length := by
      have := (h.leading hl).idle hne
      have := h.logged.applied_le
      have := L.committed_le
      show x.applied = _
      omega
    refine ⟨h.own.mono hs (id_of_mem_modifyRequests (f := f) h.own.id_eq) hlt.le
      (fun _ => .inl) h.own.waiting_pairwise
      (fun q hq => .inl (hfin ▸ hq)) (fun _ => id) (fun q hq => .inl hq),
      h.logged.mono hs rfl hfin (.inr ⟨rfl, hstart⟩) (fun q hq v hv => ?_) (fun _ => id),
      fun _ => ⟨fun hne => absurd rfl hne, fun _ => ⟨[], ?_, nil_suffix, fun _ => happ⟩,
        fun _ => ?_, ?_⟩⟩
    · exact .inl (hok _ (h.own.inflight q (hs.inflight.subset hq)).1 v hv)
    · rw [hpend]
      refine filter_eq_nil_iff.2 fun q hq => ?_
      have := (h.own.term_le q (hs.inflight.subset hq)).1
      simpa using (this.trans_lt hlt).ne
    · rw [hpend, happ, drop_length]
      exact nodup_nil
    · rw [hpend]
      exact nofun

theorem Inv.enqueueStep {o : Option Int}
    (hx' : x.enqueue L n o = some (L', x')) : x'.Inv pid L' n := by
  rw [Replica.enqueue.eq_def] at hx'
  split at hx'
  case h_1 d o hd =>
    obtain ⟨hcond, ⟨⟩⟩ := Option.ite_none_right_eq_some.1 hx'
    obtain ⟨-, -, hf, hl, -⟩ := h.own.holding d hd
    exact h.enqueue hd hcond.1.1 hcond.1.2.symm rfl hf.symm hl.symm
  case h_2 d hd =>
    cases hx'
    -- The leader of the term of the request has stepped down.
    have h' := h.stepDown n d.request.term
    refine (h'.forget (o := none) (by simp) (fun _ => id)
      fun hl => ?_).setResult (q := d.request) (h.own.holding d hd).2.1 fun v hv =>
        absurd hv (by simp)
    have hne : d.request.term ≠ L.term := fun ht =>
      (leader_of_stepDown hl).2
        ⟨(leader_of_stepDown hl).1, ht.symm⟩
    simp [pending, hd, hne]
  case h_3 => cases hx'

theorem Inv.finish {q : Request} {success : Bool}
    (hx' : x.finish L n q success = some (L', x')) : x'.Inv pid L' n := by
  rw [Replica.finish] at hx'
  obtain ⟨hq, hx'⟩ := Option.ite_none_right_eq_some.1 hx'
  have herase : ∀ {M : ReplicatedLog ν (Entry ν)}, x.Inv pid M n →
      Inv pid M n { x with replicating := x.replicating.erase q } := fun hM =>
    hM.forget (fun _ => id) (fun _ hq => mem_of_mem_erase hq) fun _ => rfl
  cases success with
  | true =>
    obtain ⟨rfl, e, he, rfl⟩ := exists_of_map_mk hx'
    refine (herase h).setResult (h.own.replicating q hq) fun v _ => ?_
    -- The batch that is found is committed.
    have ho : e.origin = (n, q) := by simpa using find?_some he
    obtain ⟨i, hi⟩ := mem_iff_getElem?.1 (mem_of_find?_eq_some he)
    obtain ⟨hlt, -⟩ := List.getElem?_eq_some_iff.1 hi
    rw [length_take] at hlt
    refine ⟨i, by omega, ?_⟩
    rw [getElem?_take_of_lt (by omega)] at hi
    rw [origins, getElem?_map, hi, Option.map_some, ho]
  | false =>
    cases hx'
    exact (herase (h.stepDown n q.term)).setResult (h.own.replicating q hq) fun v hv =>
      absurd hv (by simp)

theorem Inv.apply (hent : EntriesInv pid L) (hx' : x.apply L = some x') : x'.Inv pid L n := by
  obtain ⟨e, p, hlt, he, hid, hp, rfl⟩ := apply_eq_some h.own.id_eq hent hx'
  exact ⟨h.own.after hid hp, h.logged.after h.own hent hlt he hp, fun hl =>
    (h.leading hl).after h.own hent hlt he hp h.logged⟩

/-- Every action of a replica keeps the invariant. -/
theorem Inv.act (hent : EntriesInv pid L) {a : NodeAction} (hof : a.IsOf pid)
    (hord : x.Orderly L n a) (hknown : x.StaysKnown a) (hx' : x.act L n a = some (L', x')) :
    x'.Inv pid L' n := by
  cases a with
  | sync =>
    obtain ⟨rfl, y, hy, rfl⟩ := exists_of_map_mk hx'
    exact h.sync hy
  | receive hdr =>
    obtain ⟨rfl, y, hy, rfl⟩ := exists_of_map_mk hx'
    exact h.receive hof hy
  | emplace =>
    obtain ⟨rfl, y, hy, rfl⟩ := exists_of_map_mk hx'
    exact h.emplace hent hord hknown hy
  | enqueue o => exact h.enqueueStep hx'
  | finish q success => exact h.finish hx'
  | apply =>
    obtain ⟨rfl, y, hy, rfl⟩ := exists_of_map_mk hx'
    exact h.apply hent hy
  | stepDown =>
    cases hx'
    exact h.stepDown n L.term

end

end Replica

/-! ## Runs of the partition -/

/-- A batch that is received is one of the producer. -/
def Action.IsOf (pid : ProducerIdentity) : Action ν → Prop
  | .node _ a => a.IsOf pid
  | _ => True

namespace Partition

variable {σ τ : Partition ν} {a : Action ν}

def Orderly (σ : Partition ν) : Action ν → Prop
  | .node n a => (σ.replicas n).Orderly σ.log n a
  | _ => True

def StaysKnown (σ : Partition ν) : Action ν → Prop
  | .node n a => (σ.replicas n).StaysKnown a
  | _ => True

/-- The invariants of the partition. -/
structure Inv (pid : ProducerIdentity) (σ : Partition ν) : Prop where
  entries : Replica.EntriesInv pid σ.log
  follows : σ.log.entries.IsChain Replica.Follows
  replicas : ∀ n, (σ.replicas n).Inv pid σ.log n

theorem inv_init : Inv pid ({} : Partition ν) where
  entries e he := absurd he not_mem_nil
  follows := .nil
  replicas n := by
    refine ⟨?_, ?_, fun h => absurd h (by simp)⟩
    · constructor <;> simp [Replica.requests]
    · constructor <;> simp [Replica.requests, origins]

/-- The leader appends a batch that continues the log. -/
theorem Inv.append (h : σ.Inv pid) {n : ν} {d : Holding} {o : Int}
    (hd : (σ.replicas n).holding = some d) (hl : σ.log.Leads n d.request.term) {e : Entry ν}
    (he : e = ⟨{ d.header with baseOffset := o, term := σ.log.term }, n, d.request⟩) :
    Replica.EntriesInv pid (σ.log.append e) ∧
      (σ.log.append e).entries.IsChain Replica.Follows := by
  obtain ⟨hof, -, hf, hlast, -⟩ := (h.replicas n).own.holding d hd
  have hbid : e.header.bid = d.header.bid := by rw [he]; rfl
  refine ⟨forall_mem_concat.2 ⟨h.entries,
      ⟨hbid ▸ hof.pid_eq, hbid ▸ hof.isIdempotent, hbid ▸ hof.not_isTransactional⟩, ?_⟩,
    isChain_append.2 ⟨h.follows, .singleton _, ?_⟩⟩
  · rw [hbid, he]
    exact ⟨le_rfl, hf, hlast⟩
  · intro e₁ he₁ e₂ he₂
    obtain rfl : e₂ = e := by simpa using he₂.symm
    rw [Replica.Follows, hbid, ← hf]
    refine ((h.replicas n).leading hl.1).continues d.request ?_ e₁ he₁
    simp [Replica.pending, hd, hl.2]

variable [DecidableEq ν]

/-- Every step of the partition keeps the invariants. -/
theorem Inv.step (h : σ.Inv pid) (hof : a.IsOf pid) (hord : σ.Orderly a) (hknown : σ.StaysKnown a)
    (hstep : σ.Step a τ) : τ.Inv pid := by
  cases a with
  | commit k =>
    cases hstep
    exact ⟨h.entries, h.follows, fun n => (h.replicas n).commit k⟩
  | elect m k =>
    cases hstep
    refine ⟨fun e he => ?_, h.follows.take _, fun n => (h.replicas n).elect m k⟩
    obtain ⟨hof, hle, hseq⟩ := h.entries e (mem_of_mem_take he)
    exact ⟨hof, hle.trans (Nat.le_succ _), hseq⟩
  | node n a =>
    obtain ⟨⟨L', x'⟩, hact, rfl⟩ := Option.map_eq_some_iff.1 hstep
    have hx' := (h.replicas n).act h.entries hof hord hknown hact
    -- The log, and then what it means for the other replicas.
    have hlog : Replica.EntriesInv pid L' ∧ L'.entries.IsChain Replica.Follows ∧
        ∀ m ≠ n, (σ.replicas m).Inv pid L' m := by
      rcases Replica.act_log hact with rfl | ⟨t, rfl⟩ | ⟨d, o, hd, hl, rfl⟩
      · exact ⟨h.entries, h.follows, fun m _ => h.replicas m⟩
      · refine ⟨fun e he => ?_, ?_, fun m _ => (h.replicas m).stepDown n t⟩
        · rw [stepDown_entries] at he
          rw [ReplicatedLog.stepDown_term]
          exact h.entries e he
        · rw [stepDown_entries]
          exact h.follows
      · obtain ⟨hent, hfol⟩ := h.append hd hl rfl
        exact ⟨hent, hfol, fun m hm => (h.replicas m).append_other hl.1 rfl hm.symm⟩
    exact ⟨hlog.1, hlog.2.1,
      (Function.forall_update_iff σ.replicas fun m x => x.Inv pid L' m).2 ⟨hx', hlog.2.2⟩⟩

/-- In every run in which the producer stays known and every step is orderly, each batch in the
    committed log continues the one before: none is missing and none is repeated. -/
theorem follows_of_run {l : List (Action ν)}
    (h : Run (fun σ a τ => (σ.Orderly a ∧ σ.StaysKnown a) ∧ Step σ a τ) ({} : Partition ν) l σ)
    (hl : ∀ a ∈ l, a.IsOf pid) :
    (σ.log.entries.take σ.log.committed).IsChain Replica.Follows := by
  have hinv : σ.Inv pid := h.invariant_of_labels (P := Inv pid)
    (fun hσ hof hstep => hσ.step hof hstep.1.1 hstep.1.2 hstep.2) hl inv_init
  exact hinv.follows.take _

end Partition

section

variable [DecidableEq ν] (σ : Partition ν)

instance (L : ReplicatedLog ν (Entry ν)) (x : Replica) (n : ν) :
    DecidablePred (x.Orderly L n) := fun a => by
  unfold Replica.Orderly Replica.KeepsFailed Replica.Distinguishes
  split <;> infer_instance

instance (x : Replica) : DecidablePred x.StaysKnown := fun a => by
  unfold Replica.StaysKnown
  split <;> infer_instance

instance : DecidablePred σ.Orderly := fun a => by
  induction a using Action.casesOn <;> unfold Partition.Orderly <;> infer_instance

instance : DecidablePred σ.StaysKnown := fun a => by
  induction a using Action.casesOn <;> unfold Partition.StaysKnown <;> infer_instance

instance (pid : ProducerIdentity) : DecidablePred (Action.IsOf pid (ν := ν)) := fun a => by
  rcases a with ⟨n, _ | _⟩ | _ | _ <;> unfold Action.IsOf <;> try unfold NodeAction.IsOf
  all_goals infer_instance

instance (e e' : Entry ν) : Decidable (Replica.Follows e e') :=
  inferInstanceAs (Decidable (_ = _))

end

/-- A batch is written, sent again to another leader, and the next one is written there. -/
def retryRun : List (Action Bool) :=
  lead false 0 ++ produce false (recordAt 0 0) 0 ++ [.commit 1, .node true .apply] ++ lead true 1 ++
  [.node true (.receive (recordAt 0 0)), .node true .emplace] ++ produce true (recordAt 0 1) 1 ++
  [.commit 2]

theorem follows_of_run_retry : ∃ (l : List (Action Bool)) (σ : Partition Bool),
    Run (fun σ a τ => (σ.Orderly a ∧ σ.StaysKnown a) ∧ Partition.Step σ a τ) {} l σ ∧
      σ.log.committed = 2 ∧
      (σ.log.entries.take σ.log.committed).IsChain Replica.Follows := by
  have h : (retryRun.foldlM (fun s u =>
      if Partition.Orderly s u ∧ Partition.StaysKnown s u then s.next u else none)
      ({} : Partition Bool)).map (fun σ => σ.log.committed) = some 2 := by
    decide
  obtain ⟨σ, hrun, hσ⟩ := Run.exists_of_foldlM h
  have hof : ∀ a ∈ retryRun, a.IsOf ⟨1, 0⟩ := by decide
  exact ⟨retryRun, σ, hrun, hσ, Partition.follows_of_run hrun hof⟩

/-- Two replicas take turns. The first one leads, and its queue in flight is full and with a
    batch waiting when a replication fails. -/
def lostRun : List (Action Bool) :=
  lead false 0 ++ produce false (recordAt 0 0) 0 ++ [.commit 1, .node false .apply] ++
  produce false (recordAt 0 1) 1 ++ produce false (recordAt 0 2) 2 ++
  produce false (recordAt 0 3) 3 ++ produce false (recordAt 0 4) 4 ++
  [.node false (.receive (recordAt 0 5)), .node false .emplace,
    .node false (.receive (recordAt 0 6)),
    .node false (.finish ⟨1, 1, 1, 2⟩ false), .node false (.enqueue none),
    .node false .emplace, .node false (.enqueue none), .elect true 1] ++
  lead false 1 ++ produce false (recordAt 0 0) 1 ++ [.commit 2]

/-- A batch that is repeated is written again. -/
theorem exists_run_not_follows : ∃ (l : List (Action Bool)) (σ : Partition Bool),
    Run (fun σ a τ => σ.StaysKnown a ∧ Partition.Step σ a τ) {} l σ ∧
      (∀ a ∈ l, a.IsOf ⟨1, 0⟩) ∧
      ¬ (σ.log.entries.take σ.log.committed).IsChain Replica.Follows := by
  have h : (lostRun.foldlM (fun s u => if Partition.StaysKnown s u then s.next u else none)
      ({} : Partition Bool)).map (fun σ =>
        decide ((σ.log.entries.take σ.log.committed).IsChain Replica.Follows)) = some false := by
    decide
  obtain ⟨σ, hrun, hσ⟩ := Run.exists_of_foldlM h
  exact ⟨lostRun, σ, hrun, by decide, of_decide_eq_false hσ⟩

end Redpanda.Cluster
