import Redpanda.Cluster.Transactions

/-!
# What the steps of a partition do to transactions

An operation decides by the producer it has locked, and writes a batch that goes with the state of
the producer's transaction (`Decision.Fits`, with one lemma for each of `doAbortTx`, `doCommitTx`,
`doBeginTx` and `doTransactionalReplicate`). `TxReplica.Effect` then lists what an action can do to
a replica and to the log, with the guards of the action, and `TxReplica.effect_of_act` is the
inversion of `TxReplica.act`: the invariants about end markers and the last stable offset are
proved from it and do not unfold the operations.
-/

namespace Redpanda.Cluster

open Lib
open ReplicatedLog (exists_of_map_mk)
open OrderedStore (get_eq_some get_map)

/-! ## The state machine without the log -/

namespace RmStm

variable (s : RmStm)

/-- The two have the same transactions and the same last known LSO. -/
structure Same (s s' : RmStm) : Prop where
  openRange : ∀ id, s'.openRange id = s.openRange id
  active : s'.activeTxProducers = s.activeTxProducers
  lastKnownLso : s'.lastKnownLso = s.lastKnownLso

theorem Same.refl : Same s s := ⟨fun _ => rfl, rfl, rfl⟩

/-- A producer is replaced by one with the same transaction. -/
theorem same_put {s : RmStm} {p : ProducerState} (h : p.openRange = s.openRange p.id.id) :
    Same s { s with producers := s.producers.put p } where
  openRange id := by
    simp only [openRange]
    by_cases hid : id = p.id.id
    · rw [hid, OrderedStore.get_put_self s.producers p, Option.bind_some, h, openRange]
    · rw [OrderedStore.get_put_of_ne (s := s.producers) (r := p) hid]
  active := rfl
  lastKnownLso := rfl

theorem same_create (pid : ProducerIdentity) : Same s (s.create pid) :=
  same_put (by rw [openRange_maybeCreateProducer, maybeCreateProducer_id])

theorem openRange_of_get {s : RmStm} {id : Int} {p : ProducerState}
    (h : s.producers.get id = some p) : s.openRange id = p.openRange := by
  rw [openRange, h, Option.bind_some]

theorem same_setResult (id : Int) (q : Request) (result : Except Errc KafkaResult) :
    Same s (s.setResult id q result) := by
  rw [setResult]
  split
  · exact .refl s
  · rename_i p hp
    have hid := (get_eq_some.1 hp).2
    exact same_put (hid ▸ (openRange_of_get hp).symm)

/-- Forgetting requests does not touch transactions. -/
theorem openRange_gcRequests (term : Nat) (id : Int) :
    (s.gcRequests term).openRange id = s.openRange id := by
  rw [openRange, gcRequests, get_map, openRange]
  rcases s.producers.get id with - | p
  · rfl
  · rfl

/-- A transaction is in progress if and only if it has a range. -/
theorem any_hasTransactionInProgress (id : Int) :
    (s.producers.get id).any (·.hasTransactionInProgress) = (s.openRange id).isSome := by
  rw [openRange]
  rcases s.producers.get id with - | p
  · rfl
  · exact Bool.eq_iff_iff.2 ProducerState.hasTransactionInProgress_iff

end RmStm

/-! ## Batches that may be written -/

/-- Whether a batch may be written for a producer whose transaction is open or not: a
    fence may be if it is not, and all others if it is. -/
structure RecordBatch.Fits (b : RecordBatch) (id : Int) (isOpen : Bool) : Prop where
  pid_id : b.pid.id = id
  kind : b.isFence id ∧ isOpen = false ∨ (b.isEnd id ∨ b.isTxData id) ∧ isOpen = true
  le : 0 ≤ b.header.lastOffsetDelta

/-- What follows a batch belongs to it. -/
def AfterReplicate.Fits (b : RecordBatch) (id : Int) : AfterReplicate → Prop
  | .done => True
  | .fence f => f.pid.id = id
  | .data _ => b.isTxData id

/-- An operation may have decided so. -/
def TxPhase.Fits (id : Int) (isOpen : Bool) : TxPhase → Prop
  | .awaiting pid => pid.id = id ∧ isOpen = true
  | .replicating b next _ => b.Fits id isOpen ∧ next.Fits b id

/-- Where the batch of an operation is in the log. -/
def TxPhase.index : TxPhase → Option Nat
  | .awaiting _ => none
  | .replicating _ _ index => index

theorem fits_makeFenceBatch (f : FenceBatchData) : (makeFenceBatch f).Fits f.pid.id false where
  pid_id := rfl
  kind := .inl ⟨decide_eq_true rfl, rfl⟩
  le := le_rfl

theorem fits_makeTxControlBatch (pid : ProducerIdentity) {crt : ControlRecordType}
    (h : crt ≠ .unknown) : (makeTxControlBatch pid crt).Fits pid.id true where
  pid_id := rfl
  kind := by
    refine .inr ⟨.inl ?_, rfl⟩
    have hctl : (makeTxControlBatch pid crt).isControl pid.id crt := by
      rw [RecordBatch.isControl, Bool.and_eq_true]
      exact ⟨decide_eq_true rfl, decide_eq_true rfl⟩
    rw [RecordBatch.isEnd, Bool.or_eq_true]
    cases crt with
    | unknown => exact absurd rfl h
    | txAbort => exact .inl hctl
    | txCommit => exact .inr hctl
  le := le_rfl

/-! ## Decisions -/

/-- The decision goes with the state of the transaction. -/
def Decision.Fits {ε : Type} (id : Int) (isOpen : Bool) :
    Decision ε → Prop
  | .answer _ => True
  | .replicate b next => b.Fits id isOpen ∧ next.Fits b id

namespace ProducerState

variable {p : ProducerState}

theorem getTransactionSequence_eq_none :
    p.getTransactionSequence = none ↔ p.openRange.isSome = false := by
  rw [getTransactionSequence]
  rcases h : p.hasTransactionInProgress with - | -
  · have : ¬ p.openRange.isSome := fun ho =>
      absurd (hasTransactionInProgress_iff.2 ho) (by simp [h])
    simpa using this
  · have hsome := hasTransactionInProgress_iff.1 h
    rw [hsome]
    rw [openRange] at hsome
    rcases ht : p.transactionState with - | t
    · simp [ht] at hsome
    · simp

theorem openRange_of_getTransactionSequence {txSeq : Int}
    (h : p.getTransactionSequence = some txSeq) : p.openRange.isSome = true := by
  by_contra hno
  rw [Bool.not_eq_true, ← getTransactionSequence_eq_none, h] at hno
  exact nomatch hno

/-- Aborting writes a marker only if a transaction is open. -/
theorem fits_doAbortTx (txSeq : Option Int) :
    (p.doAbortTx txSeq).Fits p.id.id p.openRange.isSome := by
  rw [doAbortTx]
  split
  · trivial
  · rename_i h
    split
    · trivial
    · rw [openRange_of_getTransactionSequence h]
      exact ⟨fits_makeTxControlBatch p.id (by simp), trivial⟩

/-- Committing writes a marker only if a transaction is open. -/
theorem fits_doCommitTx (txSeq : Int) : (p.doCommitTx txSeq).Fits p.id.id p.openRange.isSome := by
  rw [doCommitTx]
  split
  · trivial
  · rename_i h
    split
    · trivial
    · split
      · trivial
      · rw [openRange_of_getTransactionSequence h]
        exact ⟨fits_makeTxControlBatch p.id (by simp), trivial⟩

/-- Beginning writes a fence if no transaction is open, and first aborts one that is. -/
theorem fits_doBeginTx {pid : ProducerIdentity} (hid : p.id.id = pid.id) (isLeader : Bool)
    (txSeq : Int) : (p.doBeginTx isLeader pid txSeq).Fits pid.id p.openRange.isSome := by
  have hfence := fits_makeFenceBatch ⟨pid, some txSeq⟩
  rw [doBeginTx]
  split
  · trivial
  · split
    · trivial
    · split
      · have habort := fits_doAbortTx (p := p) none
        split
        · rename_i h
          -- nothing is aborted when there is no transaction
          rw [doAbortTx] at h
          split at h
          · rename_i hseq
            rw [getTransactionSequence_eq_none.1 hseq]
            exact ⟨hfence, trivial⟩
          · simp at h
        · trivial
        · rename_i h
          rw [h] at habort
          exact ⟨hid ▸ habort.1, rfl⟩
      · rw [openRange]
        split
        · rename_i h
          rw [h]
          exact ⟨hfence, trivial⟩
        · rename_i t h
          rw [h]
          split
          · split
            · trivial
            · trivial
          · rename_i hno
            split
            · trivial
            · refine ⟨?_, trivial⟩
              simpa [TransactionState.openRange, hno] using hfence

/-- A request for a batch does not change the transaction. -/
theorem tryEmplaceRequest_eq (bid : BatchIdentity) (term : Nat) (reset : Bool) :
    (p.tryEmplaceRequest bid term reset).1.id = p.id ∧
      (p.tryEmplaceRequest bid term reset).1.transactionState = p.transactionState := by
  rw [tryEmplaceRequest]
  split <;> exact ⟨rfl, rfl⟩

/-- Replicating data leaves the transaction to what is applied later. -/
theorem doTransactionalReplicate_eq (term : Nat) (header : RecordBatchHeader) :
    (p.doTransactionalReplicate term header).1.id = p.id ∧
      (p.doTransactionalReplicate term header).1.transactionState = p.transactionState := by
  have h := fun reset => tryEmplaceRequest_eq (p := p) header.bid term reset
  rw [doTransactionalReplicate]
  split
  · exact ⟨rfl, rfl⟩
  · split
    · exact ⟨rfl, rfl⟩
    · simp only
      split
      · exact h _
      · split
        · exact h _
        · exact h _

theorem fits_doTransactionalReplicate {header : RecordBatchHeader}
    (hid : header.bid.isIdempotent) (htx : header.isTransactional)
    (hle : 0 ≤ header.lastOffsetDelta) (term : Nat) :
    (p.doTransactionalReplicate term header).2.Fits header.bid.pid.id p.openRange.isSome := by
  rw [doTransactionalReplicate]
  split
  · trivial
  · rename_i t ht
    split
    · trivial
    · rename_i hcond
      simp only
      split
      · trivial
      · split
        · have hdata : RecordBatch.isTxData ⟨header, .data⟩ header.bid.pid.id := by
            have : header.bid.isTransactional := htx
            simp [RecordBatch.isTxData, hid, this]
          have hopen : p.openRange.isSome = true := by
            simp only [Bool.or_eq_true, Bool.not_eq_true', not_or, Bool.not_eq_false] at hcond
            rw [openRange, ht]
            simp [TransactionState.openRange, hcond.2]
          rw [hopen]
          exact ⟨⟨rfl, .inr ⟨.inr hdata, rfl⟩, hle⟩, hdata⟩
        · trivial

end ProducerState

/-! ## Steps of a replica -/

/-- An operation may release its lock and leave the leader in office: it has nothing in the log,
    all is applied, or its batch was data. -/
def TxPhase.Releases (applied : Nat) : TxPhase → Prop
  | .awaiting _ => True
  | .replicating _ next index => (∃ i, index = some i ∧ i < applied) ∨ ∃ q, next = .data q

/-- What an action of a replica does. -/
inductive TxReplica.Effect {ν : Type} [DecidableEq ν] (x : TxReplica)
    (L : ReplicatedLog ν RecordBatch) (n : ν) :
    TxNodeAction → ReplicatedLog ν RecordBatch → TxReplica → Prop
  | keep {a : TxNodeAction} {stm : RmStm} : x.stm.Same stm → Effect x L n a L { x with stm := stm }
  | read {a : TxNodeAction} (bootstrapping stateLocked : Bool) (visible : Nat) :
    Effect x L n a L (x.readLso L n bootstrapping stateLocked visible)
  | sync {a : TxNodeAction} : L.leader = some n → L.start ≤ x.applied → x.insyncTerm ≠ L.term →
    Effect x L n a L
      { x with stm := x.stm.gcRequests L.term, insyncTerm := L.term, answers := [] }
  | start {a : TxNodeAction} {stm : RmStm} {o : TxOperation} : x.stm.Same stm → o.term ≤ x.insyncTerm →
    x.operations.get o.producer = none → o.phase.index = none →
    o.phase.Fits o.producer (x.stm.openRange o.producer).isSome →
    Effect x L n a L { x with stm := stm, operations := x.operations.put o }
  /-- The coordinator replies. -/
  | reply {a : TxNodeAction} {o : TxOperation} {pid : ProducerIdentity} {crt : ControlRecordType} :
    x.operations.get o.producer = some o → o.phase = .awaiting pid → crt ≠ .unknown →
    Effect x L n a L { x with
      operations := x.operations.put
        { o with phase := .replicating (makeTxControlBatch pid crt) .done none } }
  | enqueue {a : TxNodeAction} {o : TxOperation} {b : RecordBatch} {next : AfterReplicate} :
    x.operations.get o.producer = some o → o.phase = .replicating b next none →
    L.Leads n o.term →
    Effect x L n a (L.append (b.place (nextOffset L.entries) o.term)) { x with
      operations := x.operations.put
        { o with phase := .replicating b next (some L.entries.length) } }
  /-- A transaction is aborted, and the fence of the next one can be written. -/
  | refence {a : TxNodeAction} {o : TxOperation} {b : RecordBatch} {f : FenceBatchData} {i : Nat} :
    x.operations.get o.producer = some o → o.phase = .replicating b (.fence f) (some i) →
    i < x.applied → x.stm.openRange o.producer = none →
    Effect x L n a L { x with
      operations := x.operations.put
        { o with phase := .replicating (makeFenceBatch f) .done none } }
  | release {a : TxNodeAction} {stm : RmStm} {o : TxOperation} : x.stm.Same stm →
    x.operations.get o.producer = some o → o.phase.Releases x.applied →
    Effect x L n a L { x with stm := stm, operations := x.operations.erase o.producer }
  | fail {a : TxNodeAction} {o : TxOperation} : x.operations.get o.producer = some o →
    Effect x L n a (L.stepDown n o.term)
      { x with operations := x.operations.erase o.producer }
  | apply {b : RecordBatch} {stm : RmStm} : x.applied < L.committed →
    L.entries[x.applied]? = some b → x.stm.doApply b = some stm →
    Effect x L n .apply L { x with stm := stm, applied := x.applied + 1 }
  | stepDown {a : TxNodeAction} (t : Nat) : Effect x L n a (L.stepDown n t) x
  | other {a : TxNodeAction} {b : RecordBatch} : L.leader = some n → b.kind = .other →
    b.header.baseOffset = nextOffset L.entries → 0 ≤ b.header.lastOffsetDelta →
    Effect x L n a (L.append b) x

namespace TxReplica

variable {ν : Type} [DecidableEq ν] {x x' : TxReplica} {L L' : ReplicatedLog ν RecordBatch} {n : ν}

/-- The producer of an operation is known, and locked by no other one. -/
theorem get_of_locked {id : Int} {term : Nat} {p : ProducerState}
    (h : x.locked id term = some p) : term ≤ x.insyncTerm ∧ x.operations.get id = none ∧
      x.stm.producers.get id = some p ∧ p.id.id = id := by
  rw [locked] at h
  obtain ⟨hcond, h⟩ := Option.ite_none_right_eq_some.1 h
  exact ⟨hcond.1, hcond.2, h, (get_eq_some.1 h).2⟩

/-- An operation starts with what it decided. -/
theorem effect_proceed {ε : Type} {a : TxNodeAction} {id : Int} {term : Nat} {stm : RmStm}
    {d : Decision ε}
    (hstm : x.stm.Same stm) (hterm : term ≤ x.insyncTerm) (hget : x.operations.get id = none)
    (hd : d.Fits id (x.stm.openRange id).isSome) :
    Effect x L n a L ({ x with stm := stm }.proceed id term d) := by
  cases d with
  | answer e => exact .keep hstm
  | replicate b next =>
    exact .start (o := ⟨id, term, .replicating b next none⟩) hstm hterm hget rfl hd

theorem effect_sync (h : x.sync L n = some x') : Effect x L n .sync L x' := by
  rw [sync] at h
  obtain ⟨hcond, h⟩ := Option.ite_none_right_eq_some.1 h
  split at h
  · cases h
    exact .keep (.refl _)
  · cases h
    exact .sync hcond.1 hcond.2 (by assumption)

/-- Data is checked against the producer, which keeps its transaction. -/
theorem effect_replicateData {a : TxNodeAction} {term : Nat} {header : RecordBatchHeader}
    (h : x.replicateData term header = some x') : Effect x L n a L x' := by
  rw [replicateData] at h
  obtain ⟨hcond, h⟩ := Option.ite_none_right_eq_some.1 h
  obtain ⟨p, hp, rfl⟩ := Option.map_eq_some_iff.1 h
  obtain ⟨hterm, hget, hp, hid⟩ := get_of_locked hp
  obtain ⟨hid', hts⟩ := ProducerState.doTransactionalReplicate_eq (p := p) term header
  refine effect_proceed (RmStm.same_put ?_) hterm hget (RmStm.openRange_of_get hp ▸
    ProducerState.fits_doTransactionalReplicate hcond.1 hcond.2.1 hcond.2.2 _)
  rw [hid', hid, RmStm.openRange_of_get hp, ProducerState.openRange, hts, ProducerState.openRange]

/-- Only a transaction that is open is aborted after its time. -/
theorem effect_expire {a : TxNodeAction} {id : Int} (h : x.expire L n id = some x') :
    Effect x L n a L x' := by
  rw [expire] at h
  obtain ⟨-, h⟩ := Option.ite_none_right_eq_some.1 h
  obtain ⟨p, hp, rfl⟩ := Option.map_eq_some_iff.1 h
  obtain ⟨hterm, hget, hp, rfl⟩ := get_of_locked hp
  split
  · exact .keep (.refl _)
  · rename_i txSeq hseq
    have hopen := ProducerState.openRange_of_getTransactionSequence hseq
    rw [← RmStm.openRange_of_get hp] at hopen
    refine .start (o := ⟨p.id.id, x.insyncTerm, _⟩) (.refl _) hterm hget ?_ ?_
    · dsimp only
      split <;> rfl
    · dsimp only
      rw [hopen]
      -- the coordinator is asked, unless the transaction has no sequence
      split
      · exact ⟨rfl, rfl⟩
      · exact ⟨fits_makeTxControlBatch p.id (by simp), trivial⟩

theorem effect_coordinator {a : TxNodeAction} {id : Int} {committed : Option Bool}
    (h : x.coordinator id committed = some x') : Effect x L n a L x' := by
  rw [coordinator] at h
  split at h
  · rename_i id' term pid hget
    obtain rfl : id' = id := (get_eq_some.1 hget).2
    split at h
    · cases h
      exact .release (o := ⟨id', term, .awaiting pid⟩) (.refl _) hget trivial
    · rename_i c
      cases h
      exact .reply (o := ⟨id', term, .awaiting pid⟩) hget rfl (by split <;> simp)
  · cases h

theorem effect_enqueue {a : TxNodeAction} {id : Int} (h : x.enqueue L n id = some (L', x')) :
    Effect x L n a L' x' := by
  rw [enqueue] at h
  split at h
  · rename_i id' term b next hget
    obtain rfl : id' = id := (get_eq_some.1 hget).2
    obtain ⟨hleads, h⟩ := Option.ite_none_right_eq_some.1 h
    cases h
    exact .enqueue (o := ⟨id', term, .replicating b next none⟩) hget rfl hleads
  · cases h

/-- An operation whose batch is applied is done, or begins its transaction anew after the one that
    it has ended. -/
theorem effect_finish {a : TxNodeAction} {id : Int} (h : x.finish L id = some x') :
    Effect x L n a L x' := by
  rw [finish] at h
  split at h
  · rename_i id' term b next i hget
    obtain rfl : id' = id := (get_eq_some.1 hget).2
    split at h
    · rename_i hi
      have hrelease : TxPhase.Releases x.applied (.replicating b next (some i)) :=
        .inl ⟨i, rfl, hi⟩
      split at h
      · cases h
        exact .release (o := ⟨id', term, _⟩) (.refl _) hget hrelease
      · rename_i f
        -- the transaction that was to be ended may still be in progress
        split at h
        · cases h
          exact .release (o := ⟨id', term, _⟩) (.refl _) hget hrelease
        · rename_i hno
          cases h
          rw [RmStm.any_hasTransactionInProgress, Bool.not_eq_true,
            Option.isSome_eq_false_iff, Option.isNone_iff_eq_none] at hno
          exact .refence (o := ⟨id', term, .replicating b (.fence f) (some i)⟩) hget rfl hi hno
      · obtain ⟨b', -, rfl⟩ := Option.map_eq_some_iff.1 h
        exact .release (o := ⟨id', term, _⟩) (x.stm.same_setResult _ _ _) hget hrelease
    · cases h
  · cases h

/-- Data that fails is answered with an error, other batches make the leader step down. -/
theorem effect_fail {a : TxNodeAction} {id : Int} (h : x.fail L n id = some (L', x')) :
    Effect x L n a L' x' := by
  rw [fail] at h
  split at h
  · rename_i id' term b next i hget
    obtain rfl : id' = id := (get_eq_some.1 hget).2
    split at h
    · rename_i q
      cases h
      exact .release (o := ⟨id', term, _⟩) (x.stm.same_setResult _ _ _) hget (.inr ⟨q, rfl⟩)
    · cases h
      exact .fail (o := ⟨id', term, _⟩) hget
  · cases h

theorem effect_apply (h : x.apply L = some x') : Effect x L n .apply L x' := by
  rw [apply] at h
  obtain ⟨hlt, h⟩ := Option.ite_none_right_eq_some.1 h
  simp only [Option.bind_eq_bind, Option.bind_eq_some_iff] at h
  obtain ⟨b, hb, stm, hstm, heq⟩ := h
  cases heq
  exact .apply hlt hb hstm

/-- What an action of a replica does is one of the effects. -/
theorem effect_of_act {a : TxNodeAction} (h : x.act L n a = some (L', x')) :
    Effect x L n a L' x' := by
  cases a with
  | sync =>
    obtain ⟨rfl, y, hy, rfl⟩ := exists_of_map_mk h
    exact effect_sync hy
  | create pid =>
    cases h
    exact .keep (x.stm.same_create pid)
  | beginTx term pid txSeq =>
    obtain ⟨rfl, p, hp, rfl⟩ := exists_of_map_mk h
    obtain ⟨hterm, hget, hp, hid⟩ := get_of_locked hp
    exact effect_proceed (.refl _) hterm hget
      (RmStm.openRange_of_get hp ▸ ProducerState.fits_doBeginTx hid _ _)
  | commitTx term id txSeq =>
    obtain ⟨rfl, p, hp, rfl⟩ := exists_of_map_mk h
    obtain ⟨hterm, hget, hp, rfl⟩ := get_of_locked hp
    exact effect_proceed (.refl _) hterm hget
      (RmStm.openRange_of_get hp ▸ ProducerState.fits_doCommitTx _)
  | abortTx term id txSeq =>
    obtain ⟨rfl, p, hp, rfl⟩ := exists_of_map_mk h
    obtain ⟨hterm, hget, hp, rfl⟩ := get_of_locked hp
    exact effect_proceed (.refl _) hterm hget
      (RmStm.openRange_of_get hp ▸ ProducerState.fits_doAbortTx _)
  | data term header =>
    obtain ⟨rfl, y, hy, rfl⟩ := exists_of_map_mk h
    exact effect_replicateData hy
  | expire id =>
    obtain ⟨rfl, y, hy, rfl⟩ := exists_of_map_mk h
    exact effect_expire hy
  | coordinator id committed =>
    obtain ⟨rfl, y, hy, rfl⟩ := exists_of_map_mk h
    exact effect_coordinator hy
  | enqueue id => exact effect_enqueue h
  | finish id =>
    obtain ⟨rfl, y, hy, rfl⟩ := exists_of_map_mk h
    exact effect_finish hy
  | fail id => exact effect_fail h
  | apply =>
    obtain ⟨rfl, y, hy, rfl⟩ := exists_of_map_mk h
    exact effect_apply hy
  | stepDown =>
    cases h
    exact .stepDown L.term
  | other lastOffsetDelta =>
    -- batches of other kinds are appended by the leader at the end of the log
    simp only [act] at h
    obtain ⟨hleader, h⟩ := Option.ite_none_right_eq_some.1 h
    cases h
    exact .other hleader rfl rfl (Int.natCast_nonneg _)
  | lastStableOffset bootstrapping stateLocked visible =>
    cases h
    exact .read bootstrapping stateLocked visible

end TxReplica

end Redpanda.Cluster
