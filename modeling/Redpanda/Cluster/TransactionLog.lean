import Redpanda.Cluster.RmStm

/-!
# The transactions in a log

What the batches of a log say about transactions, and that the state machine follows it.

A fence begins a transaction of its producer, the transactional batches of the producer after it
belong to the transaction, and a control batch ends it. If the fence is not in the log any more,
then the first of the batches begins the transaction. So, at every position in the log, a
producer has at most one transaction that is open (`openTx`), and every marker that aborts one
adds it to those that were aborted (`abortedTxs`).

The state machine has the same transactions open, whichever batch it applies
(`RmStm.openRange_doApply`), unless a fence has an epoch that is lower than the one the state
machine knows the producer with: such a fence is ignored (`AcceptsFence`).
-/

namespace Redpanda.Cluster

open Lib List

/-! ## Batches of a producer -/

namespace RecordBatch

variable (b : RecordBatch) (id : Int)

abbrev pid : ProducerIdentity := b.header.bid.pid

/-- The fence of a producer. -/
def isFence : Bool :=
  match b.kind with
  | .fence _ => b.pid.id = id
  | _ => false

/-- A control batch of a producer. -/
def isControl (crt : ControlRecordType) : Bool :=
  b.kind = .control crt && b.pid.id = id

/-- A marker that ends the transaction of a producer. -/
def isEnd : Bool :=
  b.isControl id .txAbort || b.isControl id .txCommit

/-- A batch in the transaction of a producer. -/
def isTxData : Bool :=
  b.kind = .data && b.header.bid.isIdempotent && b.header.bid.isTransactional && b.pid.id = id

/-- A batch that a transaction of a producer may begin with. -/
def begins : Bool := b.isFence id || b.isTxData id

/-- Any batch which makes the producer known. -/
def isOf : Bool :=
  match b.kind with
  | .fence _ => b.pid.id = id
  | .control _ => b.pid.id = id
  | .data => b.header.bid.isIdempotent && b.pid.id = id
  | .other => false

variable {b : RecordBatch} {id : Int}

theorem isFence_iff : b.isFence id ↔ (∃ txSeq, b.kind = .fence txSeq) ∧ b.pid.id = id := by
  rw [isFence]
  rcases b.kind with txSeq | crt | - | - <;> simp

theorem isEnd_iff : b.isEnd id ↔
    (b.kind = .control .txAbort ∨ b.kind = .control .txCommit) ∧ b.pid.id = id := by
  simp only [isEnd, isControl, Bool.or_eq_true, Bool.and_eq_true, decide_eq_true_eq, or_and_right]

theorem isTxData_iff : b.isTxData id ↔
    (b.kind = .data ∧ b.header.bid.isIdempotent ∧ b.header.bid.isTransactional) ∧ b.pid.id = id := by
  simp only [isTxData, Bool.and_eq_true, decide_eq_true_eq, and_assoc]

end RecordBatch

open RecordBatch (begins isControl isEnd isFence isOf isTxData)

/-! ## Open transactions -/

variable (id : Int) (log : List RecordBatch) (b : RecordBatch)

/-- What a batch does to the offsets of the open transaction of a producer. -/
def openStep (t : Option (Int × Int)) (b : RecordBatch) : Option (Int × Int) :=
  if b.isFence id then some (b.header.baseOffset, b.header.lastOffset)
  else if b.isEnd id then none
  else if b.isTxData id then some ((t.map (·.1)).getD b.header.baseOffset, b.header.lastOffset)
  else t

/-- The first and the last offset of the transaction of a producer that is open at the end of
    the log. -/
def openTx : Option (Int × Int) :=
  log.foldl (openStep id) none

@[simp]
theorem openTx_nil : openTx id [] = none := rfl

@[simp]
theorem openTx_concat : openTx id (log ++ [b]) = openStep id (openTx id log) b := by
  rw [openTx, foldl_append, foldl_cons, foldl_nil, ← openTx]

/-- The transactions that are aborted in a log, with their first and last offsets. -/
def abortedTxs : List (Int × Int) :=
  (List.range log.length).flatMap fun i =>
    match log[i]? with
    | some b => if b.isControl b.pid.id .txAbort then (openTx b.pid.id (log.take i)).toList else []
    | none => []

@[simp]
theorem abortedTxs_concat : abortedTxs (log ++ [b]) = abortedTxs log ++
      if b.isControl b.pid.id .txAbort then (openTx b.pid.id log).toList else [] := by
  rw [abortedTxs, abortedTxs, length_append, length_singleton, range_succ,
    flatMap_append, flatMap_singleton, getElem?_concat_length,
    take_left]
  congr 1
  refine flatMap_congr fun i hi => ?_
  rw [mem_range] at hi
  rw [getElem?_append_left hi, take_append_of_le_length hi.le]

/-- Every end marker in the log ends a transaction that is open, unless the log has nothing of
    the transactions of the producer before the marker. -/
def EndsOpen : Prop :=
  ∀ (i : Nat) (h : i < log.length), log[i].isEnd log[i].pid.id →
    (openTx log[i].pid.id (log.take i)).isSome ∨
      ∀ b ∈ log.take i, b.begins log[i].pid.id = false

/-- The epoch of a fence is not below those of the earlier batches of the producer. -/
def FencesAscend : Prop :=
  ∀ (i : Nat) (h : i < log.length), log[i].isFence log[i].pid.id →
    ∀ b ∈ log.take i, b.isOf log[i].pid.id → b.pid.epoch ≤ log[i].pid.epoch

instance : DecidablePred EndsOpen :=
  fun _ => inferInstanceAs (Decidable (∀ (i : Nat) (_ : i < _), _ → _ ∨ _))

instance : DecidablePred FencesAscend :=
  fun _ => inferInstanceAs (Decidable (∀ (i : Nat) (_ : i < _), _ → ∀ b ∈ _, _))

/-- The offsets of the batches. -/
structure Ordered (log : List RecordBatch) : Prop where
  lt : log.Pairwise (·.header.lastOffset < ·.header.baseOffset)
  le : ∀ b ∈ log, 0 ≤ b.header.baseOffset ∧ b.header.baseOffset ≤ b.header.lastOffset

/-! ## Producers follow the log -/

/-- The offsets of a transaction, if it is in progress. -/
def TransactionState.openRange (t : TransactionState) : Option (Int × Int) :=
  if t.isInProgress then some (t.first, t.last) else none

namespace ProducerState

variable (p : ProducerState)

/-- The offsets of the transaction that is in progress. -/
def openRange : Option (Int × Int) :=
  p.transactionState.bind (·.openRange)

theorem hasTransactionInProgress_iff {p : ProducerState} :
    p.hasTransactionInProgress ↔ p.openRange.isSome := by
  rw [hasTransactionInProgress, openRange]
  rcases p.transactionState with - | t
  · simp
  · simp [TransactionState.openRange]

/-- What applying a batch of a producer does to the producer. -/
def applyBatch (b : RecordBatch) : Option ProducerState :=
  match b.kind with
  | .fence txSeq => some (p.applyTransactionBegin b.header ⟨b.pid, txSeq⟩)
  | .control crt => some (p.applyTransactionEnd crt).1
  | .data => p.applyData b.header b.header.lastOffset
  | .other => some p

/-- A fence is not below the epoch of the producer. -/
def AcceptsFence (b : RecordBatch) : Prop :=
  b.isFence b.pid.id → p.id.epoch ≤ b.pid.epoch
  deriving Decidable

variable {p p' : ProducerState} {b : RecordBatch} {header : RecordBatchHeader}
  {crt : ControlRecordType}

theorem applyTransactionEnd_id (p : ProducerState) (crt : ControlRecordType) :
    (p.applyTransactionEnd crt).1.id = p.id := by
  unfold applyTransactionEnd
  split <;> rfl

theorem openRange_applyTransactionEnd (h : crt ≠ .unknown) :
    (p.applyTransactionEnd crt).1.openRange = none := by
  unfold applyTransactionEnd
  split
  · exact absurd rfl h
  · rename_i ht _
    rw [openRange, ht]
    rfl
  · rfl
  · rfl

/-- The range that the end of a transaction gives. -/
theorem applyTransactionEnd_range {t : Int × Int} (h : p.openRange = some t)
    (hcrt : crt ≠ .unknown) :
    (p.applyTransactionEnd crt).2 = some ⟨p.id, t.1, t.2⟩ := by
  rw [openRange] at h
  obtain ⟨ts, hts, hopen⟩ := Option.bind_eq_some_iff.1 h
  rw [TransactionState.openRange] at hopen
  split at hopen
  · cases hopen
    unfold applyTransactionEnd
    rw [hts]
    cases crt with
    | unknown => exact absurd rfl hcrt
    | txAbort => rfl
    | txCommit => rfl
  · exact nomatch hopen

theorem raiseEpoch_eq {e : Int} (h : p.raiseEpoch e = some p') :
    p'.transactionState = p.transactionState ∧ p'.id.id = p.id.id ∧
      (p'.id.epoch = p.id.epoch ∨ p'.id.epoch = e) := by
  rw [raiseEpoch] at h
  split at h
  · rw [resetWithNewEpoch] at h
    obtain ⟨-, ⟨⟩⟩ := Option.ite_none_right_eq_some.1 h
    exact ⟨rfl, rfl, .inr rfl⟩
  · cases h
    exact ⟨rfl, rfl, .inl rfl⟩

theorem openRange_extendTransaction (t : Option TransactionState) :
    (extendTransaction t header).openRange =
      some (((t.bind (·.openRange)).map (·.1)).getD header.baseOffset, header.lastOffset) := by
  rcases t with - | t
  · rfl
  · rw [extendTransaction]
    split
    · rename_i h
      simp [TransactionState.openRange, TransactionState.isInProgress] at h ⊢
      rcases h with h | h <;> simp [h]
    · rename_i h
      simp [TransactionState.openRange, TransactionState.isInProgress] at h ⊢
      simp [h]

section

variable (h : p.applyData header header.lastOffset = some p')

include h

theorem openRange_applyData (hid : header.bid.isIdempotent) : p'.openRange =
      if header.bid.isTransactional then
        some ((p.openRange.map (·.1)).getD header.baseOffset, header.lastOffset)
      else p.openRange := by
  rw [applyData] at h
  simp only [hid, Bool.not_true, Bool.false_eq_true, if_false] at h
  obtain ⟨q, hq, rfl⟩ := Option.map_eq_some_iff.1 h
  split at hq
  · rename_i ht
    cases hq
    simp only [ht, if_true]
    exact openRange_extendTransaction _
  · rename_i ht
    simp only [ht, Bool.false_eq_true, if_false]
    rw [openRange, (raiseEpoch_eq hq).1]
    rfl

theorem applyData_id :
    p'.id.id = p.id.id ∧ (p'.id.epoch = p.id.epoch ∨ p'.id.epoch = header.bid.pid.epoch) := by
  rw [applyData] at h
  split at h
  · cases h
    exact ⟨rfl, .inl rfl⟩
  · obtain ⟨q, hq, rfl⟩ := Option.map_eq_some_iff.1 h
    have hid : q.id.id = p.id.id ∧ (q.id.epoch = p.id.epoch ∨ q.id.epoch = header.bid.pid.epoch) := by
      split at hq
      · cases hq
        exact ⟨rfl, .inl rfl⟩
      · exact (raiseEpoch_eq hq).2
    split
    · exact hid
    · exact hid

omit h in
/-- A batch changes the transaction of its producer as it does in the log. -/
theorem openRange_applyBatch (h : p.applyBatch b = some p') (hof : b.isOf b.pid.id)
    (hfence : p.AcceptsFence b) : p'.openRange = openStep b.pid.id p.openRange b := by
  rw [applyBatch] at h
  rw [openStep]
  rcases hk : b.kind with txSeq | crt | - | -
  · have hb : b.isFence b.pid.id := by simp [isFence, hk]
    rw [hk] at h
    cases h
    rw [if_pos hb, applyTransactionBegin, if_neg (not_lt.2 (hfence hb))]
    rfl
  · rw [hk] at h
    cases h
    cases crt with
    | unknown => simp [isFence, isEnd, isControl, isTxData, hk, applyTransactionEnd]
    | txAbort | txCommit => simp [isFence, isEnd, isControl, hk, openRange_applyTransactionEnd]
  · have hid : b.header.bid.isIdempotent := by simpa [isOf, hk] using hof
    rw [hk] at h
    rw [openRange_applyData h hid]
    simp [isFence, isEnd, isControl, isTxData, hk, hid]
  · simp [isOf, hk] at hof

theorem transactionState_applyData
    (hb : header.bid.isTransactional = false) : p'.transactionState = p.transactionState := by
  rw [applyData] at h
  split at h
  · cases h
    rfl
  · simp only [hb, Bool.false_eq_true, if_false] at h
    obtain ⟨q, hq, rfl⟩ := Option.map_eq_some_iff.1 h
    exact (raiseEpoch_eq hq).1

end

/-- A producer has a transaction only after a batch which begins one. -/
theorem transactionState_applyBatch (h : p.applyBatch b = some p') (hof : b.isOf b.pid.id)
    (hp : p.transactionState = none) (hb : b.begins b.pid.id = false) :
    p'.transactionState = none := by
  rw [applyBatch] at h
  rcases hk : b.kind with txSeq | crt | - | - <;> rw [hk] at h
  · simp [begins, isFence, hk] at hb
  · cases h
    unfold applyTransactionEnd
    rw [hp]
    cases crt <;> exact hp
  · have hid : b.header.bid.isIdempotent := by simpa [isOf, hk] using hof
    refine (transactionState_applyData h ?_).trans hp
    simpa [begins, isFence, isTxData, hk, hid] using hb
  · cases h
    exact hp

theorem applyBatch_id (h : p.applyBatch b = some p') (hid : p.id.id = b.pid.id) :
    p'.id.id = b.pid.id ∧ (p'.id.epoch = p.id.epoch ∨ p'.id.epoch = b.pid.epoch) := by
  rw [applyBatch] at h
  split at h
  · cases h
    rw [applyTransactionBegin]
    split
    · exact ⟨hid, .inl rfl⟩
    · exact ⟨rfl, .inr rfl⟩
  · cases h
    rw [applyTransactionEnd_id]
    exact ⟨hid, .inl rfl⟩
  · exact ⟨(applyData_id h).1.trans hid, (applyData_id h).2⟩
  · cases h
    exact ⟨hid, .inl rfl⟩

end ProducerState

/-! ## The state machine follows the log -/

theorem openStep_of_not_isOf {id : Int} {b : RecordBatch} (h : b.isOf id = false)
    (t : Option (Int × Int)) : openStep id t b = t := by
  rw [openStep]
  rcases hk : b.kind with txSeq | crt | - | - <;>
    simp [isOf, isFence, isEnd, isControl, isTxData, hk] at h ⊢
  · exact fun h' => absurd h' h
  · exact fun h' => absurd (h'.elim (·.2) (·.2)) h
  · exact fun h₁ _ h₂ => absurd h₂ (h h₁)

theorem RecordBatch.isOf_of_ne {b : RecordBatch} {id : Int} (h : id ≠ b.pid.id) :
    b.isOf id = false := by
  rcases hk : b.kind with txSeq | crt | - | - <;> simp [isOf, hk, h.symm]

namespace RmStm

variable {s s' : RmStm} {b : RecordBatch} {id : Int}

theorem maybeCreateProducer_id (s : RmStm) (pid : ProducerIdentity) :
    (s.maybeCreateProducer pid).id.id = pid.id := by
  rw [maybeCreateProducer]
  rcases h : s.producers.get pid.id with - | p
  · rfl
  · exact (OrderedStore.get_eq_some.1 h).2

/-- The offsets of the transaction of a producer that is in progress. -/
def openRange (s : RmStm) (id : Int) : Option (Int × Int) :=
  (s.producers.get id).bind (·.openRange)

theorem openRange_maybeCreateProducer (s : RmStm) (pid : ProducerIdentity) :
    (s.maybeCreateProducer pid).openRange = s.openRange pid.id := by
  rw [maybeCreateProducer, openRange]
  rcases s.producers.get pid.id with - | p
  · rfl
  · rfl

section

variable (h : s.doApply b = some s')

include h

/-- What applying a batch does to the producers. -/
theorem producers_doApply :
    (b.isOf b.pid.id = false ∧ s'.producers = s.producers) ∨
      b.isOf b.pid.id ∧ ∃ p, (s.maybeCreateProducer b.pid).applyBatch b = some p ∧
        s'.producers = s.producers.put p := by
  rw [doApply] at h
  rcases hk : b.kind with txSeq | crt | - | - <;> simp only [hk] at h
  · cases h
    exact .inr ⟨by simp [isOf, hk], _, by rw [ProducerState.applyBatch, hk]; rfl, rfl⟩
  · cases h
    exact .inr ⟨by simp [isOf, hk], _, by rw [ProducerState.applyBatch, hk]; rfl, rfl⟩
  · rw [applyData] at h
    split at h
    · rename_i hid
      cases h
      exact .inl ⟨by simpa [isOf, hk] using hid, rfl⟩
    · rename_i hid
      obtain ⟨p, hp, rfl⟩ := Option.map_eq_some_iff.1 h
      exact .inr ⟨by simpa [isOf, hk] using hid, p,
        by rw [ProducerState.applyBatch, hk]; exact hp, rfl⟩
  · cases h
    exact .inl ⟨by simp [isOf, hk], rfl⟩

/-- A batch does not change the transactions of other producers. -/
theorem openRange_doApply_of_ne (hne : id ≠ b.pid.id) : s'.openRange id = s.openRange id := by
  rcases producers_doApply h with ⟨-, hp⟩ | ⟨-, p, hp, hput⟩
  · rw [openRange, hp, openRange]
  · have hid := (ProducerState.applyBatch_id hp (s.maybeCreateProducer_id b.pid)).1
    rw [openRange, hput, OrderedStore.get_put_of_ne (hid ▸ hne), openRange]

/-- The state machine has the transactions open that are open in the log. -/
theorem openRange_doApply (hfence : (s.maybeCreateProducer b.pid).AcceptsFence b) (id : Int) :
    s'.openRange id = openStep id (s.openRange id) b := by
  by_cases hne : id = b.pid.id
  · subst hne
    rcases producers_doApply h with ⟨hof, hp⟩ | ⟨hof, p, hp, hput⟩
    · rw [openRange, hp, ← openRange, openStep_of_not_isOf hof]
    · have hid := (ProducerState.applyBatch_id hp (s.maybeCreateProducer_id b.pid)).1
      rw [openRange, hput, ← hid, OrderedStore.get_put_self, Option.bind_some,
        ProducerState.openRange_applyBatch hp hof hfence, openRange_maybeCreateProducer, hid]
  · rw [openRange_doApply_of_ne h hne, openStep_of_not_isOf (RecordBatch.isOf_of_ne hne)]

theorem lastKnownLso_doApply : s'.lastKnownLso = s.lastKnownLso := by
  rw [doApply] at h
  rcases hk : b.kind with txSeq | crt | - | - <;> simp only [hk] at h
  · cases h
    rfl
  · cases h
    rfl
  · rw [applyData] at h
    split at h
    · cases h
      rfl
    · obtain ⟨p, -, rfl⟩ := Option.map_eq_some_iff.1 h
      rfl
  · cases h
    rfl

end

/-- Reading the last stable offset does not change transactions. -/
theorem openRange_lastStableOffset (s : RmStm) (b₁ b₂ b₃ b₄ : Bool) (v a : Int) (id : Int) :
    (s.lastStableOffset b₁ b₂ b₃ b₄ v a).1.openRange id = s.openRange id := by
  rw [lastStableOffset]
  split
  · rfl
  · split
    · rfl
    · split
      · rfl
      · rfl

end RmStm

end Redpanda.Cluster
