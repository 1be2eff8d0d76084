import Mathlib

/-!
# The state of a producer on a partition

What a replica of a partition remembers about a producer (`producer_state`): its epoch, the
last requests that write its batches, and its last transaction.

The requests (`requests`) are in two queues. A request is *in flight* from its acceptance until
the batch that it writes is applied from the log, and then *finished*. Batches are recognized by
their sequence numbers: a batch with the numbers of a known request is answered with the
result of that request, and any other one has to continue where the last one ended.

A request is shared by the queues, the fiber that writes its batch and the fibers that wait for
its result. What changes of it, its state and result, is therefore kept aside
(`Requests.states`), and the request refers to it by a number (`Request.promise`).

Time (`_last_updated_ts`), eviction and the timeout and coordinator of a transaction are
left out. Assertions which fail stop the process, and have no result here (`none`).
-/

namespace Redpanda.Cluster

open List

/-! ## Batches -/

/-- `std::numeric_limits<int32_t>::max()`. -/
def int32Max : Int := 2 ^ 31 - 1

/-- `next_sequence`. -/
def nextSequence (sequence : Int) : Int :=
  if sequence = int32Max then 0 else sequence + 1

/-- `increment_sequence`. -/
def incrementSequence (sequence increment : Int) : Int :=
  if sequence > int32Max - increment then increment - (int32Max - sequence) - 1
  else sequence + increment

/-- The id of a producer and the epoch of its instance. -/
@[ext]
structure ProducerIdentity where
  id : Int
  epoch : Int
  deriving DecidableEq

/-- The parts of `record_batch_header` that are looked at. The base offset and the term are
    set when the batch is appended to the log. -/
structure RecordBatchHeader where
  baseOffset : Int := 0
  lastOffsetDelta : Int := 0
  producerId : Int := -1
  producerEpoch : Int := -1
  baseSequence : Int := -1
  isTransactional : Bool := false
  term : Nat := 0
  deriving DecidableEq

def RecordBatchHeader.lastOffset (h : RecordBatchHeader) : Int := h.baseOffset + h.lastOffsetDelta

/-- What tells a batch of a producer from others. -/
structure BatchIdentity where
  pid : ProducerIdentity
  firstSeq : Int
  lastSeq : Int
  isTransactional : Bool
  deriving DecidableEq

namespace BatchIdentity

/-- `batch_identity::from`. -/
def fromHeader (hdr : RecordBatchHeader) : BatchIdentity where
  pid := ⟨hdr.producerId, hdr.producerEpoch⟩
  firstSeq := hdr.baseSequence
  lastSeq := incrementSequence hdr.baseSequence hdr.lastOffsetDelta
  isTransactional := hdr.isTransactional

/-- `is_idempotent`, with `no_producer_id` being -1. -/
def isIdempotent (bid : BatchIdentity) : Bool := -1 < bid.pid.id

end BatchIdentity

abbrev RecordBatchHeader.bid (h : RecordBatchHeader) : BatchIdentity := .fromHeader h

/-! ## Requests -/

/-- The errors that requests end with. -/
inductive Errc
  | timeout
  | sequenceOutOfOrder
  | replicationError
  | invalidProducerEpoch
  deriving DecidableEq

/-- Where a batch is in the log. -/
structure KafkaResult where
  lastOffset : Int
  lastTerm : Option Nat := none
  deriving DecidableEq

/-- `request_state`, with the result when there is one. -/
inductive RequestState
  | initialized
  | inProgress
  | completed (result : Except Errc KafkaResult)

namespace RequestState

def isInitialized : RequestState → Bool
  | initialized => true
  | _ => false

/-- `has_completed`. -/
def hasCompleted : RequestState → Bool
  | completed _ => true
  | _ => false

def hasFailed : RequestState → Bool
  | completed (.error _) => true
  | _ => false

/-- `set_value` and `set_error`: only the first result counts. -/
def complete (s : RequestState) (result : Except Errc KafkaResult) : RequestState :=
  match s with
  | completed r => completed r
  | _ => completed result

end RequestState

/-- A request with the sequence numbers of its batch and the term it was submitted in. -/
structure Request where
  first : Int
  last : Int
  term : Nat
  promise : Nat
  deriving DecidableEq

/-- The requests of a producer. Each is known by the number of its promise. -/
structure Requests where
  inflight : List Request := []
  finished : List Request := []
  /-- The states of the requests that were made. -/
  states : Nat → RequestState := fun _ => .initialized
  /-- How many requests were made. -/
  made : Nat := 0

namespace Requests

variable (r : Requests) (bid : BatchIdentity) (first last : Int) (term : Nat)

/-- `requests_cached_max`. -/
def cachedMax : Nat := 5

/-- `set_value` or `set_error` of some requests. -/
def completeAll (states : Nat → RequestState) (result : Except Errc KafkaResult)
    (qs : List Request) : Nat → RequestState :=
  fun p => if p ∈ qs.map Request.promise then (states p).complete result else states p

def setResult (q : Request) (result : Except Errc KafkaResult) : Requests :=
  { r with states := completeAll r.states result [q] }

/-- `mark_request_in_progress`. -/
def markInProgress (q : Request) : Requests :=
  { r with states := Function.update r.states q.promise .inProgress }

/-- `last_request`. -/
def lastRequest : Option Request :=
  if r.inflight = [] then r.finished.getLast? else r.inflight.getLast?

/-- `is_valid_sequence`. -/
def isValidSequence (incoming : Int) : Bool :=
  match r.lastRequest with
  | none => incoming = 0
  | some q => incoming = nextSequence q.last

/-- `reset`. -/
def reset (error : Errc) : Requests :=
  { r with
    inflight := []
    finished := []
    states := completeAll r.states (.error error) r.inflight }

/-- `gc_requests_from_older_terms`. -/
def gcRequestsFromOlderTerms (currentTerm : Nat) : Requests :=
  { r with
    inflight := r.inflight.dropWhile (·.term < currentTerm)
    states := completeAll r.states (.error .timeout)
      (r.inflight.takeWhile (·.term < currentTerm)) }

/-- The loop of `try_emplace` which drops the oldest requests in flight. -/
def dropOldest (states : Nat → RequestState) : List Request → List Request
  | [] => []
  | q :: qs =>
    if cachedMax < (q :: qs).length && (states q.promise).hasCompleted then dropOldest states qs
    else q :: qs

/-- The request that is made next. -/
def make : Request := ⟨first, last, term, r.made⟩

/-- The end of `try_emplace`: a new request is put into the queue. When others are dropped for
    it, the finished ones are forgotten. -/
def emplace : Requests :=
  let inflight := r.inflight ++ [r.make first last term]
  let states := Function.update r.states r.made .initialized
  { inflight := dropOldest states inflight
    finished :=
      if (dropOldest states inflight).length < inflight.length then [] else r.finished
    states := states
    made := r.made + 1 }

/-- `try_emplace`. -/
def tryEmplace (current : Nat) (resetSequences : Bool) : Requests × Except Errc Request :=
  if resetSequences then
    ((r.reset .timeout).emplace first last current,
      .ok ((r.reset .timeout).make first last current))
  else
    let r := r.gcRequestsFromOlderTerms current
    match r.finished.find? fun q => q.first = first && q.last = last with
    | some q => (r, .ok q)
    | none =>
      match r.inflight.find? fun q => q.first = first && q.last = last && q.term = current with
      | some q => (r, .ok q)
      | none =>
        if r.isValidSequence first then
          (r.emplace first last current, .ok (r.make first last current))
        else (r, .error .sequenceOutOfOrder)

/-- The part of `stm_apply` before older requests are dropped: the request that wrote the
    batch is not in flight any more. -/
def promote : Requests :=
  match r.inflight with
  | [] => r
  | q :: qs =>
    if q.first = bid.firstSeq && q.last = bid.lastSeq then { r with inflight := qs } else r

/-- A finished request with an offset is put into the queue of these. -/
def finish (offset : Int) : Requests :=
  let finished := r.finished ++ [r.make first last term]
  { r with
    finished := finished.drop (finished.length - cachedMax)
    states := Function.update r.states r.made (.completed (.ok { lastOffset := offset }))
    made := r.made + 1 }

/-- `stm_apply`. -/
def stmApply (offset : Int) : Requests :=
  ((r.promote bid).gcRequestsFromOlderTerms term).finish bid.firstSeq bid.lastSeq term offset

/-! ### What the operations do to the queues -/

variable {r : Requests} {states : Nat → RequestState} {result : Except Errc KafkaResult}
  {qs : List Request} {q : Request} {bid : BatchIdentity} {t : Nat}

/-- A request that succeeds has done so before. -/
theorem eq_ok_of_completeAll_error {p : Nat} {ec : Errc} {v : KafkaResult}
    (h : completeAll states (.error ec) qs p = .completed (.ok v)) :
    states p = .completed (.ok v) := by
  rw [completeAll] at h
  split at h
  · cases hp : states p <;> simp_all [RequestState.complete]
  · exact h

theorem isInitialized_completeAll {p : Nat} (h : (states p).isInitialized = false) :
    (completeAll states result qs p).isInitialized = false := by
  rw [completeAll]
  split
  · cases hp : states p <;> simp_all [RequestState.complete, RequestState.isInitialized]
  · exact h

theorem mem_gcRequestsFromOlderTerms
    (h : q ∈ (r.gcRequestsFromOlderTerms t).inflight) : q ∈ r.inflight :=
  (dropWhile_suffix _).subset h

theorem inflight_gcRequestsFromOlderTerms_of_lt (h : ∀ q ∈ r.inflight, q.term < t) :
    (r.gcRequestsFromOlderTerms t).inflight = [] := by
  refine dropWhile_eq_nil_iff.2 fun q hq => ?_
  simpa using h q hq

theorem inflight_gcRequestsFromOlderTerms_of_le (h : ∀ q ∈ r.inflight, t ≤ q.term) :
    (r.gcRequestsFromOlderTerms t).inflight = r.inflight := by
  rcases hr : r.inflight with _ | ⟨q, qs⟩
  · simp [gcRequestsFromOlderTerms, hr]
  · have hq : ¬ q.term < t := (h q (by simp [hr])).not_gt
    simp [gcRequestsFromOlderTerms, hr, hq]

/-- The oldest requests go first. -/
theorem dropOldest_isSuffix (states : Nat → RequestState) :
    ∀ qs : List Request, dropOldest states qs <:+ qs
  | [] => suffix_rfl
  | q :: qs => by
    rw [dropOldest]
    split
    · exact (dropOldest_isSuffix states qs).trans (suffix_cons q qs)
    · exact suffix_rfl

/-- Requests are dropped only from more than five. -/
theorem dropOldest_ne_nil (states : Nat → RequestState) :
    ∀ {qs : List Request}, qs ≠ [] → dropOldest states qs ≠ []
  | [], h => absurd rfl h
  | q :: qs, _ => by
    rw [dropOldest]
    split
    · rename_i h
      -- More than five requests are left.
      refine dropOldest_ne_nil states fun hqs => ?_
      simp [hqs, cachedMax] at h
    · simp

/-- Requests are dropped only if there are too many and the oldest one is completed. -/
theorem exists_of_length_dropOldest_lt (h : (dropOldest states qs).length < qs.length) :
    ∃ q ∈ qs.head?, cachedMax < qs.length ∧ (states q.promise).hasCompleted := by
  rcases qs with _ | ⟨q, qs⟩
  · simp [dropOldest] at h
  · rw [dropOldest] at h
    split at h
    · rename_i hq
      exact ⟨q, rfl, by simpa using hq⟩
    · exact absurd h (lt_irrefl _)

/-- If one is dropped, five are left. -/
theorem cachedMax_le_length_dropOldest {states : Nat → RequestState} :
    ∀ {qs : List Request}, (dropOldest states qs).length < qs.length →
      cachedMax ≤ (dropOldest states qs).length
  | [], h => absurd h (by simp [dropOldest])
  | q :: qs, h => by
    rw [dropOldest] at h ⊢
    split at h
    · rename_i hq
      rw [if_pos hq]
      by_cases hlt : (dropOldest states qs).length < qs.length
      · exact cachedMax_le_length_dropOldest hlt
      · -- This was the last one that is dropped.
        have hlen : cachedMax < (q :: qs).length := by
          simp only [Bool.and_eq_true, decide_eq_true_eq] at hq
          exact hq.1
        rw [length_cons] at hlen
        omega
    · exact absurd h (lt_irrefl _)

/-- The newest request stays in the queue, and is the only one if it was it before. -/
theorem dropOldest_append_singleton (states : Nat → RequestState) (qs : List Request)
    (q : Request) : ∃ qs', dropOldest states (qs ++ [q]) = qs' ++ [q] ∧ qs' <:+ qs ∧
      (qs' = [] → qs = []) := by
  obtain ⟨old, hold⟩ := dropOldest_isSuffix states (qs ++ [q])
  obtain ⟨qs', q', hqs'⟩ := eq_nil_or_concat (dropOldest states (qs ++ [q]))
    |>.resolve_left (dropOldest_ne_nil states (by simp))
  rw [concat_eq_append] at hqs'
  rw [hqs', ← append_assoc] at hold
  obtain ⟨hqs, hq⟩ := append_inj' hold rfl
  obtain rfl : q' = q := by simpa using hq
  refine ⟨qs', hqs', ⟨old, hqs⟩, fun hnil => ?_⟩
  by_contra hne
  -- More than one request was in the queue, so five would be left.
  have hlt : (dropOldest states (qs ++ [q'])).length < (qs ++ [q']).length := by
    rw [hqs', hnil]
    simpa using length_pos_iff.2 hne
  have hlen := cachedMax_le_length_dropOldest hlt
  simp [hqs', hnil, cachedMax] at hlen

/-- The three outcomes of `tryEmplace`, if the sequence numbers are checked: a known request is
    returned, a new one is put into the queue, or the batch is not the next one. -/
theorem tryEmplace_cases (r : Requests) (first last : Int) (t : Nat) :
    (∃ q, (q ∈ r.finished ∨ q ∈ (r.gcRequestsFromOlderTerms t).inflight) ∧
      q.first = first ∧ q.last = last ∧
      r.tryEmplace first last t false = (r.gcRequestsFromOlderTerms t, .ok q)) ∨
    ((∀ q ∈ (r.gcRequestsFromOlderTerms t).inflight, q.first = first → q.last = last → q.term ≠ t) ∧
      (r.gcRequestsFromOlderTerms t).isValidSequence first ∧
      r.tryEmplace first last t false =
        ((r.gcRequestsFromOlderTerms t).emplace first last t,
          .ok ((r.gcRequestsFromOlderTerms t).make first last t))) ∨
    r.tryEmplace first last t false =
      (r.gcRequestsFromOlderTerms t, .error .sequenceOutOfOrder) := by
  rw [tryEmplace, if_neg Bool.false_ne_true]
  rcases hf : (r.gcRequestsFromOlderTerms t).finished.find? fun q =>
    q.first = first && q.last = last with _ | q
  · rcases hi : (r.gcRequestsFromOlderTerms t).inflight.find? fun q =>
      q.first = first && q.last = last && q.term = t with _ | q
    · by_cases hv : (r.gcRequestsFromOlderTerms t).isValidSequence first
      · refine .inr (.inl ⟨fun q hq h₁ h₂ h₃ => ?_, hv, by simp only [hf, hi, if_pos hv]⟩)
        have := find?_eq_none.1 hi q hq
        simp [h₁, h₂, h₃] at this
      · exact .inr (.inr (by simp only [hf, hi, if_neg hv]))
    · have hq := find?_some hi
      simp only [Bool.and_eq_true, decide_eq_true_eq] at hq
      exact .inl ⟨q, .inr (mem_of_find?_eq_some hi), hq.1.1, hq.1.2, by simp only [hf, hi]⟩
  · have hq := find?_some hf
    simp only [Bool.and_eq_true, decide_eq_true_eq] at hq
    exact .inl ⟨q, .inl (mem_of_find?_eq_some hf), hq.1, hq.2, by simp only [hf]⟩

/-- The oldest request is finished by its own batch. -/
theorem inflight_promote_of_eq (h : r.inflight = q :: qs)
    (hf : q.first = bid.firstSeq) (hl : q.last = bid.lastSeq) : (r.promote bid).inflight = qs := by
  simp [promote, h, hf, hl]

/-- It stays if the batch is another one. -/
theorem inflight_promote_of_ne (h : r.inflight = q :: qs)
    (hne : q.first = bid.firstSeq → q.last ≠ bid.lastSeq) : (r.promote bid).inflight = q :: qs := by
  have hne' : ¬ (q.first = bid.firstSeq ∧ q.last = bid.lastSeq) := fun hq => hne hq.1 hq.2
  simp [promote, h, hne']

variable (r) (bid) (t)

theorem promote_isSuffix : (r.promote bid).inflight <:+ r.inflight := by
  rw [promote]
  split
  · exact suffix_rfl
  · rename_i q qs h
    split
    · rw [h]
      exact suffix_cons q qs
    · exact suffix_rfl

/-- Only the requests in flight change. -/
theorem promote_frame : (r.promote bid).finished = r.finished ∧ (r.promote bid).made = r.made ∧
      (r.promote bid).states = r.states := by
  rw [promote]
  split
  · simp
  · split <;> simp

/-- The batch that is applied is the last finished one. -/
theorem finished_stmApply (o : Int) :
    ∃ qs, (r.stmApply bid t o).finished = qs ++ [r.make bid.firstSeq bid.lastSeq t] ∧
      qs <:+ r.finished := by
  refine ⟨r.finished.drop (r.finished.length + 1 - cachedMax), ?_, drop_suffix _ _⟩
  simp only [stmApply, finish, gcRequestsFromOlderTerms, make, promote_frame, length_append,
    length_singleton]
  refine drop_append_of_le_length ?_
  simp only [cachedMax]
  omega

/-! ### Queues that lose requests in flight -/

/-- Some of the oldest requests in flight are gone. -/
structure Shrinks (r r' : Requests) : Prop where
  inflight : r'.inflight <:+ r.inflight
  made_le : r.made ≤ r'.made
  isInitialized : ∀ p < r.made, (r.states p).isInitialized = false →
    (r'.states p).isInitialized = false

/-- No request has succeeded since. -/
def NoneSucceeds (r r' : Requests) : Prop :=
  ∀ p < r.made, ∀ v, r'.states p = .completed (.ok v) → r.states p = .completed (.ok v)

variable {r' r'' : Requests}

theorem Shrinks.refl : r.Shrinks r := ⟨suffix_rfl, le_rfl, fun _ _ h => h⟩

theorem Shrinks.trans {r : Requests} (h : r.Shrinks r') (h' : r'.Shrinks r'') : r.Shrinks r'' where
  inflight := h'.inflight.trans h.inflight
  made_le := h.made_le.trans h'.made_le
  isInitialized p hp hi := h'.isInitialized p (hp.trans_le h.made_le) (h.isInitialized p hp hi)

theorem shrinks_gcRequestsFromOlderTerms : r.Shrinks (r.gcRequestsFromOlderTerms t) :=
  ⟨dropWhile_suffix _, le_rfl, fun _ _ h => isInitialized_completeAll h⟩

theorem noneSucceeds_gcRequestsFromOlderTerms :
    r.NoneSucceeds (r.gcRequestsFromOlderTerms t) :=
  fun _ _ _ h => eq_ok_of_completeAll_error h

theorem shrinks_setResult (q : Request) (result : Except Errc KafkaResult) :
    r.Shrinks (r.setResult q result) :=
  ⟨suffix_rfl, le_rfl, fun _ _ h => isInitialized_completeAll h⟩

theorem shrinks_stmApply (o : Int) : r.Shrinks (r.stmApply bid t o) := by
  have hpromote : r.Shrinks (r.promote bid) :=
    ⟨r.promote_isSuffix bid, (r.promote_frame bid).2.1.ge,
      fun p _ h => (r.promote_frame bid).2.2 ▸ h⟩
  refine (hpromote.trans (shrinks_gcRequestsFromOlderTerms _ t)).trans ?_
  refine ⟨suffix_rfl, Nat.le_succ _, fun p hp h => ?_⟩
  simpa [stmApply, finish, Function.update_of_ne hp.ne] using h

theorem noneSucceeds_stmApply (o : Int) : r.NoneSucceeds (r.stmApply bid t o) := by
  intro p hp v h
  -- The request that is made for the batch is another one.
  have hne : p ≠ ((r.promote bid).gcRequestsFromOlderTerms t).made := by
    simp only [gcRequestsFromOlderTerms, promote_frame]
    exact hp.ne
  simp only [stmApply, finish, Function.update_of_ne hne] at h
  exact (r.promote_frame bid).2.2 ▸ eq_ok_of_completeAll_error h

end Requests

/-! ## Transactions -/

/-- `partition_transaction_status`. -/
inductive TransactionStatus
  | initialized
  | ongoing
  | committed
  | aborted
  deriving DecidableEq

/-- `producer_partition_transaction_state`. -/
structure TransactionState where
  first : Int
  last : Int
  sequence : Int
  status : TransactionStatus
  deriving DecidableEq

/-- `is_in_progress`. -/
def TransactionState.isInProgress (t : TransactionState) : Bool :=
  t.status = .ongoing || t.status = .initialized

/-- The parts of `fence_batch_data` that are looked at. -/
structure FenceBatchData where
  pid : ProducerIdentity
  txSeq : Option Int
  deriving DecidableEq

inductive ControlRecordType
  | txAbort
  | txCommit
  | unknown
  deriving DecidableEq

structure TxRange where
  pid : ProducerIdentity
  first : Int
  last : Int
  deriving DecidableEq

/-! ## Producers -/

/-- What is known of a producer. -/
structure ProducerState where
  id : ProducerIdentity
  requests : Requests := {}
  transactionState : Option TransactionState := none

namespace ProducerState

variable (p : ProducerState)

/-- `has_transaction_in_progress`. -/
def hasTransactionInProgress : Bool :=
  p.transactionState.any (·.isInProgress)

/-- `get_transaction_sequence`. -/
def getTransactionSequence : Option Int :=
  if p.hasTransactionInProgress then p.transactionState.map (·.sequence) else none

/-- `reset_with_new_epoch`. -/
def resetWithNewEpoch (newEpoch : Int) : Option ProducerState :=
  if p.id.epoch < newEpoch ∧ ¬ p.hasTransactionInProgress then
    some { p with requests := p.requests.reset .timeout, id := ⟨p.id.id, newEpoch⟩ }
  else none

/-- The epoch is raised to the one of a batch, if that is higher. -/
def raiseEpoch (epoch : Int) : Option ProducerState :=
  if p.id.epoch < epoch then p.resetWithNewEpoch epoch else some p

/-- `try_emplace_request`. -/
def tryEmplaceRequest (bid : BatchIdentity) (currentTerm : Nat)
    (reset : Bool) : ProducerState × Except Errc Request :=
  if bid.firstSeq < 0 || bid.lastSeq < 0 then (p, .error .sequenceOutOfOrder)
  else
    let (requests, result) := p.requests.tryEmplace bid.firstSeq bid.lastSeq currentTerm reset
    ({ p with requests := requests }, result)

/-- What a transactional batch does to the transaction state. A transaction which is not in
    progress is possible if the batch that began it was truncated. -/
def extendTransaction (t : Option TransactionState) (header : RecordBatchHeader) :
    TransactionState :=
  match t with
  | some t =>
    if t.isInProgress then { t with last := header.lastOffset, status := .ongoing }
    else ⟨header.baseOffset, header.lastOffset, -1, .ongoing⟩
  | none => ⟨header.baseOffset, header.lastOffset, -1, .ongoing⟩

/-- `apply_data`. -/
def applyData (header : RecordBatchHeader) (offset : Int) : Option ProducerState :=
  let bid := header.bid
  if !bid.isIdempotent then some p
  else
    (if bid.isTransactional then some p else p.raiseEpoch bid.pid.epoch).map fun p =>
      let p := { p with requests := p.requests.stmApply bid header.term offset }
      if bid.isTransactional then
        { p with transactionState := extendTransaction p.transactionState header }
      else p

/-- `apply_transaction_begin`. -/
def applyTransactionBegin (header : RecordBatchHeader) (batch : FenceBatchData) : ProducerState :=
  if batch.pid.epoch < p.id.epoch then p
  else
    { p with
      id := batch.pid
      transactionState :=
        some ⟨header.baseOffset, header.lastOffset, batch.txSeq.getD 0, .initialized⟩ }

/-- `apply_transaction_end`. -/
def applyTransactionEnd (crt : ControlRecordType) : ProducerState × Option TxRange :=
  match p.transactionState, crt with
  | _, .unknown => (p, none)
  | none, _ => (p, none)
  | some t, .txCommit =>
    ({ p with transactionState := some { t with status := .committed } },
      some ⟨p.id, t.first, t.last⟩)
  | some t, .txAbort =>
    ({ p with transactionState := some { t with status := .aborted } },
      some ⟨p.id, t.first, t.last⟩)

end ProducerState

end Redpanda.Cluster
