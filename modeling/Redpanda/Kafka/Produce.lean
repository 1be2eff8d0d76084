import Redpanda.Lib.Run
import Redpanda.Model.Record

/-!
# The produce handler

Writing one record batch to a topic partition: `produce_topic_partition` routes
the batch to a partition by counting messages, and
`do_produce_topic_partition` validates it, looks for keys which were seen
before, and appends it to the partition where it is led.

The keys seen (`seen_keys`), the message counter and the file of failed events
outlive a request: they belong to the shard handling the requests (`Shard`).
What the handler asks of other components while handling a request, namely the
validation of the batch and of its schema ids, the shard and leadership of the
partition and the outcome of the replication, comes with the request
(`Surroundings`), and so may be anything.

The acknowledgement level, timeouts, probes and logs do not decide what is
answered and are left out.
-/

namespace Redpanda.Kafka

open Lib

abbrev Key := List UInt8
abbrev Topic := String

/-- The error codes the handler answers with (`error_code`). -/
inductive ErrorCode
  | none
  | corruptMessage
  | unknownTopicOrPartition
  | notLeaderForPartition
  | requestTimedOut
  | messageTooLarge
  | invalidTimestamp
  | invalidRequest
  | policyViolation
  | outOfOrderSequenceNumber
  | invalidProducerEpoch
  | invalidRecord
  | unknownServerError
  | other (code : Nat)
  deriving DecidableEq

/-- An error code other than `none`. -/
abbrev KafkaError := { ec : ErrorCode // ec ≠ .none }

structure Record where
  key : Option Key
  value : Option (List UInt8)
  deriving DecidableEq

/-- The keys of the records which have one, in order. -/
def keysOf (records : List Record) : List Key := records.filterMap (·.key)

/-- A record batch as received. -/
structure Batch where
  compressed : Bool
  sizeBytes : Nat
  /-- What iterating over the records gives, `none` if they are malformed. -/
  records : Option (List Record)
  deriving DecidableEq

/-! ## Errors of the replication -/

inductive RaftErrc
  | notLeader
  | replicatedEntryTruncated
  | shuttingDown
  | invalidInputRecords
  | other
  deriving DecidableEq

inductive ClusterErrc
  | notLeader
  | topicNotExists
  | partitionNotExists
  | invalidProducerEpoch
  | sequenceOutOfOrder
  | invalidRequest
  | producerIdsVclusterLimitExceeded
  | genericTxError
  | other
  deriving DecidableEq

/-- The error of a failed replication, by its category. -/
inductive ReplicateError
  | raft (e : RaftErrc)
  | cluster (e : ClusterErrc)
  | kafka (e : KafkaError)
  | otherCategory
  /-- The future of the replication failed. -/
  | exception
  deriving DecidableEq

/-- `map_produce_error_code`, and the code a failed future is answered with. -/
def mapProduceErrorCode : ReplicateError → ErrorCode
  | .raft .notLeader => .notLeaderForPartition
  | .raft .replicatedEntryTruncated => .notLeaderForPartition
  -- the replication may have succeeded
  | .raft .shuttingDown => .requestTimedOut
  | .raft .invalidInputRecords => .invalidRecord
  | .raft .other => .requestTimedOut
  | .cluster .notLeader => .notLeaderForPartition
  | .cluster .topicNotExists => .unknownTopicOrPartition
  | .cluster .partitionNotExists => .unknownTopicOrPartition
  | .cluster .invalidProducerEpoch => .invalidProducerEpoch
  | .cluster .sequenceOutOfOrder => .outOfOrderSequenceNumber
  | .cluster .invalidRequest => .invalidRequest
  | .cluster .producerIdsVclusterLimitExceeded => .policyViolation
  | .cluster .genericTxError => .unknownServerError
  | .cluster .other => .requestTimedOut
  | .kafka e => e
  | .otherCategory => .requestTimedOut
  | .exception => .requestTimedOut

/-- No failed replication is answered as a success. -/
theorem mapProduceErrorCode_ne_none (e : ReplicateError) : mapProduceErrorCode e ≠ .none := by
  cases e with
  | raft e | cluster e => cases e <;> simp [mapProduceErrorCode]
  | kafka e => exact e.2
  | otherCategory | exception => simp [mapProduceErrorCode]

/-! ## Requests and the state of a shard -/

/-- The partition of a topic in the kafka namespace (`model::ntp`). -/
structure Ntp where
  topic : Topic
  partition : Int
  deriving DecidableEq

/-- What the other components answer while a request is handled. -/
structure Surroundings where
  /-- The error and message of `validate_batch`. -/
  validation : Option (KafkaError × String)
  /-- The answer of the schema id validator, if the topic has one. -/
  schemaIdValidation : Option ErrorCode
  /-- The shard of the partition, `none` if it is not found. -/
  shardFor : Option Nat
  /-- The partition is on its shard and led there. -/
  isLeader : Bool
  /-- The last offset of the replicated batch. -/
  replicate : Except ReplicateError Int
  deriving DecidableEq

/-- One partition of a produce request. -/
structure ProduceRequest where
  topic : Topic
  partitionIndex : Int
  batch : Batch
  batchMaxBytes : Nat
  surroundings : Surroundings
  deriving DecidableEq

structure PartitionResponse where
  partitionIndex : Int
  errorCode : ErrorCode
  errorMessage : Option String
  baseOffset : Option Int
  deriving DecidableEq

/-- How a request ends: with a response, or with an exception, which leaves it
    without one. -/
inductive Answer
  | response (r : PartitionResponse)
  | exception
  deriving DecidableEq

/-- An entry of the file of failed events. -/
structure FailedEvent where
  eventType : String
  key : Key
  topic : Topic
  deriving DecidableEq

/-- A batch handed to `partition_append`, and whether its replication succeeded. -/
structure Append where
  ntp : Ntp
  records : List Record
  stored : Bool
  deriving DecidableEq

/-- The state of a shard kept across requests. The last two fields are the
    history of the shard, which the handler does not read. -/
structure Shard where
  seenKeys : List Key
  /-- An `int`. -/
  messageCounter : Int
  failedEvents : List FailedEvent
  /-- The topics whose batches made the keys seen. -/
  seenFor : List (Topic × Key)
  appends : List Append
  deriving DecidableEq

/-- The shard at the start of the process. -/
def Shard.init : Shard := ⟨[], 0, [], [], []⟩

/-! ## Handling a request -/

/-- The loop over the records looking for a key seen before: the keys it inserts,
    and the key it stops at. -/
def detectDuplicate (seen : List Key) : List Record → List Key × Option Key
  | [] => ([], none)
  | r :: rs =>
    match r.key with
    | none => detectDuplicate seen rs
    | some k =>
      if k ∈ seen then ([], some k)
      else
        let (inserted, duplicate) := detectDuplicate (k :: seen) rs
        (k :: inserted, duplicate)

variable (s : Shard)

/-- The keys are inserted into those seen, for a batch of the topic. -/
def Shard.remember (topic : Topic) (keys : List Key) : Shard :=
  { s with
    seenKeys := keys ++ s.seenKeys
    seenFor := keys.map (topic, ·) ++ s.seenFor }

/-- `partition_append`: the response for the outcome of the replication. -/
def partitionAppend (id : Int) (numRecords : Nat) : Except ReplicateError Int → PartitionResponse
  | .ok lastOffset => ⟨id, .none, none, some (lastOffset - (numRecords - 1))⟩
  | .error e => ⟨id, mapProduceErrorCode e, none, none⟩

/-- The size check, in 32 bits and with five times the configured maximum. -/
def exceedsMaxBytes (batchSize batchMaxBytes : Nat) : Bool :=
  batchMaxBytes * 5 % 2 ^ 32 < batchSize % 2 ^ 32

/-- What follows the detection of duplicates: the size and schema checks, and
    appending on the shard of the partition. -/
def appendOnShard (ntp : Ntp) (req : ProduceRequest) (records : List Record) :
    Shard × PartitionResponse :=
  let finalize (ec : ErrorCode) (msg : Option String) : PartitionResponse :=
    ⟨ntp.partition, ec, msg, none⟩
  let batchSize := req.batch.sizeBytes
  let batchMaxBytes := req.batchMaxBytes
  if exceedsMaxBytes batchSize batchMaxBytes then
    (s, finalize .messageTooLarge (some s!"batch size {batchSize} exceeds max {batchMaxBytes}"))
  else
    match req.surroundings.schemaIdValidation.getD .none with
    | .none =>
      match req.surroundings.shardFor with
      -- logged as a fake success
      | none => (s, finalize .none none)
      | some _ =>
        if req.surroundings.isLeader then
          let stored := req.surroundings.replicate.toBool
          ({ s with appends := s.appends ++ [⟨ntp, records, stored⟩] },
            partitionAppend ntp.partition records.length req.surroundings.replicate)
        else (s, finalize .notLeaderForPartition none)
    | ec => (s, finalize ec none)

/-- `do_produce_topic_partition`. There is no result if the records of a compressed
    batch would be iterated over, which is an assertion failure. -/
def doProduceTopicPartition (ntp : Ntp) (req : ProduceRequest) : Option (Shard × Answer) :=
  match req.surroundings.validation with
  | some (ec, msg) => some (s, .response ⟨ntp.partition, ec, some msg, none⟩)
  | none =>
    if req.batch.compressed then none
    else match req.batch.records with
      | none => some (s, .exception)
      | some records =>
        let (inserted, duplicate) := detectDuplicate s.seenKeys records
        let s := s.remember ntp.topic inserted
        match duplicate with
        | some k =>
          let s := { s with failedEvents := s.failedEvents ++ [⟨"DUPLICATE", k, ntp.topic⟩] }
          some (s, .response ⟨ntp.partition, .none, none, none⟩)
        | none =>
          let (s, r) := appendOnShard s ntp req records
          some (s, .response r)

/-- The partition the next batch is routed to, whichever was requested. -/
def dynamicPartition (messageCounter : Int) : Int :=
  if 50 < messageCounter ∧ messageCounter ≤ 100 then 1
  else if 100 < messageCounter then 2
  else 0

/-- The message counter has 32 bits, and is taken to wrap around. -/
def nextMessage (messageCounter : Int) : Int :=
  Model.toInt32 (messageCounter + 1)

/-- The shard with one more message counted. -/
def Shard.count : Shard := { s with messageCounter := nextMessage s.messageCounter }

/-- `produce_topic_partition`. -/
def produceTopicPartition (req : ProduceRequest) : Option (Shard × Answer) :=
  let s := s.count
  doProduceTopicPartition s ⟨req.topic, dynamicPartition s.messageCounter⟩ req

/-- The shard handles a request with an answer. -/
def Shard.Step (l : ProduceRequest × Answer) (s' : Shard) : Prop :=
  produceTopicPartition s l.1 = some (s', l.2)
  deriving Decidable

/-! ## The keys of a batch -/

/-- A key of the records was seen before, or occurs twice. -/
def Repeats (seen : List Key) (records : List Record) : Prop :=
  (∃ k ∈ keysOf records, k ∈ seen) ∨ ¬ (keysOf records).Nodup

variable {seen : List Key} {records : List Record}

theorem repeats_cons_of_key_eq_none {r : Record} {rs : List Record} (h : r.key = none) :
    Repeats seen (r :: rs) ↔ Repeats seen rs := by
  simp [Repeats, keysOf, h]

theorem repeats_cons_of_not_mem {r : Record} {rs : List Record} {k : Key} (h : r.key = some k)
    (hk : k ∉ seen) : Repeats seen (r :: rs) ↔ Repeats (k :: seen) rs := by
  simp only [Repeats, keysOf, List.filterMap_cons_some h, List.nodup_cons]
  grind

/-- Without a repeated key, the loop inserts all keys and does not stop. -/
theorem detectDuplicate_of_not_repeats (h : ¬ Repeats seen records) :
    detectDuplicate seen records = (keysOf records, none) := by
  induction records generalizing seen with
  | nil => rfl
  | cons r rs ih =>
    cases hr : r.key with
    | none =>
      rw [repeats_cons_of_key_eq_none hr] at h
      simp [detectDuplicate, hr, ih h, keysOf]
    | some k =>
      have hk : k ∉ seen := fun hk => h (.inl ⟨k, by simp [keysOf, hr], hk⟩)
      rw [repeats_cons_of_not_mem hr hk] at h
      simp [detectDuplicate, hr, hk, ih h, keysOf]

/-- With a repeated key, the loop stops at one. -/
theorem detectDuplicate_of_repeats (h : Repeats seen records) :
    ∃ inserted k, detectDuplicate seen records = (inserted, some k) := by
  induction records generalizing seen with
  | nil => simp [Repeats, keysOf] at h
  | cons r rs ih =>
    cases hr : r.key with
    | none =>
      rw [repeats_cons_of_key_eq_none hr] at h
      obtain ⟨inserted, k, heq⟩ := ih h
      exact ⟨inserted, k, by simp [detectDuplicate, hr, heq]⟩
    | some k =>
      by_cases hk : k ∈ seen
      · exact ⟨[], k, by simp [detectDuplicate, hr, hk]⟩
      · rw [repeats_cons_of_not_mem hr hk] at h
        obtain ⟨inserted, k', heq⟩ := ih h
        exact ⟨k :: inserted, k', by simp [detectDuplicate, hr, hk, heq]⟩

/-! ## What handling a request does -/

/-- The answer of the schema id validator, which may be missing. -/
def Surroundings.schemaError (e : Surroundings) : ErrorCode := e.schemaIdValidation.getD .none

namespace Shard

variable {s s' : Shard} {req : ProduceRequest} {answer : Answer}

/-- The ways a request is handled, with the checks passed on the way. -/
inductive Handled (s : Shard) (req : ProduceRequest) : Shard → Answer → Prop
  | invalid {ec : KafkaError} {msg : String} {r : PartitionResponse}
      (hinvalid : req.surroundings.validation = some (ec, msg)) (hr : r.errorCode = ec) :
      Handled s req s.count (.response r)
  | malformed (hvalid : req.surroundings.validation = none) (hrec : req.batch.records = none) :
      Handled s req s.count .exception
  | duplicate {records : List Record} {inserted : List Key} {k : Key} {r : PartitionResponse}
      (hvalid : req.surroundings.validation = none) (hrec : req.batch.records = some records)
      (hrep : Repeats s.seenKeys records)
      (hdetect : detectDuplicate s.seenKeys records = (inserted, some k))
      (hr : r.errorCode = .none) :
      Handled s req
        { s.count.remember req.topic inserted with
          failedEvents := s.failedEvents ++ [⟨"DUPLICATE", k, req.topic⟩] } (.response r)
  | refused {records : List Record} {r : PartitionResponse}
      (hvalid : req.surroundings.validation = none) (hrec : req.batch.records = some records)
      (hrep : ¬ Repeats s.seenKeys records)
      (hcause : exceedsMaxBytes req.batch.sizeBytes req.batchMaxBytes ∨
        req.surroundings.schemaError ≠ .none ∨
        req.surroundings.shardFor.isSome ∧ req.surroundings.isLeader = false)
      (hr : r.errorCode ≠ .none) :
      Handled s req (s.count.remember req.topic (keysOf records)) (.response r)
  | fakeSuccess {records : List Record} {r : PartitionResponse}
      (hvalid : req.surroundings.validation = none) (hrec : req.batch.records = some records)
      (hrep : ¬ Repeats s.seenKeys records)
      (hsize : ¬ exceedsMaxBytes req.batch.sizeBytes req.batchMaxBytes)
      (hschema : req.surroundings.schemaError = .none)
      (hshard : req.surroundings.shardFor = none) (hr : r.errorCode = .none) :
      Handled s req (s.count.remember req.topic (keysOf records)) (.response r)
  | appended {records : List Record} {p : Int} {r : PartitionResponse}
      (hvalid : req.surroundings.validation = none) (hrec : req.batch.records = some records)
      (hrep : ¬ Repeats s.seenKeys records)
      (hsize : ¬ exceedsMaxBytes req.batch.sizeBytes req.batchMaxBytes)
      (hschema : req.surroundings.schemaError = .none)
      (hshard : req.surroundings.shardFor.isSome) (hleader : req.surroundings.isLeader)
      (hr : r.errorCode = .none ↔ req.surroundings.replicate.toBool) :
      Handled s req
        { s.count.remember req.topic (keysOf records) with
          appends := s.appends ++ [⟨⟨req.topic, p⟩, records, req.surroundings.replicate.toBool⟩] }
        (.response r)

theorem partitionAppend_errorCode (id : Int) (n : Nat) (e : Except ReplicateError Int) :
    (partitionAppend id n e).errorCode = .none ↔ e.toBool := by
  cases e with
  | ok => simp [partitionAppend, Except.toBool]
  | error e => simp [partitionAppend, Except.toBool, mapProduceErrorCode_ne_none e]

/-- Every request which is answered is handled in one of the ways. -/
theorem Step.handled (h : s.Step (req, answer) s') : s.Handled req s' answer := by
  simp only [Step, produceTopicPartition, doProduceTopicPartition] at h
  split at h
  case h_1 ec msg hinvalid =>
    cases h
    exact .invalid hinvalid rfl
  case h_2 hvalid =>
    split at h
    · contradiction
    split at h
    case h_1 hrec =>
      cases h
      exact .malformed hvalid hrec
    case h_2 records hrec =>
      -- the keys are looked up before anything is known about the append
      by_cases hrep : Repeats s.seenKeys records
      · obtain ⟨inserted, k, heq⟩ := detectDuplicate_of_repeats hrep
        rw [show s.count.seenKeys = s.seenKeys from rfl, heq] at h
        cases h
        exact .duplicate hvalid hrec hrep heq rfl
      · rw [show s.count.seenKeys = s.seenKeys from rfl, detectDuplicate_of_not_repeats hrep] at h
        simp only [appendOnShard] at h
        -- from here on the keys are in the set, whatever becomes of the batch
        by_cases hsize : exceedsMaxBytes req.batch.sizeBytes req.batchMaxBytes
        · simp only [hsize, if_true] at h
          cases h
          exact .refused hvalid hrec hrep (.inl hsize) (by simp)
        simp only [hsize, Bool.false_eq_true, if_false] at h
        cases hschema : req.surroundings.schemaIdValidation.getD .none with
        | none =>
          simp only [hschema] at h
          cases hshard : req.surroundings.shardFor with
          | none =>
            simp only [hshard] at h
            cases h
            exact .fakeSuccess hvalid hrec hrep hsize hschema hshard rfl
          | some shard =>
            simp only [hshard] at h
            by_cases hleader : req.surroundings.isLeader
            · simp only [hleader, if_true] at h
              cases h
              exact .appended hvalid hrec hrep hsize hschema (by simp [hshard]) hleader
                (partitionAppend_errorCode _ _ _)
            · simp only [hleader, Bool.false_eq_true, if_false] at h
              cases h
              exact .refused hvalid hrec hrep (.inr (.inr ⟨by simp [hshard], by simpa using hleader⟩))
                (by simp)
        | _ =>
          simp only [hschema] at h
          cases h
          exact .refused hvalid hrec hrep (.inr (.inl (by simp [Surroundings.schemaError, hschema])))
            (by simp)

end Shard

end Redpanda.Kafka
