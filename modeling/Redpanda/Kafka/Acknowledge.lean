import Redpanda.Kafka.Produce

/-!
# What an acknowledgement says

A batch answered with `none` should be stored, or repeat what is stored already,
and one answered with an error should leave the keys seen as they are, so that
it can be sent again (`Acknowledges`). The handler inserts the keys of a batch
before it knows whether it will be appended, looks for them across topics, and
answers with `none` when it does not find the shard of the partition, so this is
not always so. It is so exactly along the runs all of whose requests are
`Orderly` (`run_acknowledges_iff`).
-/

namespace Redpanda.Kafka.Shard

open Lib List

variable {s s' : Shard} {req : ProduceRequest} {answer : Answer}

/-- A record with the key was appended to the topic. -/
def Stored (s : Shard) (topic : Topic) (k : Key) : Prop :=
  ∃ a ∈ s.appends, a.ntp.topic = topic ∧ a.stored ∧ k ∈ keysOf a.records

/-- The batch of the request was appended to a partition of its topic. -/
def StoresBatch (s : Shard) (req : ProduceRequest) (s' : Shard) : Prop :=
  ∃ p records, req.batch.records = some records ∧
    s'.appends = s.appends ++ [⟨⟨req.topic, p⟩, records, true⟩]

/-- The answer to the request can be relied on. -/
structure Acknowledges (s : Shard) (l : ProduceRequest × Answer) (s' : Shard) : Prop where
  /-- A batch answered with `none` was stored, or all its records have keys stored
      earlier in the same topic. -/
  stored : ∀ r, l.2 = .response r → r.errorCode = .none →
    s.StoresBatch l.1 s' ∨
      ∃ records, l.1.batch.records = some records ∧
        ∀ rec ∈ records, ∃ k, rec.key = some k ∧ s.Stored l.1.topic k
  /-- A batch answered with an error leaves the keys seen as they were... -/
  seenKeys : ∀ r, l.2 = .response r → r.errorCode ≠ .none →
    ∀ k, k ∈ s'.seenKeys ↔ k ∈ s.seenKeys
  /-- ... so that it does not become a duplicate of itself. -/
  resend : ∀ r, l.2 = .response r → r.errorCode ≠ .none →
    ∀ records, l.1.batch.records = some records →
      ¬ Repeats s.seenKeys records → ¬ Repeats s'.seenKeys records

/-- Nothing keeps the batch from being appended. -/
def Accepted (req : ProduceRequest) : Prop :=
  ¬ exceedsMaxBytes req.batch.sizeBytes req.batchMaxBytes ∧
    req.surroundings.schemaError = .none ∧ req.surroundings.shardFor.isSome ∧
    req.surroundings.isLeader ∧ req.surroundings.replicate.toBool

/-- The request is rejected by the validation, or

    * it repeats a key, and then all its records have keys seen for the same topic;
    * it has keys but repeats none, and then nothing keeps it from being appended;
    * it has no keys, and then it has no records either, or is refused for its size
      or schema, or the shard of its partition is found. -/
def Orderly (s : Shard) (req : ProduceRequest) : Prop :=
  req.surroundings.validation = none → ∀ records, req.batch.records = some records →
    (Repeats s.seenKeys records →
      ∀ rec ∈ records, ∃ k, rec.key = some k ∧ (req.topic, k) ∈ s.seenFor) ∧
    (¬ Repeats s.seenKeys records → keysOf records ≠ [] → Accepted req) ∧
    (keysOf records = [] → records = [] ∨
      exceedsMaxBytes req.batch.sizeBytes req.batchMaxBytes ∨
      req.surroundings.schemaError ≠ .none ∨ req.surroundings.shardFor.isSome)

/-! ## The keys seen are the keys stored -/

/-- The keys seen for a topic are the ones stored in it. -/
structure SeesStoredKeys (s : Shard) : Prop where
  seen_iff : ∀ k, k ∈ s.seenKeys ↔ ∃ topic, (topic, k) ∈ s.seenFor
  stored_iff : ∀ topic k, s.Stored topic k ↔ (topic, k) ∈ s.seenFor

theorem seesStoredKeys_init : Shard.init.SeesStoredKeys :=
  ⟨by simp [Shard.init], by simp [Shard.init, Stored]⟩

theorem SeesStoredKeys.of_eq (hs : s.SeesStoredKeys) (hseen : s'.seenKeys = s.seenKeys)
    (hfor : s'.seenFor = s.seenFor) (happ : s'.appends = s.appends) : s'.SeesStoredKeys := by
  refine ⟨?_, ?_⟩
  · rw [hseen, hfor]
    exact hs.seen_iff
  · simp only [Stored, hfor, happ]
    exact hs.stored_iff

variable {records : List Record} {r : PartitionResponse}

/-- The loop stops at the first record if its key was seen. -/
theorem inserted_eq_nil {seen inserted : List Key} {k : Key}
    (hseen : ∀ rec ∈ records, ∃ k, rec.key = some k ∧ k ∈ seen)
    (h : detectDuplicate seen records = (inserted, some k)) : inserted = [] := by
  cases records with
  | nil => cases h
  | cons rec records =>
    obtain ⟨k', hk', hmem⟩ := hseen rec (by simp)
    simp only [detectDuplicate, hk', hmem, if_true] at h
    exact (congrArg Prod.fst h).symm

theorem SeesStoredKeys.mem_seenKeys (hs : s.SeesStoredKeys) {topic : Topic} {k : Key}
    (h : (topic, k) ∈ s.seenFor) : k ∈ s.seenKeys :=
  (hs.seen_iff k).2 ⟨topic, h⟩

/-- Appending a batch whose keys were inserted. -/
theorem SeesStoredKeys.append (hs : s.SeesStoredKeys) {p : Int}
    {stored : Bool} (hstored : keysOf records ≠ [] → stored) :
    SeesStoredKeys { s.count.remember req.topic (keysOf records) with
      appends := s.appends ++ [⟨⟨req.topic, p⟩, records, stored⟩] } := by
  refine ⟨fun k => ?_, fun topic k => ?_⟩
  · simp only [remember, count, mem_append, mem_map, Prod.mk.injEq, hs.seen_iff]
    constructor
    · rintro (hk | ⟨topic, htopic⟩)
      · exact ⟨req.topic, .inl ⟨k, hk, rfl, rfl⟩⟩
      · exact ⟨topic, .inr htopic⟩
    · rintro ⟨topic, ⟨k', hk', -, rfl⟩ | htopic⟩
      · exact .inl hk'
      · exact .inr ⟨topic, htopic⟩
  · have hs' := hs.stored_iff topic k
    simp only [Stored] at hs'
    simp only [Stored, remember, count, mem_append, mem_map, mem_singleton, Prod.mk.injEq, ← hs']
    constructor
    · rintro ⟨a, ha | rfl, htopic, hstored, hk⟩
      · exact .inr ⟨a, ha, htopic, hstored, hk⟩
      · exact .inl ⟨k, hk, htopic, rfl⟩
    · rintro (⟨k', hk', htopic, rfl⟩ | ⟨a, ha, h⟩)
      · exact ⟨_, .inr rfl, htopic, hstored (ne_nil_of_mem hk'), hk'⟩
      · exact ⟨a, .inl ha, h⟩

/-- Orderly requests keep the keys seen and stored the same. -/
theorem Handled.seesStoredKeys (h : s.Handled req s' answer) (ho : s.Orderly req)
    (hs : s.SeesStoredKeys) : s'.SeesStoredKeys := by
  cases h with
  | invalid | malformed => exact hs.of_eq rfl rfl rfl
  | @duplicate records inserted k r hvalid hrec hrep hdetect =>
    have hseen := (ho hvalid records hrec).1 hrep
    obtain rfl : inserted = [] := inserted_eq_nil (fun rec hmem => by
      obtain ⟨k, hk, hfor⟩ := hseen rec hmem
      exact ⟨k, hk, hs.mem_seenKeys hfor⟩) hdetect
    exact hs.of_eq rfl rfl rfl
  | @refused records r hvalid hrec hrep hcause =>
    have hkeys : keysOf records = [] := by
      by_contra hkeys
      obtain ⟨hsize, hschema, -, hleader, -⟩ := (ho hvalid records hrec).2.1 hrep hkeys
      rcases hcause with h | h | ⟨-, h⟩
      · exact hsize h
      · exact h hschema
      · simp [hleader] at h
    rw [hkeys]
    exact hs.of_eq rfl rfl rfl
  | @fakeSuccess records r hvalid hrec hrep _ _ hshard =>
    have hkeys : keysOf records = [] := by
      by_contra hkeys
      obtain ⟨-, -, h, -⟩ := (ho hvalid records hrec).2.1 hrep hkeys
      simp [hshard] at h
    rw [hkeys]
    exact hs.of_eq rfl rfl rfl
  | appended hvalid hrec hrep =>
    exact hs.append fun hkeys => ((ho hvalid _ hrec).2.1 hrep hkeys).2.2.2.2

/-! ## Acknowledgements which can be relied on -/

/-- An error leaves the keys seen as they were only if there were no keys to insert. -/
theorem remember_seenKeys_iff (topic : Topic) (hrep : ¬ Repeats s.seenKeys records) :
    (∀ k, k ∈ (s.count.remember topic (keysOf records)).seenKeys ↔ k ∈ s.seenKeys) ↔
      keysOf records = [] := by
  constructor
  · intro h
    refine eq_nil_iff_forall_not_mem.2 fun k hk => hrep (.inl ⟨k, hk, ?_⟩)
    exact (h k).1 (mem_append_left _ hk)
  · intro h k
    simp [h, remember, count]

theorem keysOf_ne_nil_of_repeats {seen : List Key}
    (h : Repeats seen records) : keysOf records ≠ [] := by
  intro hnil
  simp [Repeats, hnil] at h

/-- An error can be relied on if the keys seen are the same. -/
theorem acknowledges_of_error_iff (hr : r.errorCode ≠ .none) :
    s.Acknowledges (req, .response r) s' ↔ ∀ k, k ∈ s'.seenKeys ↔ k ∈ s.seenKeys := by
  constructor
  · intro h
    exact h.seenKeys r rfl hr
  · intro h
    refine ⟨?_, fun _ _ _ => h, fun _ _ _ records _ hrep => by simpa only [Repeats, h] using hrep⟩
    rintro _ ⟨rfl⟩ hnone
    exact absurd hnone hr

/-- Without appending, a success can be relied on if all the records are stored. -/
theorem acknowledges_of_none_iff
    (hrec : req.batch.records = some records) (hr : r.errorCode = .none)
    (happ : s'.appends = s.appends) : s.Acknowledges (req, .response r) s' ↔
      ∀ rec ∈ records, ∃ k, rec.key = some k ∧ s.Stored req.topic k := by
  constructor
  · intro h
    rcases h.stored r rfl hr with ⟨p, records', -, happ'⟩ | ⟨records', hrec', hstored⟩
    · simp [happ] at happ'
    · cases hrec.symm.trans hrec'
      exact hstored
  · intro h
    refine ⟨fun _ _ _ => .inr ⟨records, hrec, h⟩, ?_, ?_⟩ <;>
      · rintro _ ⟨rfl⟩ herror
        exact absurd hr herror

theorem orderly_iff (hvalid : req.surroundings.validation = none)
    (hrec : req.batch.records = some records) : s.Orderly req ↔ (Repeats s.seenKeys records →
        ∀ rec ∈ records, ∃ k, rec.key = some k ∧ (req.topic, k) ∈ s.seenFor) ∧
      (¬ Repeats s.seenKeys records → keysOf records ≠ [] → Accepted req) ∧
      (keysOf records = [] → records = [] ∨ exceedsMaxBytes req.batch.sizeBytes req.batchMaxBytes ∨
        req.surroundings.schemaError ≠ .none ∨ req.surroundings.shardFor.isSome) := by
  simp only [Orderly, hvalid, hrec, Option.some.injEq, forall_const, forall_eq']

/-- An answer can be relied on exactly if the request was orderly. -/
theorem Handled.acknowledges_iff (h : s.Handled req s' answer) (hs : s.SeesStoredKeys) :
    s.Acknowledges (req, answer) s' ↔ s.Orderly req := by
  cases h with
  | @invalid ec msg r hinvalid hr =>
    rw [acknowledges_of_error_iff (hr ▸ ec.2)]
    exact ⟨fun _ hvalid => by simp [hvalid] at hinvalid, fun _ _ => Iff.rfl⟩
  | malformed hvalid hnone =>
    refine ⟨fun _ _ records hrec => by simp [hnone] at hrec, fun _ => ⟨?_, ?_, ?_⟩⟩ <;>
      · intro _ h
        cases h
  | @duplicate records _ k r hvalid hrec hrep _ hr =>
    rw [acknowledges_of_none_iff hrec hr (by rfl), orderly_iff hvalid hrec]
    simp only [hs.stored_iff]
    exact ⟨fun h => ⟨fun _ => h, fun hn => absurd hrep hn, fun hnil =>
      absurd hnil (keysOf_ne_nil_of_repeats hrep)⟩, fun h => h.1 hrep⟩
  | @refused records r hvalid hrec hrep hcause hr =>
    rw [acknowledges_of_error_iff hr, remember_seenKeys_iff req.topic hrep, orderly_iff hvalid hrec]
    constructor
    · intro hkeys
      refine ⟨fun h => absurd h hrep, fun _ h => absurd hkeys h, fun _ => .inr ?_⟩
      rcases hcause with h | h | ⟨h, -⟩
      · exact .inl h
      · exact .inr (.inl h)
      · exact .inr (.inr h)
    · rintro ⟨-, haccepted, -⟩
      by_contra hkeys
      obtain ⟨hsize, hschema, -, hleader, -⟩ := haccepted hrep hkeys
      rcases hcause with h | h | ⟨-, h⟩
      · exact hsize h
      · exact h hschema
      · simp [hleader] at h
  | @fakeSuccess records r hvalid hrec hrep hsize hschema hshard hr =>
    rw [acknowledges_of_none_iff hrec hr (by rfl), orderly_iff hvalid hrec]
    constructor
    · -- a stored key would have been seen
      intro h
      have hnil : records = [] := eq_nil_iff_forall_not_mem.2 fun rec hmem => by
        obtain ⟨k, hk, hstored⟩ := h rec hmem
        exact hrep (.inl ⟨k, mem_filterMap.2 ⟨rec, hmem, hk⟩,
          hs.mem_seenKeys ((hs.stored_iff _ _).1 hstored)⟩)
      subst hnil
      exact ⟨fun h => absurd h hrep, fun _ h => absurd rfl h, fun _ => .inl rfl⟩
    · rintro ⟨-, haccepted, hempty⟩
      have hkeys : keysOf records = [] := by
        by_contra hkeys
        obtain ⟨-, -, h, -⟩ := haccepted hrep hkeys
        simp [hshard] at h
      rcases hempty hkeys with rfl | h | h | h
      · intro rec hmem
        cases hmem
      · exact absurd h hsize
      · exact absurd hschema h
      · simp [hshard] at h
  | @appended records p r hvalid hrec hrep hsize hschema hshard hleader hr =>
    rw [orderly_iff hvalid hrec]
    by_cases hok : req.surroundings.replicate.toBool
    · refine ⟨fun _ => ⟨fun h => absurd h hrep, fun _ _ => ⟨hsize, hschema, hshard, hleader, hok⟩,
        fun _ => .inr (.inr (.inr hshard))⟩, fun _ => ⟨fun _ _ _ => .inl ⟨p, records, hrec, ?_⟩,
        ?_, ?_⟩⟩
      · rw [hok]
      all_goals
        rintro _ ⟨rfl⟩ herror
        exact absurd (hr.2 hok) herror
    · have herror : r.errorCode ≠ .none := fun h => hok (hr.1 h)
      rw [acknowledges_of_error_iff herror]
      refine Iff.trans (remember_seenKeys_iff req.topic hrep) ?_
      constructor
      · intro hkeys
        exact ⟨fun h => absurd h hrep, fun _ h => absurd hkeys h,
          fun _ => .inr (.inr (.inr hshard))⟩
      · rintro ⟨-, haccepted, -⟩
        by_contra hkeys
        exact hok (haccepted hrep hkeys).2.2.2.2

/-- **Acknowledged means stored**, exactly along orderly runs: all answers of a run
    from the start of the process can be relied on if and only if all its requests
    are orderly. -/
theorem run_acknowledges_iff {requests : List (ProduceRequest × Answer)} :
    Run (fun s l s' => s.Step l s' ∧ s.Acknowledges l s') init requests s ↔
      Run (fun s l s' => s.Step l s' ∧ s.Orderly l.1) init requests s := by
  refine Run.iff_of_invariant (fun hs => and_congr_right fun hstep =>
    hstep.handled.acknowledges_iff hs) (fun hs hstep => ?_) seesStoredKeys_init
  have hhandled := hstep.1.handled
  exact hhandled.seesStoredKeys ((hhandled.acknowledges_iff hs).1 hstep.2) hs

/-- A batch refused because its partition is led elsewhere, and sent again when it
    is led here: it is answered as a success without having been stored. -/
theorem not_acknowledges_resend :
    let batch : Batch := ⟨false, 70, some [⟨some [1], none⟩]⟩
    let notLed : ProduceRequest := ⟨"events", 0, batch, 1024, ⟨none, none, some 0, false, .ok 0⟩⟩
    let led : ProduceRequest := ⟨"events", 0, batch, 1024, ⟨none, none, some 0, true, .ok 0⟩⟩
    let refused : Answer := .response ⟨0, .notLeaderForPartition, none, none⟩
    let success : Answer := .response ⟨0, .none, none, none⟩
    let s : Shard := ⟨[[1]], 1, [], [("events", [1])], []⟩
    let s' : Shard := ⟨[[1]], 2, [⟨"DUPLICATE", [1], "events"⟩], [("events", [1])], []⟩
    Run Step init [(notLed, refused), (led, success)] s' ∧
      ¬ init.Acknowledges (notLed, refused) s ∧ ¬ s.Acknowledges (led, success) s' := by
  intro batch notLed led refused success s s'
  refine ⟨.cons (t := s) (by decide) (.single (by decide)), fun h => ?_, fun h => ?_⟩
  · have := (acknowledges_of_error_iff (by decide)).1 h [1]
    simp [s, init] at this
  · have happ : s'.appends = s.appends := rfl
    have := (acknowledges_of_none_iff rfl rfl happ).1 h _ (mem_singleton_self _)
    simp [Stored, s] at this

end Redpanda.Kafka.Shard
