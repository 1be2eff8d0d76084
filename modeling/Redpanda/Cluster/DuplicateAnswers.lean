import Redpanda.Cluster.Idempotent
import Redpanda.Lib.Pairwise

/-!
# Batches that are answered as duplicates

A batch is answered with the result of a known request if the sequence numbers are the same. The
requests that are known should be the ones of the epoch of the producer, and they are forgotten
when a client raises it. But batches of the epoch before may still be on their way to the log,
and when they are applied they become known again: then a batch of the new epoch is taken to be
one of them (`exists_answer_not_duplicate`). In the same way, a batch of an older epoch is taken
to be one of the current epoch.

If no batch is received or applied after the epoch was raised above its own, a batch that is
answered with the result of a known request is in the log, at the offset of the result
(`duplicate_of_answer`). What is known about the batches of a request (`Replica.Vouches`) stays
true as the log grows, and is passed on to the batches that are answered with it.
-/

namespace Redpanda.Cluster

open Lib List
open ReplicatedLog (exists_of_map_mk)

variable {ν : Type} {id : Int}

/-- A batch of the same producer and epoch, with the same sequence numbers. -/
def BatchIdentity.SameBatch (bid bid' : BatchIdentity) : Prop :=
  bid.pid = bid'.pid ∧ bid.firstSeq = bid'.firstSeq ∧ bid.lastSeq = bid'.lastSeq
  deriving Decidable

/-- A batch of an idempotent producer with the id. -/
structure RecordBatchHeader.HasId (id : Int) (h : RecordBatchHeader) : Prop where
  id_eq : h.bid.pid.id = id
  isIdempotent : h.bid.isIdempotent
  not_isTransactional : h.bid.isTransactional = false

/-- The batches that are committed. -/
def committedEntries (L : ReplicatedLog ν (Entry ν)) : List (Entry ν) :=
  L.entries.take L.committed

variable {L L' : ReplicatedLog ν (Entry ν)} {n : ν} {x x' : Replica} {bid : BatchIdentity} {i : Nat}

namespace Replica

/-- A batch in the log ends at the offset. -/
def EndsAt (L : ReplicatedLog ν (Entry ν)) (bid : BatchIdentity) (offset : Int) : Prop :=
  ∃ e ∈ committedEntries L, e.header.lastOffset = offset ∧ e.header.bid.SameBatch bid

/-- The request with the promise is one that writes the batch, and if it has succeeded the batch
    is in the log. -/
structure Vouches (L : ReplicatedLog ν (Entry ν)) (n : ν) (x : Replica) (bid : BatchIdentity)
    (i : Nat) : Prop where
  made : i < x.requests.made
  done : ∀ v, x.requests.states i = .completed (.ok v) → EndsAt L bid v.lastOffset
  wrote : ∀ e ∈ L.entries, e.origin.1 = n → e.origin.2.promise = i → e.header.bid.SameBatch bid
  holds : ∀ d ∈ x.holding, d.request.promise = i → d.header.bid.SameBatch bid

/-- The batch that a request of a producer is for. -/
def batchOf (pid : ProducerIdentity) (q : Request) : BatchIdentity := ⟨pid, q.first, q.last, false⟩

/-- The invariants of a replica. -/
structure Answers (id : Int) (L : ReplicatedLog ν (Entry ν)) (n : ν) (x : Replica) : Prop where
  answers : ∀ y ∈ x.answers, x.Vouches L n y.1 y.2.promise
  inflight : ∀ p ∈ x.producer, ∀ q ∈ p.requests.inflight,
    x.Vouches L n (batchOf p.id q) q.promise
  finished : ∀ p ∈ x.producer, ∀ q ∈ p.requests.finished,
    x.Vouches L n (batchOf p.id q) q.promise
  initialized : ∀ p ∈ x.producer, ∀ q ∈ p.requests.inflight ++ p.requests.finished,
    (p.requests.states q.promise).isInitialized = false
  holding : ∀ d ∈ x.holding, d.request.promise < x.requests.made
  origin : ∀ e ∈ L.entries, e.origin.1 = n → e.origin.2.promise < x.requests.made
  producer_id : ∀ p ∈ x.producer, p.id.id = id
  waiting_id : ∀ w ∈ x.waiting, w.header.HasId id
  holding_id : ∀ d ∈ x.holding, d.header.HasId id

/-- A batch that is committed stays committed. -/
theorem EndsAt.mono {offset : Int} (h : EndsAt L bid offset)
    (hcom : committedEntries L ⊆ committedEntries L') : EndsAt L' bid offset := by
  obtain ⟨e, he, h⟩ := h
  exact ⟨e, hcom he, h⟩

theorem committedEntries_subset (hg : L.Grows L') : committedEntries L ⊆ committedEntries L' := by
  intro e he
  rw [committedEntries, ← hg.take_eq le_rfl] at he
  exact take_subset_take_left _ hg.committed_le he

/-! ## The producer changes -/

end Replica

/-- Some requests are forgotten, and none has succeeded since. -/
structure Requests.Keeps (r r' : Requests) : Prop where
  inflight : r'.inflight ⊆ r.inflight
  finished : r'.finished ⊆ r.finished
  made : r'.made = r.made
  isInitialized : ∀ i, (r.states i).isInitialized = false → (r'.states i).isInitialized = false
  eq_ok : ∀ i v, r'.states i = .completed (.ok v) → r.states i = .completed (.ok v)

namespace Requests

variable (r : Requests)

theorem Keeps.refl : r.Keeps r :=
  ⟨fun _ => id, fun _ => id, rfl, fun _ => id, fun _ _ h => h⟩

theorem keeps_gcRequestsFromOlderTerms (t : Nat) : r.Keeps (r.gcRequestsFromOlderTerms t) :=
  ⟨fun _ h => mem_gcRequestsFromOlderTerms h, fun _ => id, rfl,
    fun _ h => isInitialized_completeAll h, fun _ _ h => eq_ok_of_completeAll_error h⟩

theorem keeps_reset (ec : Errc) : r.Keeps (r.reset ec) :=
  ⟨nofun, nofun, rfl,
    fun _ h => isInitialized_completeAll h, fun _ _ h => eq_ok_of_completeAll_error h⟩

theorem keeps_setResult (q : Request) (ec : Errc) : r.Keeps (r.setResult q (.error ec)) :=
  ⟨fun _ => id, fun _ => id, rfl, fun _ h => isInitialized_completeAll h,
    fun _ _ h => eq_ok_of_completeAll_error h⟩

end Requests

namespace Replica

variable {p p' : ProducerState}

/-- The replica with another state of the producer. -/
def setProducer (x : Replica) (p : ProducerState) : Replica := { x with producer := some p }

theorem setProducer_self (hp : x.producer = some p) : x.setProducer p = x := by
  cases x
  cases hp
  rfl

/-- The producer has forgotten some requests, or all of them when its epoch was raised. -/
def Forgets (p p' : ProducerState) : Prop :=
  p'.id.id = p.id.id ∧
  (∀ i, (p.requests.states i).isInitialized = false →
    (p'.requests.states i).isInitialized = false) ∧
  ((p'.id = p.id ∧ p'.requests.inflight ⊆ p.requests.inflight ∧
      p'.requests.finished ⊆ p.requests.finished) ∨
    p'.requests.inflight = [] ∧ p'.requests.finished = [])

theorem Forgets.refl (p : ProducerState) : Forgets p p :=
  ⟨rfl, fun _ => id, .inl ⟨rfl, fun _ => id, fun _ => id⟩⟩

/-- What was vouched for still is. -/
def Preserves (L L' : ReplicatedLog ν (Entry ν)) (n : ν) (x x' : Replica) : Prop :=
  ∀ ⦃bid i⦄, x.Vouches L n bid i → x'.Vouches L' n bid i

/-- The requests of the producer are vouched for. -/
def Known (id : Int) (L : ReplicatedLog ν (Entry ν)) (n : ν) (x : Replica) (p : ProducerState) :
    Prop :=
  p.id.id = id ∧ ∀ q ∈ p.requests.inflight ++ p.requests.finished,
    x.Vouches L n (batchOf p.id q) q.promise ∧
      (p.requests.states q.promise).isInitialized = false

section

variable (h : x.Answers id L n) {pid : ProducerIdentity}

include h

theorem Answers.known (hp : p ∈ x.producer) : x.Known id L n p :=
  ⟨h.producer_id p hp, fun q hq => ⟨(mem_append.1 hq).elim (h.inflight p hp q)
    (h.finished p hp q), h.initialized p hp q hq⟩⟩

/-- What was vouched for still is, and so is what is new. -/
theorem Answers.mono (hold : Preserves L L' n x x')
    (hprod : ∀ p' ∈ x'.producer, x'.Known id L' n p')
    (hmade : x.requests.made ≤ x'.requests.made)
    (hans : ∀ y ∈ x'.answers, y ∈ x.answers ∨ x'.Vouches L' n y.1 y.2.promise :=
      by exact fun _ hy => .inl hy)
    (hhold : ∀ d ∈ x'.holding, d ∈ x.holding ∨
      d.request.promise < x'.requests.made ∧ d.header.HasId id := by exact fun _ hd => .inl hd)
    (hwait : ∀ w ∈ x'.waiting, w ∈ x.waiting ∨ w.header.HasId id := by exact fun _ hw => .inl hw)
    (horig : ∀ e ∈ L'.entries, e.origin.1 = n →
      e ∈ L.entries ∨ e.origin.2.promise < x'.requests.made := by exact fun _ he _ => .inl he) :
    x'.Answers id L' n where
  answers y hy := (hans y hy).elim (fun hy => hold (h.answers y hy)) fun hy => hy
  inflight p' hp' q hq := ((hprod p' hp').2 q (mem_append_left _ hq)).1
  finished p' hp' q hq := ((hprod p' hp').2 q (mem_append_right _ hq)).1
  initialized p' hp' q hq := ((hprod p' hp').2 q hq).2
  holding d hd := (hhold d hd).elim (fun hd => (h.holding d hd).trans_le hmade) And.left
  origin e he hn := (horig e he hn).elim (fun he => (h.origin e he hn).trans_le hmade) fun he => he
  producer_id p' hp' := (hprod p' hp').1
  waiting_id w hw := (hwait w hw).elim (h.waiting_id w) fun hw => hw
  holding_id d hd := (hhold d hd).elim (h.holding_id d) And.right

/-- The requests of a producer that has forgotten some of them. -/
theorem Answers.forgets (hold : Preserves L L' n x x')
    (hp : p ∈ x.producer) (hf : Forgets p p') : x'.Known id L' n p' := by
  obtain ⟨hid, hi, ⟨hpid, hin, hfin⟩ | ⟨hnil, hnil'⟩⟩ := hf
  · refine ⟨hid.trans (h.producer_id p hp), fun q hq => ?_⟩
    have hq' := (mem_append.1 hq).imp (fun hq => hin hq) fun hq => hfin hq
    obtain ⟨hv, hinit⟩ := (h.known hp).2 q (mem_append.2 hq')
    exact ⟨hpid ▸ hold hv, hi _ hinit⟩
  · rw [Known, hnil, hnil']
    exact ⟨hid.trans (h.producer_id p hp), nofun⟩

/-- Requests that keep their results keep the answers. -/
theorem Answers.keeps (hp : x.producer = some p)
    (hk : p.requests.Keeps p'.requests)
    (hid : p'.id = p.id ∨
      p'.id.id = p.id.id ∧ p'.requests.inflight = [] ∧ p'.requests.finished = []) :
    (x.setProducer p').Answers id L n := by
  have hk' := hk
  rw [← requests_eq hp] at hk'
  have hold : Preserves L L n x (x.setProducer p') := fun _ i hv =>
    { hv with
      made := hv.made.trans_le hk'.made.ge
      done := fun v hd => hv.done v (hk'.eq_ok i v hd) }
  refine h.mono hold ?_ hk'.made.ge
  intro p₁ hp₁
  cases hp₁
  refine h.forgets hold hp ⟨?_, hk.isInitialized, hid.imp
    (fun hid => ⟨hid, hk.inflight, hk.finished⟩) fun hid => hid.2⟩
  rcases hid with hid | hid
  · rw [hid]
  · exact hid.1

/-- The epoch is raised to the one of a batch, unless it is it already. -/
theorem Answers.raiseEpoch (hp : x.producer = some p)
    (hid : pid.id = id) (hle : p.id.epoch ≤ pid.epoch)
    (hp' : p.raiseEpoch pid.epoch = some p') : p'.id = pid ∧ (x.setProducer p').Answers id L n := by
  have hpid := h.producer_id p hp
  rw [ProducerState.raiseEpoch] at hp'
  split at hp'
  · rw [ProducerState.resetWithNewEpoch] at hp'
    obtain ⟨-, ⟨⟩⟩ := Option.ite_none_right_eq_some.1 hp'
    exact ⟨ProducerIdentity.ext (hpid.trans hid.symm) rfl,
      h.keeps hp (Requests.keeps_reset _ _) (.inr ⟨rfl, rfl, rfl⟩)⟩
  · cases hp'
    refine ⟨?_, h.keeps hp (.refl _) (.inl rfl)⟩
    exact ProducerIdentity.ext (hpid.trans hid.symm) (by omega)

/-- `maybe_create_producer`. -/
theorem Answers.maybeCreateProducer
    (hid : pid.id = id) : (x.setProducer (x.maybeCreateProducer pid)).Answers id L n := by
  rcases hp : x.producer with _ | p
  · have hreq : (x.setProducer (x.maybeCreateProducer pid)).requests = x.requests := by
      simp [setProducer, requests, Replica.maybeCreateProducer, hp]
    have hnew : x.maybeCreateProducer pid = { id := pid } := by
      simp [Replica.maybeCreateProducer, hp]
    refine h.mono (fun _ _ hv => ⟨hreq ▸ hv.made, hreq ▸ hv.done, hv.wrote, hv.holds⟩) ?_
      (by rw [hreq])
    intro p' hp'
    cases hp'
    simp [Known, hnew, hid]
  · have hnew : x.maybeCreateProducer pid = p := by simp [Replica.maybeCreateProducer, hp]
    rw [hnew, setProducer_self hp]
    exact h

end

/-! ## Batches that are accepted and answered -/

section

variable (h : x.Answers id L n) (hp : x.producer = some p)

include h hp

/-- A batch is answered with the result of a known request. -/
theorem Answers.answer {q : Request} (hq : q ∈ p.requests.inflight ++ p.requests.finished)
    (hpid : p.id = bid.pid) (hf : q.first = bid.firstSeq) (hl : q.last = bid.lastSeq) :
    Answers id L n { x with answers := (bid, q) :: x.answers } := by
  have hold : Preserves L L n x { x with answers := (bid, q) :: x.answers } := fun _ _ hv =>
    { hv with }
  refine h.mono hold (fun p hp => h.forgets hold hp (.refl p)) le_rfl fun y hy => ?_
  refine (mem_cons.1 hy).symm.imp_right ?_
  rintro rfl
  have hv := ((h.known hp).2 q hq).1
  -- The batch is the one of the request.
  have hsame : ∀ {bid' : BatchIdentity}, bid'.SameBatch (batchOf p.id q) → bid'.SameBatch bid :=
    fun ⟨h₁, h₂, h₃⟩ => ⟨h₁.trans hpid, h₂.trans hf, h₃.trans hl⟩
  refine ⟨hv.made, fun v hd => ?_, fun e he hn hi => hsame (hv.wrote e he hn hi),
    fun d hd hi => hsame (hv.holds d hd hi)⟩
  obtain ⟨e, he, ho, hs⟩ := hv.done v hd
  exact ⟨e, he, ho, hsame hs⟩

/-- The requests of a producer when one is added. -/
theorem Answers.made_known {q : Request} (hold : Preserves L L n x x')
    (hnew : x'.Vouches L n (batchOf p.id q) q.promise) (hp' : x'.producer = some p')
    (hid : p'.id = p.id) (hmem : ∀ q' ∈ p'.requests.inflight ++ p'.requests.finished,
      q' ∈ p.requests.inflight ++ p.requests.finished ∨ q' = q)
    (hstates : ∀ i < x.requests.made, (p.requests.states i).isInitialized = false →
      (p'.requests.states i).isInitialized = false)
    (hq : (p'.requests.states q.promise).isInitialized = false) :
    ∀ p₁ ∈ x'.producer, x'.Known id L n p₁ := by
  intro p₁ hp₁
  cases hp'.symm.trans hp₁
  rw [Known, hid]
  refine ⟨h.producer_id p hp, fun q' hq' => ?_⟩
  rcases hmem q' hq' with hq' | rfl
  · obtain ⟨hv, hinit⟩ := (h.known hp).2 q' hq'
    exact ⟨hold hv, hstates _ hv.made hinit⟩
  · exact ⟨hnew, hq⟩

/-- A new request is made for a batch. -/
theorem Answers.accept {hdr : RecordBatchHeader} (hhas : hdr.HasId id) {t : Nat}
    (hpid : p.id = hdr.bid.pid) (hp' : p' = { p with
      requests := (p.requests.emplace hdr.bid.firstSeq hdr.bid.lastSeq t).markInProgress
        (p.requests.make hdr.bid.firstSeq hdr.bid.lastSeq t) }) :
    Answers id L n { x.setProducer p' with
      holding := some ⟨hdr, p.requests.make hdr.bid.firstSeq hdr.bid.lastSeq t⟩ } := by
  set q := p.requests.make hdr.bid.firstSeq hdr.bid.lastSeq t with hq
  set x' : Replica := { x.setProducer p' with holding := some ⟨hdr, q⟩ } with hx'
  have hreq : x.requests = p.requests := requests_eq hp
  have hmade : x'.requests.made = x.requests.made + 1 := by rw [hreq, hx', hp']; rfl
  -- promises are numbered in the order they are made, so the new one is none of the old
  have hstates : ∀ {i}, i < x.requests.made → x'.requests.states i = x.requests.states i := by
    intro i hi
    rw [hreq] at hi ⊢
    simp [hx', hp', setProducer, requests, Requests.markInProgress, Requests.emplace, hq,
      Requests.make, Function.update_of_ne hi.ne]
  have hfresh : q.promise = x.requests.made := by rw [hreq]; rfl
  have hold : Preserves L L n x x' := by
    intro bid i hv
    refine ⟨hv.made.trans_le (by omega), fun v hd => ?_, hv.wrote, fun d hd hi => ?_⟩
    · rw [hstates hv.made] at hd
      exact hv.done v hd
    · cases hd
      exact absurd (hi.symm.trans hfresh) hv.made.ne
  -- nothing was written and nothing completed yet: the promise vouches for its own batch
  have hnew : x'.Vouches L n (batchOf p.id q) q.promise := by
    refine ⟨by omega, fun v hv => ?_, fun e he hn hi => ?_, fun d hd _ => ?_⟩
    · simp [hx', hp', setProducer, requests, Requests.markInProgress] at hv
    · exact absurd (hi.trans hfresh) (h.origin e he hn).ne
    · cases hd
      exact ⟨hpid.symm, rfl, rfl⟩
  refine h.mono hold ?_ (by omega) (fun y hy => .inl hy) fun d hd => .inr ?_
  · refine h.made_known hp hold hnew rfl (by rw [hp']) (fun q' hq' => ?_) (fun i hi => ?_) ?_
    · rw [hp', mem_append] at hq'
      rw [mem_append, or_right_comm]
      refine hq'.imp (fun hq' => ?_) fun hq' => ?_
      · have := (Requests.dropOldest_isSuffix _ _).subset hq'
        simpa using this
      · simp only [Requests.markInProgress, Requests.emplace] at hq'
        split at hq'
        · cases hq'
        · exact hq'
    · exact fun hi' => (congrArg RequestState.isInitialized (hstates hi)).trans (hreq ▸ hi')
    · simp [hp', Requests.markInProgress, RequestState.isInitialized]
  · cases hd
    exact ⟨by simp only; omega, hhas⟩

end

/-- What is waiting and what is waited for does not matter. -/
theorem Answers.forget (h : x.Answers id L n) {ws : List Waiting} (hws : ∀ w ∈ ws, w ∈ x.waiting)
    {o : Option Holding} (ho : ∀ d ∈ o, d ∈ x.holding) {qs : List Request} {t k : Nat} :
    Answers id L n { x with
      waiting := ws, holding := o, replicating := qs, insyncTerm := t, applied := k } := by
  have hold : Preserves L L n x { x with
      waiting := ws, holding := o, replicating := qs, insyncTerm := t, applied := k } :=
    fun _ _ hv => { hv with holds := fun d hd => hv.holds d (ho d hd) }
  exact h.mono hold (fun p hp => h.forgets hold hp (.refl p)) le_rfl (fun _ hy => .inl hy)
    (fun d hd => .inl (ho d hd)) fun w hw => .inl (hws w hw)

/-- The outcomes of `try_emplace_request`: some requests are forgotten, and then a known one is
    returned, a new one is made, or the batch is refused. -/
theorem tryEmplaceRequest_cases (p : ProducerState) (bid : BatchIdentity) (t : Nat) (b : Bool) :
    ∃ r, p.requests.Keeps r ∧
      ((∃ ec, p.tryEmplaceRequest bid t b = ({ p with requests := r }, .error ec)) ∨
      (∃ q ∈ r.inflight ++ r.finished, q.first = bid.firstSeq ∧ q.last = bid.lastSeq ∧
        p.tryEmplaceRequest bid t b = ({ p with requests := r }, .ok q)) ∨
      p.tryEmplaceRequest bid t b =
        ({ p with requests := r.emplace bid.firstSeq bid.lastSeq t },
          .ok (r.make bid.firstSeq bid.lastSeq t))) := by
  rw [ProducerState.tryEmplaceRequest]
  split
  · exact ⟨p.requests, .refl _, .inl ⟨_, rfl⟩⟩
  · cases b with
    | true =>
      refine ⟨p.requests.reset .timeout, Requests.keeps_reset _ _, .inr (.inr ?_)⟩
      simp only [Requests.tryEmplace, if_true]
    | false =>
      refine ⟨p.requests.gcRequestsFromOlderTerms t,
        Requests.keeps_gcRequestsFromOlderTerms _ _, ?_⟩
      rcases p.requests.tryEmplace_cases bid.firstSeq bid.lastSeq t with
        ⟨q, hq, hf, hl, he⟩ | ⟨-, -, he⟩ | he
      · refine .inr (.inl ⟨q, ?_, hf, hl, by simp only [he]⟩)
        exact mem_append.2 (hq.symm.imp_right fun hq => hq)
      · exact .inr (.inr (by simp only [he]))
      · exact .inl ⟨.sequenceOutOfOrder, by simp only [he]⟩

/-- No batch is received or applied whose epoch is below the one of the producer. -/
def EpochsAscend (x : Replica) (L : ReplicatedLog ν (Entry ν)) : NodeAction → Prop
  | .emplace => ∀ w ∈ x.waiting.head?, ∀ p ∈ x.producer, p.id.epoch ≤ w.header.bid.pid.epoch
  | .apply => ∀ e ∈ L.entries[x.applied]?, ∀ p ∈ x.producer,
    p.id.epoch ≤ e.header.bid.pid.epoch
  | _ => True

/-- A batch is answered with a request of its own epoch and sequence numbers. -/
theorem Answers.emplace (h : x.Answers id L n) (hasc : x.EpochsAscend L .emplace)
    (hx' : x.emplace = some x') : x'.Answers id L n := by
  rw [Replica.emplace] at hx'
  split at hx'
  case h_2 => exact nomatch hx'
  case h_1 w ws p hhold hwait hp =>
  obtain ⟨⟨p', result⟩, hreq, rfl⟩ := Option.map_eq_some_iff.1 hx'
  obtain ⟨p₁, hp₁, hreq⟩ := Option.map_eq_some_iff.1 hreq
  -- First the epoch is raised, if it has to be.
  have hhas := h.waiting_id w (by simp [hwait])
  obtain ⟨hid, h₁⟩ := h.raiseEpoch hp hhas.id_eq
    (hasc w (by simp [hwait]) p hp) hp₁
  -- Then some requests are forgotten.
  obtain ⟨r, hk, hcases⟩ := tryEmplaceRequest_cases p₁ w.header.bid w.expectedTerm
    (Waiting.skipSequenceChecks w)
  have h₂ : (x.setProducer { p₁ with requests := r }).Answers id L n :=
    h₁.keeps (p := p₁) rfl hk (.inl rfl)
  have h₃ : Answers id L n { x with waiting := ws, producer := some { p₁ with requests := r } } :=
    h₂.forget (fun w' hw' => hwait ▸ mem_cons_of_mem w hw') (fun _ hd => hd)
  rcases hcases with ⟨ec, he⟩ | ⟨q, hq, hf, hl, he⟩ | he <;>
    obtain ⟨rfl, rfl⟩ := Prod.mk.inj (he.symm.trans hreq)
  · exact h₃
  · have hi : (r.states q.promise).isInitialized = false := h₃.initialized _ rfl q hq
    simp only [proceed, hi]
    exact h₃.answer rfl hq hid hf hl
  · have hi : ((r.emplace w.header.bid.firstSeq w.header.bid.lastSeq w.expectedTerm).states
        (r.make w.header.bid.firstSeq w.header.bid.lastSeq w.expectedTerm).promise).isInitialized =
        true := by
      simp [Requests.emplace, Requests.make, RequestState.isInitialized]
    simp only [proceed, hi, if_true]
    exact h₃.accept (p := { p₁ with requests := r }) rfl hhas hid rfl

/-- A batch waits for the lock of its producer. -/
theorem Answers.receive (h : x.Answers id L n) {hdr : RecordBatchHeader} (hid : hdr.bid.pid.id = id)
    (hx' : x.receive hdr = some x') : x'.Answers id L n := by
  rw [Replica.receive] at hx'
  obtain ⟨hcond, ⟨⟩⟩ := Option.ite_none_right_eq_some.1 hx'
  have htx : hdr.isTransactional = false := by simpa using hcond.2
  have h₁ := h.maybeCreateProducer hid
  refine h₁.mono (fun _ _ hv => { hv with })
    (fun p hp => h₁.forgets (fun _ _ hv => { hv with }) hp (.refl p)) le_rfl
    (fun _ hy => .inl hy) (fun _ hd => .inl hd) fun w hw => ?_
  refine (mem_concat.1 hw).imp_right ?_
  rintro rfl
  exact ⟨hid, hcond.1, htx⟩

theorem modifyRequests_cases (x : Replica) (f : Requests → Requests) : x.modifyRequests f = x ∨
    ∃ p, x.producer = some p ∧
      x.modifyRequests f = x.setProducer { p with requests := f p.requests } := by
  obtain ⟨_ | p, _, _, _, _, _, _⟩ := x
  · exact .inl rfl
  · exact .inr ⟨p, rfl, rfl⟩

section

variable (h : x.Answers id L n) {e : Entry ν}

include h

/-- The producer, if there is one, forgets requests. -/
theorem Answers.modifyRequests {f : Requests → Requests} (hf : ∀ r : Requests, r.Keeps (f r)) :
    (x.modifyRequests f).Answers id L n := by
  rcases x.modifyRequests_cases f with hx | ⟨p, hp, hx⟩
  · exact hx.symm ▸ h
  · rw [hx]
    exact h.keeps hp (hf _) (.inl rfl)

/-! ## The log changes -/

/-- The log grows, and the batches that are new are not of the replica. -/
theorem Answers.of_grows (hg : L.Grows L')
    (hent : ∀ e ∈ L'.entries, e ∈ L.entries ∨ e.origin.1 ≠ n) : x.Answers id L' n := by
  have hold : Preserves L L' n x x := fun _ _ hv =>
    { hv with
      done := fun v hd => (hv.done v hd).mono (committedEntries_subset hg)
      wrote := fun e he hn => hv.wrote e ((hent e he).resolve_right (absurd hn)) hn }
  exact h.mono hold (fun p hp => h.forgets hold hp (.refl p)) le_rfl (fun _ hy => .inl hy)
    (fun _ hd => .inl hd) (fun _ hw => .inl hw)
    fun e he hn => .inl ((hent e he).resolve_right fun hne => hne hn)

/-- The batch of the request is appended. -/
theorem Answers.append {d : Holding} (hd : x.holding = some d)
    (he : e.origin.2 = d.request) (hbid : e.header.bid = d.header.bid) {qs : List Request} :
    Answers id (L.append e) n { x with holding := none, replicating := qs } := by
  have hmem : ∀ e' ∈ (L.append e).entries, e' ∈ L.entries ∨ e' = e := by
    intro e' he'
    simpa using he'
  have hold : Preserves L (L.append e) n x { x with holding := none, replicating := qs } := by
    intro bid i hv
    refine ⟨hv.made, fun v hd => (hv.done v hd).mono (committedEntries_subset (L.grows_append e)),
      fun e' he' hn hi => ?_, nofun⟩
    rcases hmem e' he' with he' | rfl
    · exact hv.wrote e' he' hn hi
    · rw [hbid]
      exact hv.holds d hd (he ▸ hi)
  refine h.mono hold (fun p hp => h.forgets hold hp (.refl p)) le_rfl (fun _ hy => .inl hy)
    (nofun) (fun _ hw => .inl hw) fun e' he' hn => ?_
  refine (hmem e' he').imp_right ?_
  rintro rfl
  rw [he]
  exact h.holding d hd

/-- A request succeeds with the offset of its batch. -/
theorem Answers.succeed {q : Request} (he : e ∈ committedEntries L)
    (ho : e.origin = (n, q)) {v : KafkaResult} (hv : v.lastOffset = e.header.lastOffset) :
    (x.modifyRequests (·.setResult q (.ok v))).Answers id L n := by
  rcases x.modifyRequests_cases (·.setResult q (.ok v)) with hx | ⟨p, hp, hx⟩
  · exact hx.symm ▸ h
  rw [hx]
  have hreq := requests_eq hp
  have hmade : x.requests.made ≤ (p.requests.setResult q (.ok v)).made := by rw [hreq]; rfl
  have hold : Preserves L L n x
      (x.setProducer { p with requests := p.requests.setResult q (.ok v) }) := by
    intro bid i hvo
    refine { hvo with made := hvo.made.trans_le hmade, done := fun v' hv' => ?_ }
    have hv'' : Requests.completeAll p.requests.states (.ok v) [q] i = .completed (.ok v') := hv'
    rw [Requests.completeAll] at hv''
    have hdone := hvo.done v'
    rw [hreq] at hdone
    split at hv''
    · rename_i hi
      have hi' : i = q.promise := by simpa using hi
      -- Either it was completed before, or with the offset of the batch.
      have hnew : EndsAt L bid v.lastOffset :=
        ⟨e, he, hv.symm, hvo.wrote e (mem_of_mem_take he) (by rw [ho]) (by rw [ho, hi'])⟩
      rcases hs : p.requests.states i with _ | _ | r <;> rw [hs] at hv''
      · cases hv''
        exact hnew
      · cases hv''
        exact hnew
      · exact hdone (hs.trans hv'')
    · exact hdone hv''
  refine h.mono hold (fun p₁ hp₁ => ?_) hmade
  cases hp₁
  exact h.forgets hold hp ⟨rfl, fun _ hi => Requests.isInitialized_completeAll hi,
    .inl ⟨rfl, fun _ h => h, fun _ h => h⟩⟩

/-! ## A batch is applied -/

/-- The batch becomes the last finished request. -/
theorem Answers.stmApply (hp : x.producer = some p) (he : e ∈ committedEntries L)
    (hpid : p.id = e.header.bid.pid) (hp' : p' = { p with
      requests := p.requests.stmApply e.header.bid e.header.term e.header.lastOffset }) :
    (x.setProducer p').Answers id L n := by
  have hreq := requests_eq hp
  have hs := p.requests.shrinks_stmApply e.header.bid e.header.term e.header.lastOffset
  have hok := p.requests.noneSucceeds_stmApply e.header.bid e.header.term e.header.lastOffset
  obtain ⟨qs, hfin, hsuf⟩ := p.requests.finished_stmApply e.header.bid e.header.term
    e.header.lastOffset
  set q := p.requests.make e.header.bid.firstSeq e.header.bid.lastSeq e.header.term with hq
  have hreq' : (x.setProducer p').requests =
      p.requests.stmApply e.header.bid e.header.term e.header.lastOffset := by rw [hp']; rfl
  have hmade : (x.setProducer p').requests.made = x.requests.made + 1 := by
    rw [hreq', hreq]
    simp [Requests.stmApply, Requests.finish, Requests.gcRequestsFromOlderTerms,
      Requests.promote_frame]
  -- the request is made and completed at once, with the offset of the entry
  have hdone : (x.setProducer p').requests.states q.promise =
      .completed (.ok { lastOffset := e.header.lastOffset }) := by
    rw [hreq']
    simp [Requests.stmApply, Requests.finish, Requests.gcRequestsFromOlderTerms,
      Requests.promote_frame, hq, Requests.make]
  have hfresh : q.promise = x.requests.made := by rw [hreq]; rfl
  -- requests of older terms are failed, never completed with success
  have hold : Preserves L L n x (x.setProducer p') := by
    intro bid i hv
    refine { hv with made := hv.made.trans_le (by omega), done := fun v hd => hv.done v ?_ }
    rw [hreq'] at hd
    rw [hreq]
    exact hok i (hreq ▸ hv.made) v hd
  have hnew : (x.setProducer p').Vouches L n (batchOf p.id q) q.promise := by
    refine ⟨by omega, fun v hv => ?_, fun e' he' hn hi => ?_, fun d hd hi => ?_⟩
    · rw [hdone] at hv
      cases RequestState.completed.inj hv
      exact ⟨e, he, rfl, hpid.symm, rfl, rfl⟩
    · exact absurd (hi.trans hfresh) (h.origin e' he' hn).ne
    · exact absurd (hi.trans hfresh) (h.holding d hd).ne
  refine h.mono hold (h.made_known hp hold hnew rfl (by rw [hp']) (fun q' hq' => ?_)
    (fun i hi => ?_) (congrArg RequestState.isInitialized hdone)) (by omega)
  · rw [hp', mem_append] at hq'
    simp only [hfin, mem_append, mem_singleton, ← or_assoc] at hq' ⊢
    exact hq'.imp_left fun hq' => hq'.imp (fun hq' => hs.inflight.subset hq')
      fun hq' => hsuf.subset hq'
  · rw [hp']
    exact hs.isInitialized i (hreq ▸ hi)

/-- A batch of the log finishes its request with its own offset. -/
theorem Answers.apply (hent : ∀ e ∈ L.entries, e.header.HasId id) (hasc : x.EpochsAscend L .apply)
    (hx' : x.apply L = some x') : x'.Answers id L n := by
  rw [Replica.apply] at hx'
  obtain ⟨hlt, hx'⟩ := Option.ite_none_right_eq_some.1 hx'
  obtain ⟨e, he, hx'⟩ := Option.bind_eq_some_iff.1 hx'
  obtain ⟨p', hp', hx'⟩ := Option.bind_eq_some_iff.1 hx'
  have hhas := hent e (mem_of_getElem? he)
  have hcom : e ∈ committedEntries L := by
    refine mem_iff_getElem?.2 ⟨x.applied, ?_⟩
    rw [committedEntries, getElem?_take_of_lt hlt, he]
  simp only [ProducerState.applyData, hhas.isIdempotent, hhas.not_isTransactional, Bool.not_true,
    Bool.false_eq_true, if_false] at hp'
  obtain ⟨p₁, hp₁, rfl⟩ := Option.map_eq_some_iff.1 hp'
  -- The producer is there, with the epoch of the batch.
  have h₁ := h.maybeCreateProducer hhas.id_eq
  have hle : (x.maybeCreateProducer e.header.bid.pid).id.epoch ≤ e.header.bid.pid.epoch := by
    rw [Replica.maybeCreateProducer]
    rcases hp : x.producer with _ | p
    · exact Int.le_refl _
    · exact hasc e he p hp
  obtain ⟨hid, h₂⟩ := h₁.raiseEpoch rfl hhas.id_eq hle hp₁
  have h₃ := h₂.stmApply (p := p₁) rfl hcom hid rfl
  cases hx'
  exact h₃.forget (fun _ hw => hw) fun _ hd => hd

end

/-! ## Steps -/

variable [DecidableEq ν]

theorem Answers.stepDown (h : x.Answers id L n) (m : ν) (t : Nat) :
    x.Answers id (L.stepDown m t) n :=
  h.of_grows (L.grows_stepDown m t) fun e he => .inl (by simpa using he)

end Replica

/-- A batch that a client sends has the id of the producer. -/
def NodeAction.HasId (id : Int) : NodeAction → Prop
  | .receive h => h.bid.pid.id = id
  | _ => True

namespace Replica

variable [DecidableEq ν]

/-- Every action of a replica keeps its answers right. -/
theorem Answers.act (h : x.Answers id L n) (hent : ∀ e ∈ L.entries, e.header.HasId id)
    {a : NodeAction} (hid : a.HasId id) (hasc : x.EpochsAscend L a)
    (hx' : x.act L n a = some (L', x')) : x'.Answers id L' n := by
  cases a with
  | sync =>
    obtain ⟨rfl, y, hy, rfl⟩ := exists_of_map_mk hx'
    rw [Replica.sync] at hy
    obtain ⟨-, hy⟩ := Option.ite_none_right_eq_some.1 hy
    split at hy
    · exact Option.some.inj hy ▸ h
    · cases hy
      exact (h.modifyRequests fun r => r.keeps_gcRequestsFromOlderTerms L.term).forget
        (fun _ hw => hw) fun _ hd => hd
  | receive hdr =>
    obtain ⟨rfl, y, hy, rfl⟩ := exists_of_map_mk hx'
    exact h.receive hid hy
  | emplace =>
    obtain ⟨rfl, y, hy, rfl⟩ := exists_of_map_mk hx'
    exact h.emplace hasc hy
  | enqueue o =>
    simp only [Replica.act, Replica.enqueue] at hx'
    split at hx'
    -- raft takes the batch, or refuses it and the request fails
    · rename_i d o' hd
      split at hx'
      · cases hx'
        exact h.append hd rfl rfl
      · cases hx'
    · rename_i d hd
      cases hx'
      exact ((h.stepDown n _).modifyRequests fun r => r.keeps_setResult d.request _).forget
        (fun _ hw => hw) fun _ hd => absurd hd (by simp)
    · cases hx'
  | finish q success =>
    simp only [Replica.act, Replica.finish] at hx'
    obtain ⟨-, hx'⟩ := Option.ite_none_right_eq_some.1 hx'
    have herase : ∀ {M : ReplicatedLog ν (Entry ν)}, x.Answers id M n →
        Answers id M n { x with replicating := x.replicating.erase q } := fun hM =>
      hM.forget (fun _ hw => hw) fun _ hd => hd
    -- a success carries the offset of the entry that this very promise wrote
    cases success with
    | true =>
      obtain ⟨rfl, e, he, rfl⟩ := exists_of_map_mk hx'
      exact (herase h).succeed (mem_of_find?_eq_some he) (by simpa using find?_some he) rfl
    | false =>
      cases hx'
      exact (herase (h.stepDown n q.term)).modifyRequests fun r => r.keeps_setResult q _
  | apply =>
    obtain ⟨rfl, y, hy, rfl⟩ := exists_of_map_mk hx'
    exact h.apply hent hasc hy
  | stepDown =>
    cases hx'
    exact h.stepDown n L.term

end Replica

/-! ## Runs -/

/-- The batches of an action are those of one producer. -/
def Action.HasId (id : Int) : Action ν → Prop
  | .node _ a => a.HasId id
  | _ => True

namespace Partition

variable {σ τ : Partition ν} {a : Action ν}

def EpochsAscend (σ : Partition ν) : Action ν → Prop
  | .node n a => (σ.replicas n).EpochsAscend σ.log a
  | _ => True

/-- The invariants of the partition. -/
structure AnswersInv (id : Int) (σ : Partition ν) : Prop where
  entries : ∀ e ∈ σ.log.entries, e.header.HasId id
  replicas : ∀ n, (σ.replicas n).Answers id σ.log n

theorem answersInv_init : AnswersInv id ({} : Partition ν) where
  entries := by simp
  replicas n := by constructor <;> simp

variable [DecidableEq ν]

/-- Every step keeps the invariant. -/
theorem AnswersInv.step (h : σ.AnswersInv id) (hid : a.HasId id) (hasc : σ.EpochsAscend a)
    (hstep : σ.Step a τ) : τ.AnswersInv id := by
  cases a with
  | commit k =>
    cases hstep
    exact ⟨h.entries, fun n => (h.replicas n).of_grows (σ.log.grows_commit k) fun _ he => .inl he⟩
  | elect m k =>
    cases hstep
    exact ⟨fun e he => h.entries e (mem_of_mem_take he), fun n =>
      (h.replicas n).of_grows (σ.log.grows_elect m k) fun _ he => .inl (mem_of_mem_take he)⟩
  | node n a =>
    obtain ⟨⟨L', x'⟩, hact, rfl⟩ := Option.map_eq_some_iff.1 hstep
    have hx' := (h.replicas n).act h.entries hid hasc hact
    have hlog : (∀ e ∈ L'.entries, e.header.HasId id) ∧
        ∀ m ≠ n, (σ.replicas m).Answers id L' m := by
      rcases Replica.act_log hact with rfl | ⟨t, rfl⟩ | ⟨d, o, hd, -, rfl⟩
      · exact ⟨h.entries, fun m _ => h.replicas m⟩
      · exact ⟨fun e he => h.entries e (by simpa using he), fun m _ => (h.replicas m).stepDown n t⟩
      · have hdid := (h.replicas n).holding_id d hd
        refine ⟨forall_mem_concat.2 ⟨h.entries, { hdid with }⟩, fun m hm =>
          (h.replicas m).of_grows (σ.log.grows_append _) ?_⟩
        exact forall_mem_concat.2 ⟨fun _ => .inl, .inr hm.symm⟩
    exact ⟨hlog.1,
      (Function.forall_update_iff σ.replicas fun m x => x.Answers id L' m).2 ⟨hx', hlog.2⟩⟩

/-- In every run in which no batch of an epoch below the one of the producer is received or
    applied: when a batch is answered with a request that was known and the request succeeds, then
    the log has a batch of the same producer and epoch, with the same sequence numbers, that
    ends at the offset of the result. -/
theorem duplicate_of_answer {l : List (Action ν)}
    (h : Run (fun σ a τ => σ.EpochsAscend a ∧ Step σ a τ) ({} : Partition ν) l σ)
    (hl : ∀ a ∈ l, a.HasId id) {n : ν} {bid : BatchIdentity} {q : Request} {v : KafkaResult}
    (hq : (bid, q) ∈ (σ.replicas n).answers)
    (hv : (σ.replicas n).requests.states q.promise = .completed (.ok v)) :
    ∃ e ∈ σ.log.entries, e.header.lastOffset = v.lastOffset ∧ e.header.bid.SameBatch bid := by
  have hinv : σ.AnswersInv id := h.invariant_of_labels (P := AnswersInv id)
    (fun hσ hid hstep => hσ.step hid hstep.1 hstep.2) hl answersInv_init
  obtain ⟨e, he, hoff, hsame⟩ := ((hinv.replicas n).answers _ hq).done v hv
  exact ⟨e, mem_of_mem_take he, hoff, hsame⟩

end Partition

section

variable [DecidableEq ν] (σ : Partition ν)

instance (x : Replica) (L : ReplicatedLog ν (Entry ν)) : DecidablePred (x.EpochsAscend L) :=
  fun a => by cases a <;> unfold Replica.EpochsAscend <;> infer_instance

instance : DecidablePred σ.EpochsAscend := fun a => by
  cases a <;> unfold Partition.EpochsAscend <;> infer_instance

instance (id : Int) : DecidablePred (Action.HasId id (ν := ν)) := fun a => by
  rcases a with ⟨n, _ | _⟩ | _ | _ <;> unfold Action.HasId <;> try unfold NodeAction.HasId
  all_goals infer_instance

end

/-- The offsets that a replica has answered batches with, so far. -/
def Replica.answered (x : Replica) : List (BatchIdentity × Request × Int) :=
  x.answers.filterMap fun y => match x.requests.states y.2.promise with
    | .completed (.ok v) => some (y.1, y.2, v.lastOffset)
    | _ => none

theorem Replica.exists_of_mem_answered {x : Replica} {bid : BatchIdentity} {q : Request} {o : Int}
    (h : (bid, q, o) ∈ x.answered) :
    (bid, q) ∈ x.answers ∧ ∃ v, x.requests.states q.promise = .completed (.ok v) := by
  obtain ⟨⟨bid', q'⟩, hy, he⟩ := mem_filterMap.1 h
  split at he
  · rename_i v hv
    obtain ⟨hbid, hqo⟩ := Prod.mk.inj (Option.some.inj he)
    obtain ⟨hq, -⟩ := Prod.mk.inj hqo
    subst hbid hq
    exact ⟨hy, v, hv⟩
  · exact nomatch he

/-- The producer raises its epoch after a batch. The first batch of the new epoch has the sequence
    number of the old one; it is sent twice, and answered when it is committed. -/
def repeatRun : List (Action Bool) :=
  lead false 0 ++ produce false (recordAt 0 0) 0 ++ [.commit 1, .node false .apply] ++
  produce false (recordAt 1 0) 1 ++
  [.node false (.receive (recordAt 1 0)), .node false .emplace, .commit 2,
    .node false (.finish ⟨0, 0, 1, 2⟩ true)]

theorem duplicate_of_answer_repeat : ∃ (l : List (Action Bool)) (σ : Partition Bool),
    Run (fun σ a τ => σ.EpochsAscend a ∧ Partition.Step σ a τ) {} l σ ∧
      σ.log.entries.length = 2 ∧ ∃ q v, ((recordAt 1 0).bid, q) ∈ (σ.replicas false).answers ∧
        (σ.replicas false).requests.states q.promise = .completed (.ok v) ∧
        ∃ e ∈ σ.log.entries, e.header.lastOffset = v.lastOffset ∧
          e.header.bid.SameBatch (recordAt 1 0).bid := by
  have h : (repeatRun.foldlM
      (fun s u => if Partition.EpochsAscend s u then s.next u else none)
      ({} : Partition Bool)).map
        (fun σ => (σ.log.entries.length, (σ.replicas false).answered)) =
        some (2, [((recordAt 1 0).bid, ⟨0, 0, 1, 2⟩, 1)]) := by
    decide
  obtain ⟨σ, hrun, hσ⟩ := Run.exists_of_foldlM h
  obtain ⟨hlength, hanswered⟩ := Prod.mk.inj hσ
  have hmem : ((recordAt 1 0).bid, ⟨0, 0, 1, 2⟩, 1) ∈ (σ.replicas false).answered := by
    rw [hanswered]
    exact mem_singleton_self _
  obtain ⟨hq, v, hv⟩ := Replica.exists_of_mem_answered hmem
  exact ⟨repeatRun, σ, hrun, hlength, _, v, hq, hv, Partition.duplicate_of_answer hrun
    (show ∀ a ∈ repeatRun, a.HasId 1 by decide) hq hv⟩

/-- The epoch is raised by a batch which is refused, before the batch of the epoch before it is
    applied. -/
def raiseRun : List (Action Bool) :=
  lead false 0 ++ produce false (recordAt 0 0) 0 ++
  [.commit 1, .node false (.receive (recordAt 1 1)), .node false .emplace, .node false .apply,
    .node false (.receive (recordAt 1 0)), .node false .emplace]

/-- A batch of the new epoch is answered with the offset of one of the epoch before it, and is
    not in the log. -/
theorem exists_answer_not_duplicate : ∃ (l : List (Action Bool)) (σ : Partition Bool),
    Run Partition.Step {} l σ ∧ (∀ a ∈ l, a.HasId 1) ∧
      ∃ bid q v, (bid, q) ∈ (σ.replicas false).answers ∧
        (σ.replicas false).requests.states q.promise = .completed (.ok v) ∧
        ∀ e ∈ σ.log.entries, ¬ e.header.bid.SameBatch bid := by
  have h : (raiseRun.foldlM Partition.next ({} : Partition Bool)).map (fun σ =>
      ((σ.replicas false).answered,
        decide (∀ e ∈ σ.log.entries, ¬ e.header.bid.SameBatch (recordAt 1 0).bid))) =
      some ([((recordAt 1 0).bid, ⟨0, 0, 1, 1⟩, 0)], true) := by
    decide
  obtain ⟨σ, hrun, hσ⟩ := Run.exists_of_map_foldlM h
  obtain ⟨hans, hne⟩ := Prod.mk.inj hσ
  have hmem : ((recordAt 1 0).bid, ⟨0, 0, 1, 1⟩, 0) ∈ (σ.replicas false).answered := by
    rw [hans]
    exact mem_singleton_self _
  obtain ⟨hq, v, hv⟩ := Replica.exists_of_mem_answered hmem
  exact ⟨raiseRun, σ, hrun, by decide, _, _, v, hq, hv, of_decide_eq_true hne⟩

end Redpanda.Cluster
