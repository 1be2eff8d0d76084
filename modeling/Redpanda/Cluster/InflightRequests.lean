import Redpanda.Cluster.Idempotent
import Redpanda.Lib.Pairwise

/-!
# Requests in flight and the log

How the requests that a replica has in flight are related to the log, if all batches are of the
same producer and epoch.

* Requests in flight are of one term, and in the order in which they were enqueued
  (`Replica.Logged.order`). When a batch is applied, the request that wrote it is therefore the
  oldest one in flight, and promoted (`Replica.Logged.eq_head`).
* Finished requests end with the last batch that was applied. They are forgotten when requests
  in flight are dropped. If these have succeeded, there is a batch that is committed and not
  applied yet, and the queue does not stay empty (`Replica.Logged.finished_nil`).
* The requests in flight on the leader are the end of the log (`Replica.Leading`), even if some
  were dropped that are not applied yet. Batches are recognized by their sequence numbers when
  they are applied; if these are distinct, no other request is promoted than the one that wrote
  the batch. So a request in flight, or else the last finished one, wrote the last batch.
-/

namespace Redpanda.Cluster

open Lib List
open Requests (cachedMax completeAll markInProgress mem_gcRequestsFromOlderTerms)

variable {ν : Type} {pid : ProducerIdentity}

/-- A batch of an idempotent producer. -/
structure RecordBatchHeader.IsOf (pid : ProducerIdentity) (h : RecordBatchHeader) : Prop where
  pid_eq : h.bid.pid = pid
  isIdempotent : h.bid.isIdempotent
  not_isTransactional : h.bid.isTransactional = false

/-- The requests which wrote the batches of the log. -/
def origins (L : ReplicatedLog ν (Entry ν)) : List (ν × Request) := L.entries.map (·.origin)

/-! ## Invariants -/

namespace Replica

/-- The request is one that was made, and the only one with its promise in flight. -/
def Tracks (x : Replica) (q : Request) : Prop :=
  q.promise < x.requests.made ∧ ∀ q' ∈ x.requests.inflight, q'.promise = q.promise → q' = q

/-- The invariants of a replica alone. -/
structure Local (pid : ProducerIdentity) (x : Replica) : Prop where
  id_eq : ∀ p ∈ x.producer, p.id = pid
  waiting : ∀ w ∈ x.waiting, w.header.IsOf pid ∧ w.expectedTerm ≤ x.insyncTerm
  waiting_pairwise : x.waiting.Pairwise fun w w' => w.expectedTerm ≤ w'.expectedTerm
  term_le : ∀ q ∈ x.requests.inflight,
    q.term ≤ x.insyncTerm ∧ ∀ w ∈ x.waiting, q.term ≤ w.expectedTerm
  term_eq : ∀ q ∈ x.requests.inflight, ∀ q' ∈ x.requests.inflight, q.term = q'.term
  inflight : ∀ q ∈ x.requests.inflight, q.promise < x.requests.made ∧
    (x.requests.states q.promise).isInitialized = false
  finished : ∀ q ∈ x.requests.finished, q.promise < x.requests.made ∧
    (x.requests.states q.promise).isInitialized = false
  nodup : (x.requests.inflight.map (·.promise)).Nodup
  holding : ∀ d ∈ x.holding, d.header.IsOf pid ∧ x.Tracks d.request ∧
    d.request.first = d.header.bid.firstSeq ∧ d.request.last = d.header.bid.lastSeq ∧
    d.request.term ≤ x.insyncTerm ∧ ∀ w ∈ x.waiting, d.request.term ≤ w.expectedTerm
  replicating : ∀ q ∈ x.replicating, x.Tracks q

/-- The invariants of a replica and the log. -/
structure Logged (L : ReplicatedLog ν (Entry ν)) (n : ν) (x : Replica) : Prop where
  applied_le : x.applied ≤ L.committed
  insync_le : x.insyncTerm ≤ L.term
  synced : x.insyncTerm = L.term → L.start ≤ x.applied
  finished_getLast : ∀ q ∈ x.requests.finished.getLast?,
    ∃ e ∈ (L.entries.take x.applied).getLast?, e.header.bid.lastSeq = q.last
  finished_nil : x.requests.finished = [] → x.applied = 0 ∨ x.applied < L.committed
  completed : ∀ q ∈ x.requests.inflight, ∀ v,
    x.requests.states q.promise = .completed (.ok v) →
    ∃ i < L.committed, (origins L)[i]? = some (n, q)
  unapplied : ∀ q ∈ x.requests.inflight, ∀ i : Nat, (origins L)[i]? = some (n, q) → x.applied ≤ i
  order : x.requests.inflight.Pairwise fun f q => ∀ i : Nat, (origins L)[i]? = some (n, q) →
    ∃ j < i, (origins L)[j]? = some (n, f)
  origin_lt : ∀ (i : Nat) q, (origins L)[i]? = some (n, q) → q.promise < x.requests.made
  holding : ∀ d ∈ x.holding, ∀ i : Nat, (origins L)[i]? ≠ some (n, d.request)

/-- The request of the current term that is not enqueued yet. -/
def pending (x : Replica) (L : ReplicatedLog ν (Entry ν)) : List Request :=
  (x.holding.toList.map (·.request)).filter (·.term = L.term)

/-- The invariants of the leader: what it has in flight in its term is the end of the log,
    and what it has not applied is distinguished by its sequence numbers. -/
structure Leading (L : ReplicatedLog ν (Entry ν)) (n : ν) (x : Replica) : Prop where
  idle : x.insyncTerm ≠ L.term → L.entries.length = L.start
  inflight : x.insyncTerm = L.term → ∃ qs,
    x.requests.inflight.filter (·.term = L.term) = qs ++ x.pending L ∧
    qs.map (n, ·) <:+ origins L ∧ (qs = [] → x.applied = L.entries.length)
  nodup : x.insyncTerm = L.term →
    ((L.entries.drop x.applied).map (fun e => (e.header.bid.firstSeq, e.header.bid.lastSeq)) ++
      (x.pending L).map fun q => (q.first, q.last)).Nodup
  continues : ∀ q ∈ x.pending L, ∀ e ∈ L.entries.getLast?,
    q.first = nextSequence e.header.bid.lastSeq

/-! ## Steps that do not change the batches -/

theorem Tracks.mono {x x' : Replica} {q : Request} (h : x.Tracks q)
    (hs : x.requests.Shrinks x'.requests) : x'.Tracks q :=
  ⟨h.1.trans_le hs.made_le, fun q' hq' => h.2 q' (hs.inflight.subset hq')⟩

/-- The requests in flight get fewer, and new batches wait for the term of the replica. -/
theorem Local.mono {x x' : Replica} (h : x.Local pid) (hs : x.requests.Shrinks x'.requests)
    (hid : ∀ p ∈ x'.producer, p.id = pid) (hsync : x.insyncTerm ≤ x'.insyncTerm)
    (hwait : ∀ w ∈ x'.waiting, w ∈ x.waiting ∨
      w.header.IsOf pid ∧ w.expectedTerm = x'.insyncTerm)
    (hpair : x'.waiting.Pairwise fun w w' => w.expectedTerm ≤ w'.expectedTerm)
    (hfin : ∀ q ∈ x'.requests.finished, q ∈ x.requests.finished ∨
      q.promise < x'.requests.made ∧ (x'.requests.states q.promise).isInitialized = false)
    (hhold : ∀ d ∈ x'.holding, d ∈ x.holding)
    (hrepl : ∀ q ∈ x'.replicating, q ∈ x.replicating ∨ ∃ d ∈ x.holding, d.request = q) :
    x'.Local pid := by
  -- A term that is not after the ones waited for stays so.
  have hle : ∀ {t}, t ≤ x.insyncTerm ∧ (∀ w ∈ x.waiting, t ≤ w.expectedTerm) →
      t ≤ x'.insyncTerm ∧ ∀ w ∈ x'.waiting, t ≤ w.expectedTerm := by
    rintro t ⟨ht, hw⟩
    refine ⟨ht.trans hsync, fun w hw' => ?_⟩
    rcases hwait w hw' with hw' | ⟨-, he⟩
    · exact hw w hw'
    · exact he ▸ ht.trans hsync
  have hmade : ∀ {i}, i < x.requests.made ∧ (x.requests.states i).isInitialized = false →
      i < x'.requests.made ∧ (x'.requests.states i).isInitialized = false :=
    fun ⟨hlt, hi⟩ => ⟨hlt.trans_le hs.made_le, hs.isInitialized _ hlt hi⟩
  exact
    { id_eq := hid
      waiting := fun w hw => (hwait w hw).elim
        (fun hw => (h.waiting w hw).imp_right fun hle => hle.trans hsync)
        fun hw => hw.imp_right fun he => he.le
      waiting_pairwise := hpair
      term_le := fun q hq => hle (h.term_le q (hs.inflight.subset hq))
      term_eq := fun q hq q' hq' =>
        h.term_eq q (hs.inflight.subset hq) q' (hs.inflight.subset hq')
      inflight := fun q hq => hmade (h.inflight q (hs.inflight.subset hq))
      finished := fun q hq => (hfin q hq).elim (fun hq => hmade (h.finished q hq)) id
      nodup := h.nodup.sublist (hs.inflight.sublist.map _)
      holding := by
        intro d hd
        obtain ⟨hof, htr, hf, hl, ht⟩ := h.holding d (hhold d hd)
        exact ⟨hof, htr.mono hs, hf, hl, hle ht⟩
      replicating := by
        intro q hq
        rcases hrepl q hq with hq | ⟨d, hd, rfl⟩
        · exact (h.replicating q hq).mono hs
        · exact (h.holding d hd).2.1.mono hs }

variable {L L' : ReplicatedLog ν (Entry ν)} {n : ν} {x x' : Replica}

/-- The requests in flight get fewer, while no batch is applied. -/
theorem Logged.mono (h : x.Logged L n)
    (hs : x.requests.Shrinks x'.requests)
    (happ : x'.applied = x.applied) (hfin : x'.requests.finished = x.requests.finished)
    (hsync : x'.insyncTerm = x.insyncTerm ∨ x'.insyncTerm = L.term ∧ L.start ≤ x.applied)
    (hcomp : ∀ q ∈ x'.requests.inflight, ∀ v, x'.requests.states q.promise = .completed (.ok v) →
      x.requests.states q.promise = .completed (.ok v) ∨
        ∃ i < L.committed, (origins L)[i]? = some (n, q))
    (hhold : ∀ d ∈ x'.holding, d ∈ x.holding) : x'.Logged L n where
  applied_le := happ ▸ h.applied_le
  insync_le := by
    rcases hsync with he | he
    · exact he ▸ h.insync_le
    · exact he.1.le
  synced ht := by
    rw [happ]
    rcases hsync with he | he
    · exact h.synced (he ▸ ht)
    · exact he.2
  finished_getLast := by
    rw [happ, hfin]
    exact h.finished_getLast
  finished_nil := by
    rw [happ, hfin]
    exact h.finished_nil
  completed q hq v hv := by
    rcases hcomp q hq v hv with hv | hi
    · exact h.completed q (hs.inflight.subset hq) v hv
    · exact hi
  unapplied q hq := happ ▸ h.unapplied q (hs.inflight.subset hq)
  order := h.order.sublist hs.inflight.sublist
  origin_lt i q hq := (h.origin_lt i q hq).trans_le hs.made_le
  holding d hd := h.holding d (hhold d hd)

/-- The log changes, but not up to the batches that the replica wrote. -/
theorem Logged.of_grows (h : x.Logged L n) (hg : L.Grows L')
    (hstart : L'.term = L.term → L'.start = L.start)
    (hold : ∀ (i : Nat) q, (origins L')[i]? = some (n, q) →
      ∀ j ≤ i, (origins L')[j]? = (origins L)[j]?) : x.Logged L' n where
  applied_le := h.applied_le.trans hg.committed_le
  insync_le := h.insync_le.trans hg.term_le
  synced ht := by
    have hterm : L'.term = L.term := le_antisymm (ht ▸ h.insync_le) hg.term_le
    rw [hstart hterm]
    exact h.synced (ht.trans hterm)
  finished_getLast := by
    rw [hg.take_eq h.applied_le]
    exact h.finished_getLast
  finished_nil hn := (h.finished_nil hn).imp_right fun hlt => hlt.trans_le hg.committed_le
  completed q hq v hv := by
    obtain ⟨i, hi, ho⟩ := h.completed q hq v hv
    refine ⟨i, hi.trans_le hg.committed_le, ?_⟩
    rw [origins, getElem?_map] at ho ⊢
    rw [hg.getElem?_eq hi]
    exact ho
  unapplied q hq i ho := h.unapplied q hq i (hold i q ho i le_rfl ▸ ho)
  order := by
    refine h.order.imp fun {f q} hfq i ho => ?_
    obtain ⟨j, hj, hf⟩ := hfq i (hold i q ho i le_rfl ▸ ho)
    exact ⟨j, hj, (hold i q ho j hj.le).trans hf⟩
  origin_lt i q ho := h.origin_lt i q (hold i q ho i le_rfl ▸ ho)
  holding d hd i ho := h.holding d hd i (hold i _ ho i le_rfl ▸ ho)

theorem Leading.mono (h : x.Leading L n) (hsync : x'.insyncTerm = x.insyncTerm)
    (happ : x'.applied = x.applied)
    (hin : x'.requests.inflight.filter (·.term = L.term) =
      x.requests.inflight.filter (·.term = L.term))
    (hpend : x'.pending L = x.pending L) : x'.Leading L n where
  idle := hsync ▸ h.idle
  inflight := by
    rw [hsync, happ, hin, hpend]
    exact h.inflight
  nodup := by
    rw [hsync, happ, hpend]
    exact h.nodup
  continues := hpend ▸ h.continues

theorem id_maybeCreateProducer (h : ∀ p ∈ x.producer, p.id = pid) {pid' : ProducerIdentity}
    (hpid : pid' = pid) : (x.maybeCreateProducer pid').id = pid := by
  rw [maybeCreateProducer]
  rcases hx : x.producer with _ | p
  · exact hpid
  · exact h p hx

theorem requests_maybeCreateProducer (x : Replica) (pid : ProducerIdentity) :
    (x.maybeCreateProducer pid).requests = x.requests := by
  rw [maybeCreateProducer, requests]
  cases x.producer <;> rfl

variable {f : Requests → Requests}

theorem shrinks_modifyRequests (hf : ∀ r : Requests, r.Shrinks (f r)) :
    x.requests.Shrinks (x.modifyRequests f).requests := by
  rcases hp : x.producer with _ | p
  · simpa [modifyRequests, requests, hp] using Requests.Shrinks.refl {}
  · simpa [modifyRequests, requests, hp] using hf p.requests

theorem noneSucceeds_modifyRequests (hf : ∀ r : Requests, r.NoneSucceeds (f r)) :
    x.requests.NoneSucceeds (x.modifyRequests f).requests := by
  rcases hp : x.producer with _ | p
  · intro _ _ _ h
    simp [modifyRequests, requests, hp] at h
  · simpa [modifyRequests, requests, hp] using hf p.requests

theorem apply_modifyRequests {α : Type} (g : Requests → α) (hf : ∀ r, g (f r) = g r) :
    g (x.modifyRequests f).requests = g x.requests := by
  rcases hp : x.producer with _ | p <;> simp [modifyRequests, requests, hp, hf]

theorem id_of_mem_modifyRequests (h : ∀ p ∈ x.producer, p.id = pid) :
    ∀ p ∈ (x.modifyRequests f).producer, p.id = pid := by
  intro p hp
  obtain ⟨p', hp', rfl⟩ := Option.map_eq_some_iff.1 hp
  exact h p' hp'

/-! ## Accepting a batch -/

/-- The replica when the request of a batch is new. -/
def accepted (x : Replica) (w : Waiting) (ws : List Waiting) (p : ProducerState) (r : Requests) :
    Replica :=
  { x with
    waiting := ws
    producer := some { p with
      requests := (r.emplace w.header.bid.firstSeq w.header.bid.lastSeq
        w.expectedTerm).markInProgress
          (r.make w.header.bid.firstSeq w.header.bid.lastSeq w.expectedTerm) }
    holding := some ⟨w.header, r.make w.header.bid.firstSeq w.header.bid.lastSeq
      w.expectedTerm⟩ }

/-- What `emplace` does with a batch of a known producer: it leaves out old requests, or it
    puts a new one into the queue as well. -/
theorem emplace_cases (hloc : x.Local pid)
    (hknown : ∀ w ∈ x.waiting.head?, Waiting.skipSequenceChecks w = false)
    (h : x.emplace = some x') :
    ∃ w ws p, x.holding = none ∧ x.waiting = w :: ws ∧ x.producer = some p ∧
      ((∃ r as, (r = p.requests ∨ r = p.requests.gcRequestsFromOlderTerms w.expectedTerm) ∧
        x' = { x with waiting := ws, producer := some { p with requests := r }, answers := as }) ∨
      ∃ r, r = p.requests.gcRequestsFromOlderTerms w.expectedTerm ∧
        (∀ q ∈ r.inflight, q.first = w.header.bid.firstSeq → q.last = w.header.bid.lastSeq →
          q.term ≠ w.expectedTerm) ∧
        r.isValidSequence w.header.bid.firstSeq ∧
        x' = x.accepted w ws p r) := by
  rw [emplace] at h
  split at h
  case h_2 => exact nomatch h
  case h_1 w ws p hhold hwait hp =>
  refine ⟨w, ws, p, hhold, hwait, hp, ?_⟩
  have hid := hloc.id_eq p hp
  have hof := (hloc.waiting w (by simp [hwait])).1
  -- The epoch is the one of the producer, and the sequence numbers are checked.
  have hepoch : ¬ p.id.epoch < w.header.bid.pid.epoch := by
    rw [hid, hof.pid_eq]
    exact Int.lt_irrefl _
  have hskip : Waiting.skipSequenceChecks w = false := hknown w (by simp [hwait])
  have hreq : emplaceRequest p w =
      some (p.tryEmplaceRequest w.header.bid w.expectedTerm false) := by
    simp only [emplaceRequest, ProducerState.raiseEpoch, if_neg hepoch, hskip, Option.map_some]
  rw [hreq, Option.map_some, Option.some.injEq] at h
  subst h
  rw [ProducerState.tryEmplaceRequest]
  split
  · -- Negative sequence numbers.
    exact .inl ⟨p.requests, x.answers, .inl rfl, rfl⟩
  · rw [← requests_eq hp]
    rcases x.requests.tryEmplace_cases w.header.bid.firstSeq w.header.bid.lastSeq w.expectedTerm with
      ⟨q, hq, -, -, he⟩ | ⟨hnew, hvalid, he⟩ | he
    · -- A known request.
      have hi : ((x.requests.gcRequestsFromOlderTerms w.expectedTerm).states
          q.promise).isInitialized = false := by
        refine Requests.isInitialized_completeAll ?_
        rcases hq with hq | hq
        · exact (hloc.finished q hq).2
        · exact (hloc.inflight q (mem_gcRequestsFromOlderTerms hq)).2
      refine .inl ⟨_, (w.header.bid, q) :: x.answers, .inr rfl, ?_⟩
      simp [he, proceed, hi]
    · -- A new request.
      refine .inr ⟨_, rfl, hnew, hvalid, ?_⟩
      simp [he, proceed, accepted, Requests.emplace, Requests.make, RequestState.isInitialized]
    · -- Not the next batch.
      exact .inl ⟨_, x.answers, .inr rfl, by simp only [he, proceed]⟩

/-- The invariants of a replica. -/
structure Inv (pid : ProducerIdentity) (L : ReplicatedLog ν (Entry ν)) (n : ν) (x : Replica) :
    Prop where
  own : x.Local pid
  logged : x.Logged L n
  leading : L.leader = some n → x.Leading L n

/-- What the log has of the batches that were sent. -/
def EntriesInv (pid : ProducerIdentity) (L : ReplicatedLog ν (Entry ν)) : Prop :=
  ∀ e ∈ L.entries, e.header.IsOf pid ∧ e.header.term ≤ L.term ∧
    e.origin.2.first = e.header.bid.firstSeq ∧ e.origin.2.last = e.header.bid.lastSeq

/-- The first sequence number of a batch follows the last one of the batch before. -/
def Follows (e e' : Entry ν) : Prop :=
  e'.header.bid.firstSeq = nextSequence e.header.bid.lastSeq

/-- Requests of older terms are not of the current one. -/
theorem filter_dropWhile_term {t t' : Nat} (ht : t ≤ t') (qs : List Request) :
    (qs.dropWhile (·.term < t)).filter (·.term = t') = qs.filter (·.term = t') := by
  induction qs with
  | nil => rfl
  | cons q qs ih =>
    rw [dropWhile_cons]
    split
    · rename_i hq
      have hq' : q.term < t := by simpa using hq
      rw [ih, filter_cons_of_neg (by simpa using (hq'.trans_le ht).ne)]
    · rfl

/-- The requests that are left out in `emplace` if no new one is made. -/
theorem Inv.emplace_old (h : x.Inv pid L n) {w : Waiting} {ws : List Waiting} {p : ProducerState}
    {r : Requests} {as : List (BatchIdentity × Request)} (hwait : x.waiting = w :: ws)
    (hp : x.producer = some p)
    (hr : r = p.requests ∨ r = p.requests.gcRequestsFromOlderTerms w.expectedTerm) :
    Inv pid L n
      { x with waiting := ws, producer := some { p with requests := r }, answers := as } := by
  set x' : Replica :=
    { x with waiting := ws, producer := some { p with requests := r }, answers := as } with hx'
  have hreq : x'.requests = r := rfl
  have hw : w.expectedTerm ≤ L.term :=
    (h.own.waiting w (by simp [hwait])).2.trans h.logged.insync_le
  obtain ⟨hs, hok, hfin, hfilter⟩ : x.requests.Shrinks r ∧ x.requests.NoneSucceeds r ∧
      r.finished = x.requests.finished ∧
      r.inflight.filter (·.term = L.term) = x.requests.inflight.filter (·.term = L.term) := by
    rw [requests_eq hp]
    rcases hr with rfl | rfl
    · exact ⟨.refl _, fun _ _ _ h => h, rfl, rfl⟩
    · exact ⟨Requests.shrinks_gcRequestsFromOlderTerms _ _,
        Requests.noneSucceeds_gcRequestsFromOlderTerms _ _, rfl, filter_dropWhile_term hw _⟩
  have hsub : ws.Sublist x.waiting := hwait ▸ sublist_cons_self w ws
  refine ⟨h.own.mono (hreq ▸ hs) ?_ le_rfl (fun w hw => .inl (hsub.subset hw))
      (h.own.waiting_pairwise.sublist hsub) ?_ (fun _ => id) (fun q hq => .inl hq),
    h.logged.mono (hreq ▸ hs) rfl (hreq ▸ hfin) (.inl rfl) ?_ (fun _ => id),
    fun hl => (h.leading hl).mono rfl rfl (hreq ▸ hfilter) rfl⟩
  · intro p' hp'
    cases hp'
    exact h.own.id_eq p hp
  · intro q hq
    rw [hreq, hfin] at hq
    exact .inl hq
  · intro q hq v hv
    exact .inl (hok _ (h.own.inflight q (hs.inflight.subset hq)).1 v hv)

/-- After older requests are left out, the requests in flight are of the term of the batch. -/
theorem Local.term_eq_of_mem_gc (h : x.Local pid) {w : Waiting} (hw : w ∈ x.waiting) {q : Request}
    (hq : q ∈ (x.requests.gcRequestsFromOlderTerms w.expectedTerm).inflight) :
    q.term = w.expectedTerm := by
  have hq' := mem_gcRequestsFromOlderTerms hq
  refine le_antisymm ((h.term_le q hq').2 w hw) (not_lt.1 fun hlt => ?_)
  rw [Requests.inflight_gcRequestsFromOlderTerms_of_lt fun q' hq'' =>
    h.term_eq q' hq'' q hq' ▸ hlt] at hq
  cases hq

section

variable {w : Waiting} {ws : List Waiting} {p : ProducerState} {r : Requests} {qs : List Request}

/-- The request that a batch gets if it is new. -/
abbrev newRequest (r : Requests) (w : Waiting) : Request :=
  r.make w.header.bid.firstSeq w.header.bid.lastSeq w.expectedTerm

theorem states_accepted {i : Nat} (hi : i < r.made) :
    (x.accepted w ws p r).requests.states i = r.states i := by
  simp [accepted, requests, markInProgress, Requests.emplace, Requests.make,
    Function.update_of_ne hi.ne]

theorem states_newRequest :
    (x.accepted w ws p r).requests.states (newRequest r w).promise = .inProgress := by
  simp [accepted, requests, markInProgress]

theorem finished_accepted (x : Replica) (w : Waiting) (ws : List Waiting) (p : ProducerState)
    (r : Requests) : (x.accepted w ws p r).requests.finished = [] ∨
    (x.accepted w ws p r).requests.finished = r.finished := by
  simp only [accepted, requests, Option.map_some, Option.getD_some, markInProgress,
    Requests.emplace]
  split
  · exact .inl rfl
  · exact .inr rfl

/-- The new request is the last one in flight. The others were in flight before, in the same
    term, and if there is no other one there was none before. -/
theorem Local.inflight_accepted (h : x.Local pid) (ws : List Waiting) (p : ProducerState)
    (hw : w ∈ x.waiting)
    (hr : r = x.requests.gcRequestsFromOlderTerms w.expectedTerm) :
    ∃ qs, (x.accepted w ws p r).requests.inflight = qs ++ [newRequest r w] ∧
      (∀ q ∈ (x.accepted w ws p r).requests.inflight,
        (q ∈ qs ∨ q = newRequest r w) ∧ q.term = w.expectedTerm) ∧
      qs <:+ r.inflight ∧ qs.Sublist x.requests.inflight ∧ (qs = [] → r.inflight = []) ∧
      ∀ q ∈ qs, q ∈ x.requests.inflight ∧ q.promise < r.made := by
  obtain ⟨qs, hqs, hsuf, hnil⟩ := Requests.dropOldest_append_singleton
    (Function.update r.states r.made .initialized) r.inflight (newRequest r w)
  have hsub : qs.Sublist x.requests.inflight := by
    refine hsuf.sublist.trans ?_
    rw [hr]
    exact (dropWhile_suffix _).sublist
  refine ⟨qs, hqs, fun q hq => ?_, hsuf, hsub, hnil, fun q hq => ⟨hsub.subset hq, ?_⟩⟩
  · have hq' : q ∈ qs ++ [newRequest r w] := hqs ▸ hq
    rcases mem_concat.1 hq' with hq' | rfl
    · exact ⟨.inl hq', h.term_eq_of_mem_gc hw (hr ▸ hsuf.subset hq')⟩
    · exact ⟨.inr rfl, rfl⟩
  · rw [hr]
    exact (h.inflight q (hsub.subset hq)).1

theorem Local.accepted (h : x.Local pid) (hwait : x.waiting = w :: ws) (hp : x.producer = some p)
    (hr : r = x.requests.gcRequestsFromOlderTerms w.expectedTerm) :
    (x.accepted w ws p r).Local pid := by
  have hw : w ∈ x.waiting := by simp [hwait]
  have hpair := h.waiting_pairwise
  rw [hwait, pairwise_cons] at hpair
  obtain ⟨hof, hle⟩ := h.waiting w hw
  obtain ⟨qs, hin, hmem, -, hsub, -, hqs⟩ := h.inflight_accepted ws p hw hr
  have hmade : r.made = x.requests.made := by rw [hr]; rfl
  -- The states of the requests that were made before.
  have hstate : ∀ {i}, i < x.requests.made ∧ (x.requests.states i).isInitialized = false →
      i < r.made + 1 ∧ ((x.accepted w ws p r).requests.states i).isInitialized = false := by
    rintro i ⟨hlt, hi⟩
    rw [← hmade] at hlt
    refine ⟨hlt.trans (Nat.lt_succ_self _), ?_⟩
    rw [states_accepted hlt, hr]
    exact Requests.isInitialized_completeAll hi
  refine
    { id_eq := ?_, waiting := fun w' hw' => h.waiting w' (hwait ▸ mem_cons_of_mem w hw'),
      waiting_pairwise := hpair.2, term_le := ?_, term_eq := ?_, inflight := ?_, finished := ?_,
      nodup := ?_, holding := ?_, replicating := ?_ }
  · intro p' hp'
    cases hp'
    exact h.id_eq p hp
  · intro q hq
    rw [(hmem q hq).2]
    exact ⟨hle, hpair.1⟩
  · intro q hq q' hq'
    rw [(hmem q hq).2, (hmem q' hq').2]
  · intro q hq
    rcases (hmem q hq).1 with hq | rfl
    · exact hstate (h.inflight q (hqs q hq).1)
    · rw [states_newRequest]
      exact ⟨Nat.lt_succ_self _, rfl⟩
  · intro q hq
    rcases x.finished_accepted w ws p r with hf | hf
    · rw [hf] at hq
      cases hq
    · rw [hf, hr] at hq
      exact hstate (h.finished q hq)
  · rw [hin, map_append, nodup_append]
    refine ⟨h.nodup.sublist (hsub.map _), by simp, fun i hi j hj => ?_⟩
    obtain ⟨q, hq, rfl⟩ := mem_map.1 hi
    rw [map_singleton, mem_singleton] at hj
    exact hj ▸ (hqs q hq).2.ne
  · intro d hd
    cases hd
    refine ⟨hof, ⟨Nat.lt_succ_self _, fun q hq he => ?_⟩, rfl, rfl, hle, hpair.1⟩
    exact (hmem q hq).1.resolve_left fun hq => (hqs q hq).2.ne he
  · intro q hq
    obtain ⟨hlt, heq⟩ := h.replicating q hq
    rw [← hmade] at hlt
    refine ⟨hlt.trans (Nat.lt_succ_self _), fun q' hq' he => ?_⟩
    rcases (hmem q' hq').1 with hq' | rfl
    · exact heq q' (hqs q' hq').1 he
    · exact absurd he.symm hlt.ne

/-- The oldest request in a full queue, which may be dropped, has not failed. -/
def KeepsFailed (r : Requests) : Prop :=
  ∀ q ∈ r.inflight.head?, cachedMax ≤ r.inflight.length →
    (r.states q.promise).hasFailed = false

theorem Logged.accepted (h : x.Logged L n) (hloc : x.Local pid) (hwait : x.waiting = w :: ws)
    (hr : r = x.requests.gcRequestsFromOlderTerms w.expectedTerm) (hkeep : KeepsFailed r) :
    (x.accepted w ws p r).Logged L n := by
  have hw : w ∈ x.waiting := by simp [hwait]
  obtain ⟨qs, hin, hmem, -, hsub, -, hqs⟩ := hloc.inflight_accepted ws p hw hr
  have hmade : r.made = x.requests.made := by rw [hr]; rfl
  -- The new request has not written anything.
  have hnew : ∀ i : Nat, (origins L)[i]? ≠ some (n, newRequest r w) := by
    intro i hi
    exact (hmade ▸ h.origin_lt i _ hi).ne rfl
  have hok : ∀ {q v}, q ∈ x.requests.inflight → r.states q.promise = .completed (.ok v) →
      ∃ i < L.committed, (origins L)[i]? = some (n, q) := by
    intro q v hq hv
    rw [hr] at hv
    exact h.completed q hq v (Requests.eq_ok_of_completeAll_error hv)
  refine
    { h with
      finished_getLast := ?_, finished_nil := ?_, completed := ?_, unapplied := ?_, order := ?_,
      origin_lt := ?_, holding := ?_ }
  · rcases x.finished_accepted w ws p r with hf | hf
    · simp [hf]
    · rw [hf, hr]
      exact h.finished_getLast
  · intro hnil
    by_cases hdrop : (x.accepted w ws p r).requests.inflight.length <
        (r.inflight ++ [newRequest r w]).length
    · -- The oldest request was dropped, so it has succeeded. Its batch is committed and
      -- not applied yet.
      obtain ⟨q, hq, hlen, hc⟩ := Requests.exists_of_length_dropOldest_lt hdrop
      have hlen' : cachedMax ≤ r.inflight.length := by
        rw [length_append, length_singleton] at hlen
        exact Nat.lt_succ_iff.1 hlen
      have hq' : q ∈ r.inflight.head? := by
        rcases hri : r.inflight with _ | ⟨q', qs'⟩
        · simp [hri, cachedMax] at hlen'
        · simpa [hri] using hq
      have hqx : q ∈ x.requests.inflight :=
        mem_gcRequestsFromOlderTerms (hr ▸ mem_of_mem_head? hq')
      have hlt : q.promise ≠ r.made := (hmade ▸ (hloc.inflight q hqx).1).ne
      rw [Function.update_of_ne hlt] at hc
      rcases hs : r.states q.promise with _ | _ | (ec | v)
      · simp [hs, RequestState.hasCompleted] at hc
      · simp [hs, RequestState.hasCompleted] at hc
      · have := hkeep q hq' hlen'
        simp [hs, RequestState.hasFailed] at this
      · obtain ⟨i, hi, ho⟩ := hok hqx hs
        exact .inr ((h.unapplied q hqx i ho).trans_lt hi)
    · have hf : (x.accepted w ws p r).requests.finished = r.finished := if_neg hdrop
      rw [hf, hr] at hnil
      exact h.finished_nil hnil
  · intro q hq v hv
    rcases (hmem q hq).1 with hq | rfl
    · rw [states_accepted (hqs q hq).2] at hv
      exact hok (hqs q hq).1 hv
    · simp [states_newRequest] at hv
  · intro q hq i ho
    rcases (hmem q hq).1 with hq | rfl
    · exact h.unapplied q (hqs q hq).1 i ho
    · exact absurd ho (hnew i)
  · rw [hin, pairwise_concat]
    exact ⟨h.order.sublist hsub, fun f _ i ho => absurd ho (hnew i)⟩
  · intro i q ho
    exact (hmade ▸ h.origin_lt i q ho).trans (Nat.lt_succ_self _)
  · intro d hd
    cases hd
    exact hnew

/-- The batches of the log that are not applied and have the sequence numbers of a batch are
    still in flight. -/
def Distinguishes (L : ReplicatedLog ν (Entry ν)) (x : Replica) (r : Requests) (w : Waiting) :
    Prop :=
  ∀ e ∈ L.entries.drop x.applied,
    e.header.bid.firstSeq = w.header.bid.firstSeq → e.header.bid.lastSeq = w.header.bid.lastSeq →
    ∃ q ∈ r.inflight, q.first = w.header.bid.firstSeq ∧ q.last = w.header.bid.lastSeq

theorem getLast?_origin_of_isSuffix {q : Request}
    (h : qs.map (n, ·) <:+ origins L) (hq : qs.getLast? = some q) :
    ∃ e, L.entries.getLast? = some e ∧ e.origin = (n, q) := by
  have hlast : (origins L).getLast? = some (n, q) := by
    obtain ⟨l, hl⟩ := h
    rw [← hl, getLast?_append, getLast?_map, hq]
    rfl
  rw [origins, getLast?_map] at hlast
  exact Option.map_eq_some_iff.1 hlast

/-- The batch that the leader accepts continues the log. -/
theorem continues_of_isValidSequence (h : x.Logged L n) (hent : EntriesInv pid L)
    (hsuf : qs.map (n, ·) <:+ origins L)
    (hnil : qs = [] → x.applied = L.entries.length) (hin : r.inflight = qs)
    (hfin : r.finished = x.requests.finished) {first : Int} (hvalid : r.isValidSequence first)
    {e : Entry ν} (he : e ∈ L.entries.getLast?) : first = nextSequence e.header.bid.lastSeq := by
  rw [Requests.isValidSequence, Requests.lastRequest, hin, hfin] at hvalid
  rcases hlast : qs.getLast? with _ | q
  · -- Nothing is in flight, so all of the log is applied, and its last batch is finished.
    have hqs : qs = [] := getLast?_eq_none_iff.1 hlast
    have hne : L.entries ≠ [] := by
      rintro hL
      simp [hL] at he
    have hfne : x.requests.finished ≠ [] := by
      intro hf
      have hpos := length_pos_iff.2 hne
      have hle := L.committed_le
      have hcases := h.finished_nil hf
      rw [hnil hqs] at hcases
      omega
    have hq := getLast?_eq_some_getLast hfne
    obtain ⟨e', he', hseq⟩ := h.finished_getLast _ hq
    rw [hnil hqs, take_length] at he'
    cases he.symm.trans he'
    rw [if_pos hqs, hq] at hvalid
    rw [hseq]
    simpa using hvalid
  · obtain ⟨e', he', ho⟩ := getLast?_origin_of_isSuffix hsuf hlast
    cases he.symm.trans he'
    have hqs : qs ≠ [] := by
      rintro rfl
      simp at hlast
    have hseq := (hent e (mem_of_getLast? he)).2.2.2
    rw [ho] at hseq
    rw [if_neg hqs, hlast] at hvalid
    rw [← hseq]
    simpa using hvalid

theorem Leading.accepted (h : x.Leading L n) (hloc : x.Local pid) (hlog : x.Logged L n)
    (hent : EntriesInv pid L) (hhold : x.holding = none) (hwait : x.waiting = w :: ws)
    (hr : r = x.requests.gcRequestsFromOlderTerms w.expectedTerm)
    (hnew : ∀ q ∈ r.inflight, q.first = w.header.bid.firstSeq → q.last = w.header.bid.lastSeq →
      q.term ≠ w.expectedTerm)
    (hvalid : r.isValidSequence w.header.bid.firstSeq)
    (hdist : L.term = w.expectedTerm → Distinguishes L x r w) :
    (x.accepted w ws p r).Leading L n := by
  have hw : w ∈ x.waiting := by simp [hwait]
  obtain ⟨qs', hin, hmem, hsuf', -, hnil', -⟩ := hloc.inflight_accepted ws p hw hr
  have hpend : x.pending L = [] := by simp [pending, hhold]
  by_cases ht : w.expectedTerm = L.term
  case neg =>
    -- A batch for an earlier term does not concern the current one.
    have hpend' : (x.accepted w ws p r).pending L = [] := by
      simp [pending, Replica.accepted, Requests.make, ht]
    have hle : w.expectedTerm < L.term :=
      lt_of_le_of_ne ((hloc.waiting w hw).2.trans hlog.insync_le) ht
    refine h.mono rfl rfl ?_ (hpend'.trans hpend.symm)
    rw [filter_eq_nil_iff.2 fun q hq => ?_, filter_eq_nil_iff.2 fun q hq => ?_]
    · simpa using (((hloc.term_le q hq).2 w hw).trans_lt hle).ne
    · simpa [(hmem q hq).2] using ht
  case pos =>
    have hpend' : (x.accepted w ws p r).pending L = [newRequest r w] := by
      simp [pending, Replica.accepted, Requests.make, ht]
    have hsync : x.insyncTerm = L.term :=
      le_antisymm hlog.insync_le (ht ▸ (hloc.waiting w hw).2)
    obtain ⟨qs, hqs, hsuf, hnil⟩ := h.inflight hsync
    rw [hpend, append_nil] at hqs
    -- What is in flight after the older requests are left out is what is in flight in the term.
    have hrin : r.inflight = qs := by
      rw [← hqs, ← filter_dropWhile_term ht.le, hr]
      refine (filter_eq_self.2 fun q hq => ?_).symm
      simpa [← ht] using hloc.term_eq_of_mem_gc hw hq
    refine ⟨h.idle, fun _ => ⟨qs', ?_, ?_, fun hqs'' => ?_⟩, fun _ => ?_, ?_⟩
    · rw [hpend', ← hin]
      exact filter_eq_self.2 fun q hq => by simpa [(hmem q hq).2] using ht
    · rw [hrin] at hsuf'
      exact (hsuf'.map _).trans hsuf
    · exact hnil (hrin ▸ hnil' hqs'')
    · have hnodup := h.nodup hsync
      rw [hpend, map_nil, append_nil] at hnodup
      rw [hpend', nodup_append]
      refine ⟨hnodup, by simp, fun a ha b hb => ?_⟩
      obtain ⟨e, he, rfl⟩ := mem_map.1 ha
      rw [map_singleton, mem_singleton] at hb
      subst hb
      intro heq
      obtain ⟨hf, hl⟩ := Prod.mk.inj heq
      obtain ⟨q, hq, hqf, hql⟩ := hdist ht.symm e he hf hl
      exact hnew q hq hqf hql (hloc.term_eq_of_mem_gc hw (hr ▸ hq))
    · intro q hq e he
      rw [hpend', mem_singleton] at hq
      subst hq
      exact continues_of_isValidSequence hlog hent hsuf hnil hrin (by rw [hr]; rfl) hvalid he

end

/-! ## The log changes -/

section

variable (h : x.Inv pid L n)

include h

theorem Inv.commit (k : Nat) : x.Inv pid (L.commit k) n :=
  ⟨h.own, h.logged.of_grows (L.grows_commit k) (fun _ => rfl) fun _ _ _ _ _ => rfl,
    fun hl => { h.leading hl with }⟩

theorem Inv.stepDown [DecidableEq ν] (m : ν) (t : Nat) : x.Inv pid (L.stepDown m t) n := by
  rw [ReplicatedLog.stepDown]
  split
  · exact ⟨h.own, { h.logged with }, fun hl => absurd hl (by simp)⟩
  · exact h

theorem Inv.elect (m : ν) (k : Nat) : x.Inv pid (L.elect m k) n := by
  have ho : origins (L.elect m k) = (origins L).take (max L.committed k) := map_take
  refine ⟨h.own, h.logged.of_grows (L.grows_elect m k) (fun ht => ?_) fun i q hi j hj => ?_,
    fun _ => ?_⟩
  · exact absurd ht (Nat.succ_ne_self _)
  · rw [ho] at hi ⊢
    obtain ⟨hlt, -⟩ := List.getElem?_eq_some_iff.1 hi
    rw [length_take] at hlt
    exact getElem?_take_of_lt (by omega)
  · have hlt : x.insyncTerm < (L.elect m k).term := Nat.lt_succ_of_le h.logged.insync_le
    refine ⟨fun _ => rfl, fun ht => absurd ht hlt.ne, fun ht => absurd ht hlt.ne, ?_⟩
    intro q hq
    -- The request that is not enqueued yet is of an earlier term.
    rw [pending, mem_filter, mem_map] at hq
    obtain ⟨⟨d, hd, rfl⟩, ht⟩ := hq
    obtain ⟨-, -, -, -, hle, -⟩ := h.own.holding d (Option.mem_toList.1 hd)
    exact absurd (of_decide_eq_true ht) (hle.trans_lt hlt).ne

theorem Inv.append_other {e : Entry ν} {m : ν} (hm : L.leader = some m)
    (he : e.origin.1 = m) (hne : m ≠ n) : x.Inv pid (L.append e) n := by
  have ho : origins (L.append e) = origins L ++ [e.origin] := by simp [origins]
  refine ⟨h.own, h.logged.of_grows (L.grows_append e) (fun _ => rfl) fun i q hi j hj => ?_,
    fun hl => absurd (Option.some.inj (hm.symm.trans hl)) hne⟩
  rw [ho] at hi ⊢
  rcases getElem?_concat_eq_some hi with hi | ⟨-, hi⟩
  · obtain ⟨hlt, -⟩ := List.getElem?_eq_some_iff.1 hi
    exact getElem?_append_left (hj.trans_lt hlt)
  · -- The new batch is of another replica.
    exact absurd (he.symm.trans (congrArg Prod.fst hi)) hne

/-- The leader enqueues the batch of a request of its term. -/
theorem Inv.enqueue {d : Holding} (hd : x.holding = some d) {e : Entry ν}
    (hl : L.leader = some n) (ht : d.request.term = L.term) (ho : e.origin = (n, d.request))
    (hf : e.header.bid.firstSeq = d.request.first) (hlast : e.header.bid.lastSeq = d.request.last) :
    Inv pid (L.append e) n
      { x with holding := none, replicating := d.request :: x.replicating } := by
  set x' : Replica :=
    { x with holding := none, replicating := d.request :: x.replicating } with hx'
  have hor : origins (L.append e) = origins L ++ [(n, d.request)] := by simp [origins, ho]
  have hpend : x.pending L = [d.request] := by simp [pending, hd, ht]
  have hpend' : x'.pending (L.append e) = [] := by simp [pending, hx']
  have hsync : x.insyncTerm = L.term := by
    obtain ⟨-, -, -, -, hle, -⟩ := h.own.holding d hd
    exact le_antisymm h.logged.insync_le (ht ▸ hle)
  obtain ⟨qs, hqs, hsuf, hnil⟩ := (h.leading hl).inflight hsync
  rw [hpend] at hqs
  -- All requests in flight are of the term.
  have hin : x.requests.inflight = qs ++ [d.request] := by
    rw [← hqs]
    refine (filter_eq_self.2 fun q hq => ?_).symm
    have hd' : d.request ∈ x.requests.inflight := by
      refine (filter_sublist (p := (·.term = L.term))).subset ?_
      rw [hqs]
      simp
    simpa using (h.own.term_eq q hq d.request hd').trans ht
  have hmade := h.own.nodup
  rw [hin, map_append, nodup_append] at hmade
  have hold : ∀ {i : Nat} {q}, q ∈ qs → (origins (L.append e))[i]? = some (n, q) →
      (origins L)[i]? = some (n, q) := by
    intro i q hq hi
    rw [hor] at hi
    refine (getElem?_concat_eq_some hi).resolve_right fun hi' => ?_
    exact hmade.2.2 _ (mem_map_of_mem hq) _ (by simp)
      (congrArg (fun y => y.2.promise) hi'.2).symm
  have hnew : ∀ {i : Nat}, (origins (L.append e))[i]? = some (n, d.request) →
      i = (origins L).length := by
    intro i hi
    rw [hor] at hi
    exact ((getElem?_concat_eq_some hi).resolve_left (h.logged.holding d hd i)).1
  refine ⟨h.own.mono (.refl _) h.own.id_eq le_rfl (fun _ => .inl) h.own.waiting_pairwise
    (fun _ => .inl) (by simp) ?_, ?_, fun _ => ?_⟩
  · exact forall_mem_cons.2 ⟨.inr ⟨d, hd, rfl⟩, fun _ => .inl⟩
  · have hlen : (origins L).length = L.entries.length := length_map _
    refine
      { h.logged with
        finished_getLast := ?_, completed := ?_, unapplied := ?_, order := ?_, origin_lt := ?_,
        holding := by simp }
    · rw [(L.grows_append e).take_eq h.logged.applied_le]
      exact h.logged.finished_getLast
    · intro q hq v hv
      obtain ⟨i, hi, hi'⟩ := h.logged.completed q hq v hv
      refine ⟨i, hi, ?_⟩
      rw [hor, getElem?_append_left (hlen ▸ hi.trans_le L.committed_le)]
      exact hi'
    · intro q hq i hi
      have hq' : q ∈ qs ++ [d.request] := hin ▸ hq
      rcases mem_concat.1 hq' with hq' | rfl
      · exact h.logged.unapplied q hq i (hold hq' hi)
      · rw [hnew hi, hlen]
        exact h.logged.applied_le.trans L.committed_le
    · have hord := h.logged.order
      show x.requests.inflight.Pairwise _
      rw [hin, pairwise_concat] at hord ⊢
      refine ⟨?_, fun f hf' i hi => ?_⟩
      · refine hord.1.imp_of_mem fun {f q} _ hq hfq i hi => ?_
        obtain ⟨j, hj, hj'⟩ := hfq i (hold hq hi)
        obtain ⟨hlt, -⟩ := List.getElem?_eq_some_iff.1 hj'
        exact ⟨j, hj, by rw [hor, getElem?_append_left hlt, hj']⟩
      · -- The requests before were enqueued before.
        have hmem : (n, f) ∈ origins L := hsuf.subset (mem_map_of_mem hf')
        obtain ⟨j, hj⟩ := mem_iff_getElem?.1 hmem
        obtain ⟨hlt, -⟩ := List.getElem?_eq_some_iff.1 hj
        exact ⟨j, hnew hi ▸ hlt, by rw [hor, getElem?_append_left hlt, hj]⟩
    · intro i q hi
      rw [hor] at hi
      rcases getElem?_concat_eq_some hi with hi | ⟨-, hi⟩
      · exact h.logged.origin_lt i q hi
      · rw [← (Prod.mk.inj hi).2]
        exact (h.own.holding d hd).2.1.1
  · refine ⟨fun hne => absurd hsync hne, fun _ => ⟨qs ++ [d.request], ?_, ?_, by simp⟩,
      fun _ => ?_, ?_⟩
    · rw [hpend', append_nil]
      exact hqs
    · rw [hor, map_append]
      obtain ⟨l, hl'⟩ := hsuf
      exact ⟨l, by rw [← hl']; simp⟩
    · have hnodup := (h.leading hl).nodup hsync
      have happ : x.applied ≤ L.entries.length := h.logged.applied_le.trans L.committed_le
      rw [hpend] at hnodup
      rw [hpend', ReplicatedLog.append_entries, drop_append_of_le_length happ, map_append]
      simpa [hf, hlast] using hnodup
    · rw [hpend']
      exact nofun

end

/-! ## A batch is applied -/

/-- What `apply` does with a batch of the producer. -/
theorem apply_eq_some [DecidableEq ν] (hid : ∀ p ∈ x.producer, p.id = pid)
    (hent : EntriesInv pid L) (h : x.apply L = some x') :
    ∃ e p, x.applied < L.committed ∧ L.entries[x.applied]? = some e ∧ p.id = pid ∧
      p.requests = x.requests.stmApply e.header.bid e.header.term e.header.lastOffset ∧
      x' = { x with producer := some p, applied := x.applied + 1 } := by
  rw [apply] at h
  obtain ⟨hlt, h⟩ := Option.ite_none_right_eq_some.1 h
  obtain ⟨e, he, h⟩ := Option.bind_eq_some_iff.1 h
  obtain ⟨p, hp, h⟩ := Option.bind_eq_some_iff.1 h
  have hof := (hent e (mem_of_getElem? he)).1
  have hpid := id_maybeCreateProducer hid hof.pid_eq
  have hepoch : ¬ (x.maybeCreateProducer e.header.bid.pid).id.epoch < e.header.bid.pid.epoch := by
    rw [hpid, hof.pid_eq]
    exact Int.lt_irrefl _
  simp only [ProducerState.applyData, ProducerState.raiseEpoch, hof.isIdempotent,
    hof.not_isTransactional, if_neg hepoch, Bool.not_true, Bool.false_eq_true, if_false,
    Option.map_some, Option.some.injEq] at hp
  refine ⟨e, p, hlt, he, ?_, ?_, (Option.some.inj h).symm⟩
  · rw [← hp]
    exact hpid
  · rw [← hp, ← x.requests_maybeCreateProducer e.header.bid.pid]

section

variable {e : Entry ν} {p : ProducerState}

/-- The replica when a batch is applied. -/
def after (x : Replica) (p : ProducerState) : Replica :=
  { x with producer := some p, applied := x.applied + 1 }

theorem Local.after (h : x.Local pid) (hid : p.id = pid)
    (hp : p.requests = x.requests.stmApply e.header.bid e.header.term e.header.lastOffset) :
    (x.after p).Local pid := by
  have hreq : (x.after p).requests = _ := hp
  refine h.mono (hreq ▸ Requests.shrinks_stmApply _ _ _ _) ?_ le_rfl (fun _ => .inl)
    h.waiting_pairwise ?_ (fun _ => id) (fun q hq => .inl hq)
  · intro p' hp'
    cases hp'
    exact hid
  · intro q hq
    obtain ⟨qs, hqs, hsuf⟩ := x.requests.finished_stmApply e.header.bid e.header.term
      e.header.lastOffset
    rw [hreq, hqs, mem_append, mem_singleton] at hq
    rcases hq with hq | rfl
    · exact .inl (hsuf.subset hq)
    · refine .inr ?_
      rw [hreq]
      simp [Requests.stmApply, Requests.finish, Requests.make, Requests.gcRequestsFromOlderTerms,
        Requests.promote_frame, RequestState.isInitialized]

/-- A request in flight that wrote the batch is the oldest one, since the others wrote theirs
    before. -/
theorem Logged.eq_head (h : x.Logged L n) {q : Request} (hq : q ∈ x.requests.inflight)
    (ho : (origins L)[x.applied]? = some (n, q)) : ∃ qs, x.requests.inflight = q :: qs := by
  rcases hin : x.requests.inflight with _ | ⟨f, qs⟩
  · rw [hin] at hq
    cases hq
  · have hord := h.order
    rw [hin, pairwise_cons] at hord
    rw [hin] at hq
    rcases mem_cons.1 hq with rfl | hq
    · exact ⟨qs, rfl⟩
    · obtain ⟨j, hj, hf⟩ := hord.1 q hq _ ho
      exact absurd (h.unapplied f (by simp [hin]) j hf) hj.not_ge

variable (hloc : x.Local pid) (hent : EntriesInv pid L) (hlt : x.applied < L.committed)
  (he : L.entries[x.applied]? = some e)
  (hp : p.requests = x.requests.stmApply e.header.bid e.header.term e.header.lastOffset)

include hloc hent hlt he hp

theorem Logged.after (h : x.Logged L n) : (x.after p).Logged L n := by
  have hreq : (x.after p).requests = _ := hp
  have hs := hreq ▸ x.requests.shrinks_stmApply e.header.bid e.header.term e.header.lastOffset
  have hok := hreq ▸ x.requests.noneSucceeds_stmApply e.header.bid e.header.term
    e.header.lastOffset
  obtain ⟨qs, hqs, -⟩ := x.requests.finished_stmApply e.header.bid e.header.term
    e.header.lastOffset
  have ho : (origins L)[x.applied]? = some e.origin := by rw [origins, getElem?_map, he]; rfl
  refine
    { h with
      applied_le := hlt, synced := fun ht => (h.synced ht).trans (Nat.le_succ _),
      finished_getLast := ?_, finished_nil := ?_, completed := ?_, unapplied := ?_,
      order := h.order.sublist hs.inflight.sublist,
      origin_lt := fun i q hi => (h.origin_lt i q hi).trans_le hs.made_le }
  · intro q hq
    rw [hreq, hqs, getLast?_concat, Option.mem_some_iff] at hq
    subst hq
    refine ⟨e, ?_, rfl⟩
    rw [Replica.after, take_add_one, he]
    simp
  · intro hnil
    rw [hreq, hqs] at hnil
    simp at hnil
  · intro q hq v hv
    have hq' := hs.inflight.subset hq
    exact h.completed q hq' v (hok _ (hloc.inflight q hq').1 v hv)
  · intro q hq i hi
    have hq' := hs.inflight.subset hq
    refine Nat.succ_le_of_lt (lt_of_le_of_ne (h.unapplied q hq' i hi) ?_)
    rintro rfl
    -- The request that wrote the batch is promoted, so it is not in flight any more.
    obtain ⟨qs', hin⟩ := h.eq_head hq' hi
    obtain ⟨-, -, hf, hl⟩ := hent e (mem_of_getElem? he)
    rw [Option.some.inj (ho.symm.trans hi)] at hf hl
    have hprom := Requests.inflight_promote_of_eq hin hf hl
    have hmem : q ∈ qs' := by
      rw [hreq] at hq
      rw [← hprom]
      exact mem_gcRequestsFromOlderTerms (t := e.header.term) hq
    have hnodup := hloc.nodup
    rw [hin, map_cons, nodup_cons] at hnodup
    exact hnodup.1 (mem_map_of_mem hmem)

theorem Leading.after (h : x.Leading L n) (hlog : x.Logged L n) : (x.after p).Leading L n := by
  have hreq : (x.after p).requests = _ := hp
  have hdrop : L.entries.drop x.applied = e :: L.entries.drop (x.applied + 1) := by
    obtain ⟨hlt', rfl⟩ := List.getElem?_eq_some_iff.1 he
    exact drop_eq_getElem_cons hlt'
  refine ⟨h.idle, fun hsync => ?_, fun hsync => ?_, h.continues⟩
  · obtain ⟨qs, hqs, hsuf, hnil⟩ := h.inflight hsync
    obtain ⟨f, qs, rfl⟩ : ∃ f fs, qs = f :: fs := by
      refine exists_cons_of_ne_nil fun hqs' => ?_
      have := L.committed_le
      have := hnil hqs'
      omega
    -- All requests in flight are of the term.
    have hmem : ∀ q ∈ f :: qs ++ x.pending L, q ∈ x.requests.inflight ∧ q.term = L.term := by
      intro q hq
      rw [← hqs, mem_filter] at hq
      simpa using hq
    have hin : x.requests.inflight = f :: (qs ++ x.pending L) := by
      rw [← cons_append, ← hqs]
      refine (filter_eq_self.2 fun q hq => ?_).symm
      obtain ⟨hf, hft⟩ := hmem f (by simp)
      simpa using (hloc.term_eq q hq f hf).trans hft
    have hfilter : ∀ {qs'}, (x.requests.promote e.header.bid).inflight = qs' →
        (∀ q ∈ qs', q.term = L.term) →
        (x.after p).requests.inflight.filter (·.term = L.term) = qs' := by
      intro qs' hqs' hall
      have hle : ∀ q ∈ (x.requests.promote e.header.bid).inflight, e.header.term ≤ q.term := by
        intro q hq
        rw [hall q (hqs' ▸ hq)]
        exact (hent e (mem_of_getElem? he)).2.1
      rw [hreq]
      show ((x.requests.promote e.header.bid).gcRequestsFromOlderTerms _).inflight.filter _ = _
      rw [Requests.inflight_gcRequestsFromOlderTerms_of_le hle, hqs']
      exact filter_eq_self.2 fun q hq => by simpa using hall q hq
    obtain ⟨l, hl⟩ := hsuf
    have hf : (origins L)[l.length]? = some (n, f) := by
      rw [← hl, getElem?_append_right le_rfl, Nat.sub_self]
      rfl
    obtain ⟨e', he', ho⟩ : ∃ e', L.entries[l.length]? = some e' ∧ e'.origin = (n, f) := by
      rw [origins, getElem?_map] at hf
      exact Option.map_eq_some_iff.1 hf
    obtain ⟨-, -, hfirst, hlast⟩ := hent e' (mem_of_getElem? he')
    rw [ho] at hfirst hlast
    rcases (hlog.unapplied f (hmem f (by simp)).1 _ hf).eq_or_lt with heq | hlt'
    · -- The oldest request in flight wrote the batch.
      obtain rfl : e = e' := Option.some.inj (he.symm.trans (heq ▸ he'))
      refine ⟨qs, hfilter (Requests.inflight_promote_of_eq hin hfirst hlast) fun q hq => ?_,
        ⟨l ++ [(n, f)], by rw [← hl]; simp⟩, fun hqs' => ?_⟩
      · exact (hmem q (mem_cons_of_mem f hq)).2
      · have hlen : (origins L).length = L.entries.length := length_map _
        rw [← hlen, ← hl, hqs']
        simp [Replica.after, heq]
    · -- The request that wrote it was dropped, and the oldest one has other sequence numbers.
      refine ⟨f :: qs, hfilter (Requests.inflight_promote_of_ne hin fun hf' hl' => ?_) fun q hq =>
        (hmem q hq).2, ⟨l, hl⟩, by simp⟩
      have hnodup := h.nodup hsync
      rw [hdrop, map_cons, cons_append, nodup_cons] at hnodup
      refine hnodup.1 (mem_append_left _ (mem_map.2 ⟨e', ?_, ?_⟩))
      · refine mem_iff_getElem?.2 ⟨l.length - (x.applied + 1), ?_⟩
        rw [getElem?_drop, Nat.add_sub_cancel' hlt', he']
      · rw [← hfirst, ← hlast, hf', hl']
  · have hnodup := h.nodup hsync
    rw [hdrop, map_cons, cons_append, nodup_cons] at hnodup
    exact hnodup.2

end

/-! ## Waiting for results -/

theorem Inv.receive (h : x.Inv pid L n) {hdr : RecordBatchHeader} (hpid : hdr.bid.pid = pid)
    (hx' : x.receive hdr = some x') : x'.Inv pid L n := by
  rw [Replica.receive] at hx'
  obtain ⟨hcond, ⟨⟩⟩ := Option.ite_none_right_eq_some.1 hx'
  have htx : hdr.isTransactional = false := by simpa using hcond.2
  have hof : hdr.IsOf pid := ⟨hpid, hcond.1, htx⟩
  have hreq : (x.maybeCreateProducer hdr.bid.pid).requests = x.requests :=
    x.requests_maybeCreateProducer _
  set x' : Replica := { x with
    producer := some (x.maybeCreateProducer hdr.bid.pid)
    waiting := x.waiting ++ [⟨hdr, x.insyncTerm, x.producer.isSome⟩] }
  have hreq' : x'.requests = x.requests := hreq
  refine ⟨h.own.mono (hreq' ▸ .refl _) ?_ le_rfl ?_ ?_ (fun q hq => .inl (hreq' ▸ hq))
      (fun _ => id) (fun q hq => .inl hq),
    h.logged.mono (hreq' ▸ .refl _) rfl (by rw [hreq']) (.inl rfl) ?_ fun _ => id,
    fun hl => (h.leading hl).mono rfl rfl (by rw [hreq']) rfl⟩
  · intro p hp
    cases hp
    exact id_maybeCreateProducer h.own.id_eq hpid
  · exact forall_mem_concat.2 ⟨fun _ => .inl, .inr ⟨hof, rfl⟩⟩
  · exact pairwise_concat.2 ⟨h.own.waiting_pairwise, fun w hw => (h.own.waiting w hw).2⟩
  · intro q hq v hv
    rw [hreq'] at hv
    exact .inl hv

/-- Requests are not waited for any more. -/
theorem Inv.forget (h : x.Inv pid L n) {o : Option Holding} {qs : List Request}
    (ho : ∀ d ∈ o, d ∈ x.holding) (hqs : ∀ q ∈ qs, q ∈ x.replicating)
    (hpend : L.leader = some n →
      pending { x with holding := o, replicating := qs } L = x.pending L) :
    Inv pid L n { x with holding := o, replicating := qs } :=
  ⟨h.own.mono (.refl _) h.own.id_eq le_rfl (fun _ => .inl) h.own.waiting_pairwise
    (fun _ => .inl) ho fun q hq => .inl (hqs q hq),
    h.logged.mono (.refl _) rfl rfl (.inl rfl) (fun _ _ _ hv => .inl hv) ho,
    fun hl => (h.leading hl).mono rfl rfl rfl (hpend hl)⟩

/-- A request gets a result, which is a success only if its batch is committed. -/
theorem Inv.setResult (h : x.Inv pid L n) {q : Request} (hq : x.Tracks q)
    {result : Except Errc KafkaResult}
    (hok : ∀ v, result = .ok v → ∃ i < L.committed, (origins L)[i]? = some (n, q)) :
    Inv pid L n (x.modifyRequests (·.setResult q result)) := by
  let f : Requests → Requests := (·.setResult q result)
  have hs : x.requests.Shrinks (x.modifyRequests f).requests :=
    shrinks_modifyRequests fun r => r.shrinks_setResult q result
  have hfin : (x.modifyRequests f).requests.finished = x.requests.finished :=
    apply_modifyRequests (·.finished) fun _ => rfl
  have hin : (x.modifyRequests f).requests.inflight = x.requests.inflight :=
    apply_modifyRequests (·.inflight) fun _ => rfl
  refine ⟨h.own.mono hs (id_of_mem_modifyRequests h.own.id_eq) le_rfl (fun _ => .inl)
    h.own.waiting_pairwise (fun _ hq => .inl (hfin ▸ hq)) (fun _ => id) (fun _ hq => .inl hq),
    h.logged.mono hs rfl hfin (.inl rfl) (fun q' hq' v hv => ?_) (fun _ => id),
    fun hl => (h.leading hl).mono rfl rfl (by rw [hin]) rfl⟩
  rw [hin] at hq'
  rcases hp : x.producer with _ | p
  · simp [requests, hp] at hq'
  · have hv' : completeAll p.requests.states result [q] q'.promise =
        .completed (.ok v) := by
      simpa [modifyRequests, requests, hp, Requests.setResult] using hv
    rw [requests_eq hp]
    rw [completeAll] at hv'
    split at hv'
    · -- The result is the one of this request.
      rename_i hmem
      obtain rfl := hq.2 q' hq' (by simpa using hmem)
      rcases hs' : p.requests.states q'.promise with _ | _ | r <;> rw [hs'] at hv'
      · exact .inr (hok v (RequestState.completed.inj hv'))
      · exact .inr (hok v (RequestState.completed.inj hv'))
      · exact .inl hv'
    · exact .inl hv'

end Replica

end Redpanda.Cluster
