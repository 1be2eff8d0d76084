import Redpanda.Cluster.TransactionSteps

/-!
# Transactions end once

Between two fences of a producer, the log has at most one marker which ends a transaction of the
producer (`TxPartition.countP_isEnd_le_one_of_run`). Every marker is written while a transaction
is open in the log (`Written`), although the replica that writes it decides by what it has applied
(`TxReplica.Inv`):

* a leader is synced in its term, so it has applied all of the log of older terms;
* of its own term, it has applied the fences and markers of every producer whose lock is free. An
  operation keeps the lock until its batch is applied, or the leader steps down before the lock is
  released;
* and a decision that was made in an older term is of no avail, since the batch is not accepted.

The invariant has a *strict* version for the last stable offset, where the replicas also know of
all the transactions that are open. It needs that fences are not ignored
(`TxPartition.AcceptsFences`), which the end markers do not.
-/

namespace Redpanda.Cluster

open Lib List
open RecordBatch (isEnd_iff isFence_iff isOf_of_ne isTxData_iff)
open ReplicatedLog (append_entries append_term getElem_append_cases leader_of_stepDown)
open OrderedStore (forall_mem_put get_eq_some get_put_of_ne mem_erase mem_put not_mem_empty)

/-! ## Open transactions in the log -/

/-- A producer has an open transaction. -/
def isOpen (id : Int) (log : List RecordBatch) : Bool := (openTx id log).isSome

theorem isSome_openStep (id : Int) (t : Option (Int × Int)) (b : RecordBatch) :
    (openStep id t b).isSome = (b.isFence id || !b.isEnd id && (b.isTxData id || t.isSome)) := by
  rw [openStep]
  rcases b.isFence id with - | - <;> rcases b.isEnd id with - | - <;>
    rcases b.isTxData id with - | - <;> simp

/-- A fence or data opens a transaction, an end marker closes it. -/
theorem isOpen_concat (id : Int) (log : List RecordBatch) (b : RecordBatch) :
    isOpen id (log ++ [b]) =
      (b.isFence id || !b.isEnd id && (b.isTxData id || isOpen id log)) := by
  rw [isOpen, openTx_concat, isSome_openStep, isOpen]

/-- What a replica knows about a transaction agrees with the log: a transaction that is open for
    the replica is open in the log and, strictly, the other way around. -/
def Agree (strict : Prop) (a b : Bool) : Prop := (a = true → b = true) ∧ (strict → b = true → a = true)

/-- All batches were written with the transactions being as they had to be. -/
def Written (strict : Prop) (log : List RecordBatch) : Prop :=
  ∀ (i : Nat) (h : i < log.length), log[i].kind = .other ∨
    ∃ a, Agree strict a (isOpen log[i].pid.id (log.take i)) ∧ log[i].Fits log[i].pid.id a

variable {strict : Prop} {b : RecordBatch}

section

variable {log : List RecordBatch} {id : Int}

theorem written_nil : Written strict [] := nofun

section

variable (h : Written strict log)

include h

/-- A batch is appended that fits what the log has open. -/
theorem Written.concat (hb : b.kind = .other ∨
    ∃ a, Agree strict a (isOpen b.pid.id log) ∧ b.Fits b.pid.id a) :
    Written strict (log ++ [b]) := by
  intro i hi
  rcases Nat.lt_succ_iff_lt_or_eq.1 (by simpa using hi : i < log.length + 1) with hlt | rfl
  · simpa only [getElem_append_left hlt, take_append_of_le_length hlt.le] using h i hlt
  · simpa using hb

theorem Written.take (k : Nat) : Written strict (log.take k) := by
  intro i hi
  have hi' : i < log.length := lt_of_lt_of_le hi (by simp)
  have hk : i ≤ k := by simp at hi; omega
  simpa only [getElem_take, take_take, min_eq_left hk] using h i hi'

/-- A batch which is neither a fence nor an end marker leaves transactions as they are. -/
theorem Written.isOpen_succ {k : Nat} (hk : k < log.length)
    (hf : log[k].isFence id = false) (he : log[k].isEnd id = false) :
    isOpen id (log.take (k + 1)) = isOpen id (log.take k) := by
  rw [take_add_one, getElem?_eq_getElem hk, Option.toList_some, isOpen_concat, hf, he]
  rcases hd : log[k].isTxData id with - | -
  · simp
  · -- data is written to open transactions only
    obtain ⟨⟨hkind, -⟩, hid⟩ := isTxData_iff.1 hd
    rcases h k hk with hother | ⟨a, ha, hfits⟩
    · simp [hkind] at hother
    · rw [hid] at ha hfits
      rcases hfits.kind with ⟨hfence, -⟩ | ⟨-, ha'⟩
      · simp [hf] at hfence
      · simp [ha.1 ha']

/-- Nothing is opened or closed without a fence or an end marker. -/
theorem Written.isOpen_eq {k : Nat} (hk : k ≤ log.length)
    (hno : ∀ (i : Nat) (hi : i < log.length), k ≤ i →
      log[i].isFence id = false ∧ log[i].isEnd id = false) :
    isOpen id log = isOpen id (log.take k) := by
  have key : ∀ m, k ≤ m → m ≤ log.length → isOpen id (log.take m) = isOpen id (log.take k) := by
    intro m hm
    induction m, hm using Nat.le_induction with
    | base => exact fun _ => rfl
    | succ m hm ih =>
      intro hlt
      rw [h.isOpen_succ hlt (hno m hlt hm).1 (hno m hlt hm).2, ih (by omega)]
  simpa using key log.length hk le_rfl

end

/-- Without fences, there are not more end markers than open transactions. -/
theorem Written.countP_isEnd_le {l₁ l₂ : List RecordBatch} (h : Written strict (l₁ ++ l₂))
    (hl₂ : ∀ b ∈ l₂, b.isFence id = false) :
    l₂.countP (·.isEnd id) + (isOpen id (l₁ ++ l₂)).toNat ≤ (isOpen id l₁).toNat := by
  induction l₂ using reverseRecOn with
  | nil => simp
  | append_singleton l b ih =>
    rw [← append_assoc] at h ⊢
    have hwritten := h.take (l₁ ++ l).length
    rw [take_left' rfl] at hwritten
    have hl := ih hwritten fun b' hb' => hl₂ b' (mem_append_left _ hb')
    have hlen : (l₁ ++ l).length < (l₁ ++ l ++ [b]).length := by simp
    have hget : (l₁ ++ l ++ [b])[(l₁ ++ l).length] = b := getElem_concat_length rfl _
    have hf := hl₂ b (by simp)
    rcases he : b.isEnd id with - | -
    · have hsucc : isOpen id ((l₁ ++ l ++ [b]).take ((l₁ ++ l).length + 1)) =
          isOpen id ((l₁ ++ l ++ [b]).take (l₁ ++ l).length) :=
        h.isOpen_succ hlen (by rw [hget, hf]) (by rw [hget, he])
      rw [take_left' rfl, take_of_length_le (by simp [Nat.add_assoc])] at hsucc
      rw [countP_append, countP_singleton, he, hsucc]
      exact hl
    · -- the marker ends a transaction that was open
      have hopen : isOpen id (l₁ ++ l) = true := by
        obtain ⟨hkind, hid⟩ := isEnd_iff.1 he
        have hb := h _ hlen
        rw [hget, take_left' rfl, hid] at hb
        rcases hb with hother | ⟨a, ha, hfits⟩
        · simp [hother] at hkind
        · rcases hfits.kind with ⟨hfence, -⟩ | ⟨-, ha'⟩
          · simp [hf] at hfence
          · exact ha.1 ha'
      have hclosed : isOpen id (l₁ ++ l ++ [b]) = false := by
        rw [isOpen_concat, hf, he]
        rfl
      rw [hopen] at hl
      rw [countP_append, countP_singleton, he, hclosed]
      exact hl

end

/-! ## The invariant of a replica -/

variable {ν : Type}

namespace TxReplica

/-- What holds of a replica. As long as it is the leader in the term it is synced in, the fences
    and end markers it has not applied are those of its operations. So the transactions in its
    state machine are those at the end of the log for any producer whose lock is free. -/
structure Inv (strict : Prop) (L : ReplicatedLog ν RecordBatch) (n : ν) (x : TxReplica) :
    Prop where
  applied_le : x.applied ≤ L.committed
  opens : ∀ id, Agree strict (x.stm.openRange id).isSome (isOpen id (L.entries.take x.applied))
  insyncTerm_le : x.insyncTerm ≤ L.term
  term_le : ∀ o ∈ x.operations, o.term ≤ x.insyncTerm
  decided : ∀ o ∈ x.operations, L.Leads n o.term → o.phase.index = none →
    ∃ a, Agree strict a (isOpen o.producer L.entries) ∧ o.phase.Fits o.producer a
  next : ∀ o ∈ x.operations, ∀ b next i, o.phase = .replicating b next i → next.Fits b o.producer
  unapplied : L.Leads n x.insyncTerm → ∀ (i : Nat) (hi : i < L.entries.length), x.applied ≤ i →
    ∀ id, L.entries[i].isFence id ∨ L.entries[i].isEnd id →
      ∃ b next, x.operations.get id = some ⟨id, L.term, .replicating b next (some i)⟩ ∧
        L.entries[i].kind = b.kind
  unsynced : L.leader = some n → x.insyncTerm < L.term → ∀ (i : Nat) (hi : i < L.entries.length),
    L.start ≤ i → L.entries[i].kind = .other

theorem inv_init (strict : Prop) (n : ν) : Inv strict ({} : ReplicatedLog ν RecordBatch) n {} where
  applied_le := le_rfl
  opens _ := ⟨fun h => h, fun _ => id⟩
  insyncTerm_le := le_rfl
  term_le _ h := absurd h not_mem_empty
  decided _ h := absurd h not_mem_empty
  next _ h := absurd h not_mem_empty
  unapplied := by simp
  unsynced := by simp

variable {L L' : ReplicatedLog ν RecordBatch} {n : ν} {x x' : TxReplica}

/-- What the operation of the producer has in the log is applied. -/
def Settled (L : ReplicatedLog ν RecordBatch) (x : TxReplica) (id : Int) : Prop :=
  ∀ (i : Nat) b next, x.operations.get id = some ⟨id, L.term, .replicating b next (some i)⟩ →
    i < x.applied

section

variable (h : Inv strict L n x)

include h

/-- The log changes without the replica, which is no leader in the same term unless it was. -/
theorem Inv.frame (hg : L.Grows L')
    (hsame : L'.leader = some n → L'.term = L.term →
      L.leader = some n ∧ L'.entries = L.entries ∧ L'.start = L.start)
    (hnew : L'.leader = some n → L.term < L'.term → L'.start = L'.entries.length) :
    Inv strict L' n x := by
  -- a term that the replica was synced in is the old one
  have key : ∀ t ≤ x.insyncTerm, L'.Leads n t →
      L.Leads n t ∧ L'.entries = L.entries ∧ L'.term = L.term := by
    rintro t ht ⟨hleader, rfl⟩
    have heq : L'.term = L.term := le_antisymm (ht.trans h.insyncTerm_le) hg.term_le
    obtain ⟨hleader', hentries, -⟩ := hsame hleader heq
    exact ⟨⟨hleader', heq.symm⟩, hentries, heq⟩
  refine
    { h with
      applied_le := h.applied_le.trans hg.committed_le
      opens := fun id => hg.take_eq h.applied_le ▸ h.opens id
      insyncTerm_le := h.insyncTerm_le.trans hg.term_le
      decided := fun o ho hleads hindex => ?_
      unapplied := fun hleads => ?_
      unsynced := fun hleader hlt i hi hstart => ?_ }
  · obtain ⟨hleads, hentries, -⟩ := key _ (h.term_le o ho) hleads
    rw [hentries]
    exact h.decided o ho hleads hindex
  · obtain ⟨hleads, hentries, hterm⟩ := key _ le_rfl hleads
    simp only [hentries, hterm]
    exact h.unapplied hleads
  · rcases hg.term_le.lt_or_eq with hterm | hterm
    · have := hnew hleader hterm
      omega
    · obtain ⟨hleader, hentries, hstart'⟩ := hsame hleader hterm.symm
      simp only [hentries]
      exact h.unsynced hleader (hterm ▸ hlt) i (by rwa [← hentries]) (hstart' ▸ hstart)

/-- A synced leader knows the transaction of a producer, if it has applied all its fences and
    end markers. -/
theorem Inv.agree (hwritten : Written strict L.entries) {t : Nat} (ht : t ≤ x.insyncTerm)
    (hleads : L.Leads n t) {id : Int} (hno : Settled L x id) :
    Agree strict (x.stm.openRange id).isSome (isOpen id L.entries) := by
  have hterm : x.insyncTerm = L.term := le_antisymm h.insyncTerm_le (hleads.2 ▸ ht)
  have hle : x.applied ≤ L.entries.length := h.applied_le.trans L.committed_le
  rw [hwritten.isOpen_eq hle fun i hi hge => ?_]
  · exact h.opens id
  · by_contra hne
    have hne : L.entries[i].isFence id ∨ L.entries[i].isEnd id := by
      simpa only [not_and_or, Bool.not_eq_false] using hne
    obtain ⟨b, next, hget, -⟩ := h.unapplied ⟨hleads.1, hterm.symm⟩ i hi hge id hne
    exact absurd (hno i b next hget) (not_lt.2 hge)

/-! ## Operations -/

/-- An operation starts or goes on, and has nothing in the log that is not applied. -/
theorem Inv.put {o : TxOperation} (hterm : o.term ≤ x.insyncTerm) (hdecided : L.Leads n o.term →
      ∃ a, Agree strict a (isOpen o.producer L.entries) ∧ o.phase.Fits o.producer a)
    (hnext : ∀ b next i, o.phase = .replicating b next i → next.Fits b o.producer)
    (hno : Settled L x o.producer) : Inv strict L n { x with operations := x.operations.put o } where
  __ := h
  term_le := forall_mem_put hterm h.term_le
  decided := forall_mem_put (fun hleads _ => hdecided hleads) h.decided
  next := forall_mem_put hnext h.next
  unapplied hleads i hi hge id hb := by
    obtain ⟨b, next, hget, hkind⟩ := h.unapplied hleads i hi hge id hb
    by_cases hid : id = o.producer
    · exact absurd (hno i b next (hid ▸ hget)) (not_lt.2 hge)
    · exact ⟨b, next, by rwa [get_put_of_ne hid], hkind⟩

/-- An operation ends, and all it has in the log is applied or data. -/
theorem Inv.erase {id : Int} (hno : L.Leads n x.insyncTerm → ∀ (i : Nat) b next,
      x.operations.get id = some ⟨id, L.term, .replicating b next (some i)⟩ →
        i < x.applied ∨ b.kind = .data) :
    Inv strict L n { x with operations := x.operations.erase id } where
  __ := h
  term_le o ho := h.term_le o (mem_erase.1 ho).1
  decided o ho := h.decided o (mem_erase.1 ho).1
  next o ho := h.next o (mem_erase.1 ho).1
  unapplied hleads i hi hge id' hb := by
    obtain ⟨b, next, hget, hkind⟩ := h.unapplied hleads i hi hge id' hb
    by_cases hid : id' = id
    · subst hid
      rcases hno hleads i b next hget with hlt | hdata
      · exact absurd hlt (not_lt.2 hge)
      · rw [isFence_iff, isEnd_iff, hkind, hdata] at hb
        simp at hb
    · exact ⟨b, next, by rwa [OrderedStore.get_erase_of_ne hid], hkind⟩

end

variable {log : List RecordBatch}

/-- The leader appends a batch that does not touch the transactions of other producers. -/
theorem isOpen_concat_of_ne {id : Int} (h : b.isOf id = false) :
    isOpen id (log ++ [b]) = isOpen id log := by
  rw [isOpen, openTx_concat, openStep_of_not_isOf h, isOpen]

variable (h : Inv strict L n x)

include h

/-- The batch of an operation still fits the log when it is appended. -/
theorem Inv.enqueue (hwritten : Written strict L.entries) {o : TxOperation}
    {next : AfterReplicate} (hget : x.operations.get o.producer = some o)
    (hphase : o.phase = .replicating b next none) (hleads : L.Leads n o.term) (offset : Int) :
    Written strict (L.append (b.place offset o.term)).entries ∧
      Inv strict (L.append (b.place offset o.term)) n { x with
        operations := x.operations.put
          { o with phase := .replicating b next (some L.entries.length) } } := by
  have ho := (get_eq_some.1 hget).1
  obtain ⟨a, ha, hfits⟩ := h.decided o ho hleads (by rw [hphase]; rfl)
  rw [hphase] at hfits
  have hpid : (b.place offset o.term).pid.id = o.producer := hfits.1.pid_id
  have hplace : (b.place offset o.term).Fits o.producer a := ⟨hpid, hfits.1.kind, hfits.1.le⟩
  have hsynced : x.insyncTerm = L.term :=
    le_antisymm h.insyncTerm_le (hleads.2 ▸ h.term_le o ho)
  refine ⟨hwritten.concat (.inr ⟨a, hpid ▸ ha, hpid ▸ hplace⟩), ?_⟩
  refine
    { h with
      opens := fun id => (L.grows_append _).take_eq h.applied_le ▸ h.opens id
      term_le := forall_mem_put (h.term_le o ho) h.term_le
      decided := fun o' ho' hleads' hindex => ?_
      next := forall_mem_put (fun b' next' i' hphase' => ?_) h.next
      unapplied := fun hleads' i hi hge id hb => ?_
      unsynced := fun _ hlt => absurd hlt (by simp [hsynced]) }
  · rcases mem_put.1 ho' with rfl | ⟨ho', hne⟩
    · exact absurd hindex (by simp [TxPhase.index])
    · rw [append_entries, isOpen_concat_of_ne (isOf_of_ne (hpid.symm ▸ hne))]
      exact h.decided o' ho' hleads' hindex
  · cases hphase'
    exact hfits.2
  · rcases getElem_append_cases hi with ⟨hlt, heq⟩ | ⟨rfl, heq⟩ <;> rw [heq] at hb ⊢
    · obtain ⟨b', next', hget', hkind⟩ := h.unapplied hleads' i hlt hge id hb
      by_cases hid : id = o.producer
      · subst hid
        have := congrArg (fun o => o.map fun o => o.phase.index) (hget.symm.trans hget')
        simp [hphase, TxPhase.index] at this
      · exact ⟨b', next', (get_put_of_ne (by exact hid)).trans hget', hkind⟩
    · -- the new batch is the one of the operation
      have hid : id = o.producer := by
        rw [← hpid]
        exact hb.elim (fun hb => (isFence_iff.1 hb).2.symm)
          fun hb => (isEnd_iff.1 hb).2.symm
      refine ⟨b, next, ?_, rfl⟩
      rw [hid, append_term, hleads.2]
      exact OrderedStore.get_put_self _ _

theorem Inv.other (hwritten : Written strict L.entries) (hkind : b.kind = .other) :
    Written strict (L.append b).entries ∧ Inv strict (L.append b) n x := by
  have hof : ∀ id, b.isOf id = false := fun id => by simp [RecordBatch.isOf, hkind]
  refine ⟨hwritten.concat (.inl hkind), ?_⟩
  refine
    { h with
      opens := fun id => (L.grows_append b).take_eq h.applied_le ▸ h.opens id
      decided := fun o ho hleads hindex => ?_
      unapplied := fun hleads i hi hge id hb => ?_
      unsynced := fun hleader hlt i hi hstart => ?_ }
  · rw [append_entries, isOpen_concat_of_ne (hof _)]
    exact h.decided o ho hleads hindex
  · rcases getElem_append_cases hi with ⟨hlt, heq⟩ | ⟨rfl, heq⟩ <;> rw [heq] at hb ⊢
    · exact h.unapplied hleads i hlt hge id hb
    · rw [isFence_iff, isEnd_iff, hkind] at hb
      simp at hb
  · rcases getElem_append_cases hi with ⟨hi, heq⟩ | ⟨rfl, heq⟩ <;> rw [heq]
    · exact h.unsynced hleader hlt i hi hstart
    · exact hkind

/-! ## Batches are applied -/

omit h in
/-- Applying a batch does to the state what it does to the log. -/
theorem agree_doApply {s s' : RmStm}
    (h : ∀ id, Agree strict (s.openRange id).isSome (isOpen id log)) (hs : s.doApply b = some s')
    (hfence : strict → (s.maybeCreateProducer b.pid).AcceptsFence b) (id : Int) :
    Agree strict (s'.openRange id).isSome (isOpen id (log ++ [b])) := by
  -- if the state machine follows the log, what is open changes in the same way
  have hfollow : s'.openRange id = openStep id (s.openRange id) b →
      Agree strict (s'.openRange id).isSome (isOpen id (log ++ [b])) := fun heq => by
    rw [heq, isSome_openStep, isOpen_concat]
    obtain ⟨h₁, h₂⟩ := h id
    constructor
    · simp only [Bool.or_eq_true, Bool.and_eq_true]
      exact Or.imp_right (And.imp_right (Or.imp_right h₁))
    · intro hstrict
      simp only [Bool.or_eq_true, Bool.and_eq_true]
      exact Or.imp_right (And.imp_right (Or.imp_right (h₂ hstrict)))
  by_cases hb : b.isFence b.pid.id
  · by_cases hid : id = b.pid.id
    · subst hid
      refine ⟨fun _ => by rw [isOpen_concat, hb, Bool.true_or], fun hstrict => ?_⟩
      exact (hfollow (RmStm.openRange_doApply hs (hfence hstrict) _)).2 hstrict
    · refine hfollow ?_
      rw [RmStm.openRange_doApply_of_ne hs hid, openStep_of_not_isOf (isOf_of_ne hid)]
  · exact hfollow (RmStm.openRange_doApply hs (fun h => absurd h hb) id)

theorem Inv.apply {stm : RmStm} (hlt : x.applied < L.committed)
    (hb : L.entries[x.applied]? = some b) (hs : x.stm.doApply b = some stm)
    (hfence : strict → (x.stm.maybeCreateProducer b.pid).AcceptsFence b) :
    Inv strict L n { x with stm := stm, applied := x.applied + 1 } where
  applied_le := hlt
  opens id := by
    rw [take_add_one, hb]
    exact agree_doApply h.opens hs hfence id
  __ := h
  unapplied hleads i hi hge := h.unapplied hleads i hi (Nat.le_of_succ_le hge)

/-! ## All steps -/

theorem Inv.sync (hleader : L.leader = some n) (hstart : L.start ≤ x.applied)
    (hne : x.insyncTerm ≠ L.term) :
    Inv strict L n
      { x with stm := x.stm.gcRequests L.term, insyncTerm := L.term, answers := [] } := by
  have hlt : x.insyncTerm < L.term := lt_of_le_of_ne h.insyncTerm_le hne
  refine
    { h with
      opens := fun id => by rw [RmStm.openRange_gcRequests]; exact h.opens id
      insyncTerm_le := le_rfl
      term_le := fun o ho => (h.term_le o ho).trans hlt.le
      decided := fun o ho hleads => ?_
      unapplied := fun _ i hi hge id hb => ?_
      unsynced := fun _ hlt => absurd hlt (lt_irrefl _) }
  · have := h.term_le o ho
    rw [← hleads.2] at this
    exact absurd this (not_le.2 hlt)
  · have hkind := h.unsynced hleader hlt i hi (hstart.trans hge)
    rw [isFence_iff, isEnd_iff, hkind] at hb
    simp at hb

variable [DecidableEq ν]

theorem Inv.stepDown (m : ν) (t : Nat) : Inv strict (L.stepDown m t) n x := by
  refine h.frame (L.grows_stepDown m t) (fun hleader _ => ?_) (by simp)
  exact ⟨(leader_of_stepDown hleader).1, by simp, by simp⟩

/-- Every effect of an action keeps the invariant. -/
theorem Inv.effect (hwritten : Written strict L.entries)
    {a : TxNodeAction} (he : Effect x L n a L' x')
    (hfence : strict → a = .apply → ∀ b, L.entries[x.applied]? = some b →
      (x.stm.maybeCreateProducer b.pid).AcceptsFence b) :
    Written strict L'.entries ∧ Inv strict L' n x' := by
  cases he with
  | keep hs => exact ⟨hwritten, { h with opens := fun id => hs.openRange id ▸ h.opens id }⟩
  | read =>
    refine ⟨hwritten, { h with opens := fun id => ?_ }⟩
    exact (x.stm.openRange_lastStableOffset ..).symm ▸ h.opens id
  | sync hleader hstart hne => exact ⟨hwritten, h.sync hleader hstart hne⟩
  | @start _ stm o hs hterm hget hindex hfits =>
    have hno : Settled L x o.producer := by simp [Settled, hget]
    have hput : Inv strict L n { x with operations := x.operations.put o } := by
      refine h.put hterm (fun hleads => ⟨_, h.agree hwritten hterm hleads hno, hfits⟩) ?_ hno
      intro b next i hphase
      rw [hphase] at hfits
      exact hfits.2
    exact ⟨hwritten, { hput with opens := fun id => hs.openRange id ▸ h.opens id }⟩
  | @reply _ o pid crt hget hphase hcrt =>
    have ho := (get_eq_some.1 hget).1
    refine ⟨hwritten, h.put (h.term_le o ho) (fun hleads => ?_) ?_ ?_⟩
    · obtain ⟨a, ha, hfits⟩ := h.decided o ho hleads (by rw [hphase]; rfl)
      rw [hphase] at hfits
      obtain ⟨hid, rfl⟩ := hfits
      exact ⟨true, ha, hid ▸ fits_makeTxControlBatch pid hcrt, trivial⟩
    · intro b next i hphase'
      injection hphase' with _ hnext
      exact hnext ▸ trivial
    · intro i b next hget'
      have := congrArg TxOperation.phase (Option.some.inj (hget.symm.trans hget'))
      simp [hphase] at this
  | enqueue hget hphase hleads => exact h.enqueue hwritten hget hphase hleads _
  | @refence _ o b f i hget hphase hi hopen =>
    have ho := (get_eq_some.1 hget).1
    have hno : Settled L x o.producer := by
      intro i' b' next' hget'
      have := congrArg TxOperation.phase (Option.some.inj (hget.symm.trans hget'))
      rw [hphase] at this
      injection this with _ _ hindex
      exact Option.some.inj hindex ▸ hi
    have hid : f.pid.id = o.producer := h.next o ho _ _ _ hphase
    refine ⟨hwritten, h.put (h.term_le o ho) (fun hleads => ?_) ?_ hno⟩
    · have hagree := h.agree hwritten (h.term_le o ho) hleads hno
      rw [hopen] at hagree
      exact ⟨false, hagree, hid ▸ fits_makeFenceBatch f, trivial⟩
    · intro b next i hphase'
      injection hphase' with _ hnext
      exact hnext ▸ trivial
  | @release _ stm o hs hget hrelease =>
    have ho := (get_eq_some.1 hget).1
    have herase : Inv strict L n { x with operations := x.operations.erase o.producer } := by
      refine h.erase fun _ i b next hget' => ?_
      have hphase := congrArg TxOperation.phase (Option.some.inj (hget.symm.trans hget'))
      rw [hphase] at hrelease
      rcases hrelease with ⟨i', hi', hlt⟩ | ⟨q, rfl⟩
      · exact .inl (Option.some.inj hi' ▸ hlt)
      · exact .inr (isTxData_iff.1 (h.next o ho _ _ _ hphase)).1.1
    exact ⟨hwritten, { herase with opens := fun id => hs.openRange id ▸ h.opens id }⟩
  | @fail _ o hget =>
    refine ⟨by simpa using hwritten, (h.stepDown n o.term).erase fun hleads i b next hget' => ?_⟩
    -- the replica is not the leader in the term of the operation any more
    obtain ⟨hleader, hnot⟩ := leader_of_stepDown hleads.1
    have hterm := congrArg TxOperation.term (Option.some.inj (hget.symm.trans hget'))
    rw [ReplicatedLog.stepDown_term] at hterm
    exact absurd ⟨hleader, hterm.symm⟩ hnot
  | apply hlt hb hs =>
    exact ⟨hwritten, h.apply hlt hb hs fun hstrict => hfence hstrict rfl _ hb⟩
  | stepDown t => exact ⟨by simpa using hwritten, h.stepDown n t⟩
  | other hleader hkind _ _ => exact h.other hwritten hkind

end TxReplica

/-! ## The partition -/

/-- The log changes as a replica does something to it, or it grows. -/
theorem TxReplica.Effect.log {ν : Type} [DecidableEq ν] {x x' : TxReplica}
    {L L' : ReplicatedLog ν RecordBatch} {n : ν} {a : TxNodeAction} (h : x.Effect L n a L' x')  :
    L' = L ∨ (∃ t, L' = L.stepDown n t) ∨ L.leader = some n ∧ ∃ b, L' = L.append b := by
  cases h with
  | enqueue _ _ hleads => exact .inr (.inr ⟨hleads.1, _, rfl⟩)
  | other hleader => exact .inr (.inr ⟨hleader, _, rfl⟩)
  | fail => exact .inr (.inl ⟨_, rfl⟩)
  | stepDown t => exact .inr (.inl ⟨t, rfl⟩)
  | _ => exact .inl rfl

namespace TxPartition

structure Inv (strict : Prop) (σ : TxPartition ν) : Prop where
  written : Written strict σ.log.entries
  replicas : ∀ n, (σ.replicas n).Inv strict σ.log n

theorem inv_init (strict : Prop) : Inv strict ({} : TxPartition ν) where
  written := written_nil
  replicas n := TxReplica.inv_init strict n

variable [DecidableEq ν] {σ τ : TxPartition ν} {as : List (TxAction ν)}

/-- The step does not apply a fence with an epoch below the one the replica knows. -/
def AcceptsFences (σ : TxPartition ν) : TxAction ν → Prop
  | .node n .apply => ∀ b ∈ σ.log.entries[(σ.replicas n).applied]?,
      ((σ.replicas n).stm.maybeCreateProducer b.pid).AcceptsFence b
  | _ => True

instance (σ : TxPartition ν) : DecidablePred σ.AcceptsFences := fun a => by
  unfold AcceptsFences
  split <;> infer_instance

theorem Inv.step (h : Inv strict σ) {a : TxAction ν} (hstep : σ.Step a τ)
    (hfence : strict → σ.AcceptsFences a) : Inv strict τ := by
  cases a with
  | node n a =>
    obtain ⟨⟨L', x'⟩, hact, rfl⟩ := Option.map_eq_some_iff.1 hstep
    have he := TxReplica.effect_of_act hact
    obtain ⟨hwritten, hinv⟩ := (h.replicas n).effect h.written he fun hs ha => by
      subst ha
      exact hfence hs
    refine ⟨hwritten, (Function.forall_update_iff σ.replicas fun m x => x.Inv strict L' m).2
      ⟨hinv, fun m hm => ?_⟩⟩
    rcases he.log with rfl | ⟨t, rfl⟩ | ⟨hleader, b, rfl⟩
    · exact h.replicas m
    · exact (h.replicas m).stepDown n t
    · refine (h.replicas m).frame (σ.log.grows_append b) ?_ ?_
      · exact fun hleader' _ => absurd (Option.some.inj (hleader'.symm.trans hleader)) hm
      · exact fun _ hlt => absurd hlt (lt_irrefl _)
  | commit k =>
    cases hstep
    refine ⟨h.written, fun n => (h.replicas n).frame (σ.log.grows_commit k) ?_ ?_⟩
    · exact fun hleader _ => ⟨hleader, rfl, rfl⟩
    · exact fun _ hlt => absurd hlt (lt_irrefl _)
  | elect n k =>
    cases hstep
    exact ⟨h.written.take _, fun m =>
      (h.replicas m).frame (σ.log.grows_elect n k) (by simp) fun _ _ => rfl⟩

theorem inv_of_run (h : Run Step {} as σ) : Inv False σ :=
  Run.invariant (fun h hstep => h.step hstep False.elim) h (inv_init False)

/-- Between a fence of a producer and its next one, there is at most one marker in the log which
    commits or aborts a transaction of the producer. -/
theorem countP_isEnd_le_one_of_run (h : Run Step {} as σ) {id : Int}
    {l₁ l₂ l₃ : List RecordBatch} (hlog : σ.log.entries.take σ.log.committed = l₁ ++ l₂ ++ l₃)
    (hl₂ : ∀ b ∈ l₂, b.isFence id = false) : l₂.countP (·.isEnd id) ≤ 1 := by
  have hwritten := ((inv_of_run h).written.take σ.log.committed).take (l₁ ++ l₂).length
  rw [hlog, take_left' rfl] at hwritten
  have hle := hwritten.countP_isEnd_le hl₂
  have hone := Bool.toNat_le (isOpen id l₁)
  omega

/-- A replica is elected and syncs, when it has applied some batches. -/
def leadTx (n : ν) (k applied : Nat) : List (TxAction ν) :=
  [.elect n k, .commit k] ++ List.replicate applied (.node n .apply) ++ [.node n .sync]

/-- A transaction is begun, and its abort fails with the marker being in the log. The next leader
    is told to abort the transaction again. -/
def abortTwice : List (TxAction Bool) :=
  leadTx true 0 0 ++
  [.node true (.create ⟨1, 0⟩), .node true (.beginTx 1 ⟨1, 0⟩ 0), .node true (.enqueue 1),
    .commit 1, .node true .apply, .node true (.finish 1), .node true (.abortTx 1 1 0),
    .node true (.enqueue 1), .node true (.fail 1)] ++
  leadTx false 2 2 ++ [.node false (.abortTx 2 1 0)]

theorem countP_isEnd_le_one_of_run_abortTwice :
    ∃ σ : TxPartition Bool, Run Step {} abortTwice σ ∧
      (σ.log.entries.take σ.log.committed).map (·.kind) =
        [.fence (some 0), .control .txAbort] ∧
      ((σ.log.entries.take σ.log.committed).drop 1).countP (·.isEnd 1) ≤ 1 := by
  have h : (abortTwice.foldlM next {}).map (fun σ => (σ.log.entries.take σ.log.committed).map
      fun b => (b.kind, b.isFence 1)) =
      some [(.fence (some 0), true), (.control .txAbort, false)] := by decide
  obtain ⟨σ, hrun, hσ⟩ := Run.exists_of_map_foldlM h
  have hkinds := congrArg (map Prod.fst) hσ
  have hfences := congrArg (fun l => (map Prod.snd l).drop 1) hσ
  rw [map_map] at hkinds hfences
  refine ⟨σ, hrun, hkinds, countP_isEnd_le_one_of_run hrun
    (by rw [append_assoc, append_nil, take_append_drop]) fun b hb => ?_⟩
  rw [← map_drop] at hfences
  have hmem := mem_map_of_mem (f := Prod.snd ∘ fun b => (b.kind, b.isFence 1)) hb
  rw [hfences] at hmem
  simpa using hmem

end TxPartition

end Redpanda.Cluster
