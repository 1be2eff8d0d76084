import Redpanda.CloudTopics.EpochFence

/-!
# The log under the epoch fence

The window in which the leader admits epochs is kept apart from the one that the checker computes
from the log. The two do not always agree: the log may leave its window, and the checker fails
(`FencedPartition.exists_run_asserted`).

* An epoch inside of the window of a term, `5 < 7 < 10`, may get into the log before the end of the
  window. The log `5, 7, 10` then has the window `[7, 10]`, while `5` is still admitted.
* If the log has no epoch, the first one is the whole window of the log, while smaller ones that
  have been seen in the term are still admitted.
* The window of an earlier term is not reset by an epoch that is not above it. The applied epochs
  are then used for the whole term, and an epoch may get into the log and not be applied yet.

Excluding that by a condition on the grants (`FencedReplica.Grants`), all the logs obey their
window (`FencedPartition.obeys_of_run`). The invariant of a replica (`FencedReplica.Inv`) has two
cases for a leader. Before the first epoch is seen in its term the window of the log is the one
it had at the start (`FencedReplica.Fresh`), and is also that of the applied epochs. Then the
log is related to the window of the term (`FencedReplica.SeenWindow`).
-/

namespace Redpanda.CloudTopics

open Lib List CtpStmState EpochWindowChecker

/-- The epoch may be appended to the log after any other that is admitted in the window. -/
def Admitted (l : List Int) (p m e : Int) : Prop :=
  p ≤ e ∧ e ≤ m ∧ (e < m → (∃ x ∈ l, ClusterEpoch.min < x ∧ x ≤ e) ∧ (e = p ∨ m ∈ l))

theorem Admitted.append {l : List Int} {p m e : Int} (h : Admitted l p m e) (l' : List Int) :
    Admitted (l ++ l') p m e := by
  refine ⟨h.1, h.2.1, fun hlt => ?_⟩
  obtain ⟨⟨x, hx, hle⟩, hend⟩ := h.2.2 hlt
  exact ⟨⟨x, mem_append_left _ hx, hle⟩, hend.imp_right fun hm => mem_append_left _ hm⟩

namespace FencedReplica

/-- The grants that keep the log in its window. In the term of the seen epochs, one below the end
    of the window is granted only if the log has an epoch that is not larger, and, unless it is the
    beginning of the window, its end. In a new term, the epoch that is to start the window is above
    the one of the earlier term. -/
def Grants (r : FencedReplica) (c : FenceCall) : Prop :=
  r.leader = some c.term →
    if r.state.seenWindowTerm < c.term then
      c.phase = .updating → ∀ m ∈ r.state.maxSeenEpoch, m < c.epoch
    else
      r.state.epochInWindow c.term c.epoch = true → ∀ m ∈ r.state.maxSeenEpoch, c.epoch < m →
        (∃ x ∈ r.epochs, ClusterEpoch.min < x ∧ x ≤ c.epoch) ∧
          (r.state.previousSeenEpoch = some c.epoch ∨ m ∈ r.epochs)

instance (r : FencedReplica) (c : FenceCall) : Decidable (r.Grants c) := by
  unfold Grants
  infer_instance

/-! ## The invariant of a replica -/

/-- No epoch has been seen in the term. -/
structure Fresh (t : Int) (r : FencedReplica) : Prop where
  /-- The window is the one from before the term. -/
  le_hi : ∀ e ∈ r.epochs.drop r.termStart, e ≤ (windowOf (r.epochs.take r.termStart)).hi
  fences : ∀ f ∈ r.fences, f.term = t → f.replicated = false →
    (windowOf r.epochs).lo ≤ f.epoch ∧ f.epoch ≤ (windowOf r.epochs).hi
  calls : ∀ c ∈ r.calls, c.term = t → c.phase = .updating → (windowOf r.epochs).hi < c.epoch

/-- The window of the epochs that were seen in the term. -/
structure SeenWindow (t p m : Int) (r : FencedReplica) : Prop where
  min_le : ClusterEpoch.min ≤ p
  le : p ≤ m
  epochs_le : ∀ x ∈ r.epochs, x ≤ m
  /-- The window of the log has moved only if the end of the window is in the log. -/
  moved : (∀ x ∈ r.epochs, x ≤ p) ∨ m ∈ r.epochs
  /-- The window of the log begins later only if the log begins with the end of the window. -/
  lo_le : (windowOf r.epochs).lo ≤ p ∨ ∀ x ∈ r.epochs, ClusterEpoch.min < x → m ≤ x
  fences : ∀ f ∈ r.fences, f.term = t → f.replicated = false → Admitted r.epochs p m f.epoch

/-- The invariant of a leader. -/
structure LeaderInv (t : Int) (r : FencedReplica) : Prop where
  start_le : r.termStart ≤ r.log.length
  synced : (∃ c ∈ r.calls, c.term = t) → r.termStart ≤ r.applied
  fresh : r.state.seenWindowTerm < t → r.Fresh t
  seen : r.state.seenWindowTerm = t → ∃ p m, r.state.previousSeenEpoch = some p ∧
    r.state.maxSeenEpoch = some m ∧ r.SeenWindow t p m

/-- The invariant of a replica, with the latest term of the partition. -/
structure Inv (term : Int) (r : FencedReplica) : Prop where
  obeys : Obeys r.epochs
  applied_le : r.applied ≤ r.log.length
  windowSet : r.state.WindowSet
  window : r.state.appliedWindow = windowOf (r.epochs.take r.applied)
  checker : r.checker.window = windowOf (r.epochs.take r.applied)
  offset_le : r.checker.latestOffset ≤ r.applied
  not_asserted : r.asserted = false
  epochs_min : ∀ e ∈ r.epochs, ClusterEpoch.min ≤ e
  calls_min : ∀ c ∈ r.calls, ClusterEpoch.min ≤ c.epoch
  fences_min : ∀ f ∈ r.fences, ClusterEpoch.min ≤ f.epoch
  leader_le : r.leader.getD term ≤ term
  seen_le : r.state.seenWindowTerm ≤ r.leader.getD term
  calls_le : ∀ c ∈ r.calls, c.term ≤ r.leader.getD term
  fences_le : ∀ f ∈ r.fences, f.term ≤ r.leader.getD term
  leader : ∀ t, r.leader = some t → r.LeaderInv t

variable {r : FencedReplica} {term t p m : Int} {i : Nat} {c : FenceCall} {f : ClusterEpochFence}

theorem length_epochs (r : FencedReplica) : r.epochs.length = r.log.length :=
  length_map _

/-- As long as no epoch has been seen in the term, the window stays. -/
theorem Fresh.windowOf_take (h : r.Fresh t) {n : Nat} (hn : r.termStart ≤ n) :
    windowOf (r.epochs.take n) = windowOf r.epochs := by
  have hstart : ∀ k, r.termStart ≤ k →
      windowOf (r.epochs.take k) = windowOf (r.epochs.take r.termStart) := fun k hk => by
    have hsplit : r.epochs.take k =
        r.epochs.take r.termStart ++ (r.epochs.drop r.termStart).take (k - r.termStart) := by
      rw [← take_add, Nat.add_sub_cancel' hk]
    rw [hsplit]
    exact windowOf_append_of_le fun e he => h.le_hi e (mem_of_mem_take he)
  have hall := hstart (max n r.epochs.length) (hn.trans (le_max_left _ _))
  rw [take_of_length_le (le_max_right _ _)] at hall
  rw [hstart n hn, hall]

section

variable (h : r.Inv term)

include h

theorem Inv.seen_le_of_leader (ht : r.leader = some t) : r.state.seenWindowTerm ≤ t := by
  have hle := h.seen_le
  rwa [ht] at hle

/-- In a term in which nothing was fenced yet, the window is the one of the log. -/
theorem Inv.applied_window_eq (hfresh : r.Fresh t)
    (hsynced : r.termStart ≤ r.applied) : r.state.appliedWindow = windowOf r.epochs := by
  rw [h.window, hfresh.windowOf_take hsynced]

/-! ## Calls -/

/-- What is known of a call. -/
structure CallInv (term : Int) (r : FencedReplica) (c : FenceCall) : Prop where
  min : ClusterEpoch.min ≤ c.epoch
  le : c.term ≤ r.leader.getD term
  synced : r.leader = some c.term → r.termStart ≤ r.applied
  above : r.leader = some c.term → r.state.seenWindowTerm < c.term → c.phase = .updating →
    (windowOf r.epochs).hi < c.epoch

theorem Inv.callInv (hc : c ∈ r.calls) : r.CallInv term c where
  min := h.calls_min c hc
  le := h.calls_le c hc
  synced ht := (h.leader _ ht).synced ⟨c, hc, rfl⟩
  above ht hlt := ((h.leader _ ht).fresh hlt).calls c hc rfl

theorem Inv.setCalls {calls : List FenceCall}
    (hcalls : ∀ c ∈ calls, r.CallInv term c) : Inv term { r with calls } where
  __ := h
  calls_min c hc := (hcalls c hc).min
  calls_le c hc := (hcalls c hc).le
  leader t ht := by
    have hl := h.leader t ht
    refine ⟨hl.start_le, fun ⟨c, hc, hterm⟩ => (hcalls c hc).synced (hterm ▸ ht),
      fun hlt => ⟨(hl.fresh hlt).le_hi, (hl.fresh hlt).fences, fun c hc hterm => ?_⟩,
      fun heq => ?_⟩
    · subst hterm
      exact (hcalls c hc).above ht hlt
    · obtain ⟨p, m, hp, hm, hw⟩ := hl.seen heq
      exact ⟨p, m, hp, hm, { hw with }⟩

variable {r' : FencedReplica} {e : Int}

/-- A call waits for its turn. -/
theorem Inv.call (hcall : r.call e = some r') : r'.Inv term := by
  obtain ⟨t, hleader, hcall⟩ := Option.bind_eq_some_iff.1 hcall
  split_ifs at hcall with hguard
  cases hcall
  refine h.setCalls (forall_mem_concat.2 ⟨fun c hc => h.callInv hc, hguard.2, ?_,
    fun _ => hguard.1, nofun⟩)
  rw [hleader]
  exact le_rfl

/-- A call returns an error. -/
theorem Inv.reject (i : Nat) : Inv term { r with calls := r.calls.eraseIdx i } :=
  h.setCalls fun _ hc => h.callInv (mem_of_mem_eraseIdx hc)

/-- A call waits for a lock. -/
theorem Inv.wait (hc : c ∈ r.calls) (i : Nat) {phase : FencePhase}
    (hphase : phase = .updating → r.state.epochAboveWindow c.term c.epoch = true) :
    Inv term { r with calls := r.calls.set i { c with phase } } := by
  refine h.setCalls fun c' hc' => ?_
  rcases mem_or_eq_of_mem_set hc' with hc' | rfl
  · exact h.callInv hc'
  · refine { h.callInv hc with above := fun ht hlt hupdating => ?_ }
    -- the applied epochs are those of the log
    rw [← h.applied_window_eq ((h.leader _ ht).fresh hlt) ((h.callInv hc).synced ht)]
    exact (epochAboveWindow_of_lt hlt).1 (hphase hupdating)

/-- A call is checked against the window that is seen. -/
theorem Inv.check (hc : c ∈ r.calls) (hcheck : r.check i c = some r') : r'.Inv term := by
  rw [FencedReplica.check] at hcheck
  split_ifs at hcheck with hphase hin habove hbusy
  · cases hcheck
    exact h.wait hc i fun hn => by cases hn
  · cases hcheck
    exact h.wait hc i fun _ => habove
  · cases hcheck
    exact h.reject i

/-! ## Grants -/

/-- What is known of a fence. -/
structure FenceInv (term : Int) (r : FencedReplica) (f : ClusterEpochFence) : Prop where
  min : ClusterEpoch.min ≤ f.epoch
  le : f.term ≤ r.leader.getD term
  fresh : r.leader = some f.term → f.replicated = false → r.state.seenWindowTerm < f.term →
    (windowOf r.epochs).lo ≤ f.epoch ∧ f.epoch ≤ (windowOf r.epochs).hi
  seen : r.leader = some f.term → f.replicated = false → r.state.seenWindowTerm = f.term →
    ∀ p m, r.state.previousSeenEpoch = some p → r.state.maxSeenEpoch = some m →
      Admitted r.epochs p m f.epoch

theorem Inv.fenceInv (hf : f ∈ r.fences) : r.FenceInv term f where
  min := h.fences_min f hf
  le := h.fences_le f hf
  fresh ht hrep hlt := ((h.leader _ ht).fresh hlt).fences f hf rfl hrep
  seen ht hrep heq p m hp hm := by
    obtain ⟨p', m', hp', hm', hw⟩ := (h.leader _ ht).seen heq
    cases hp'.symm.trans hp
    cases hm'.symm.trans hm
    exact hw.fences f hf rfl hrep

variable {fences : List ClusterEpochFence}

theorem Inv.setFences (hfences : ∀ f ∈ fences, r.FenceInv term f) : Inv term { r with fences } where
  __ := h
  fences_min f hf := (hfences f hf).min
  fences_le f hf := (hfences f hf).le
  leader t ht := by
    have hl := h.leader t ht
    refine { hl with
      fresh := fun hlt => { hl.fresh hlt with fences := fun f hf hterm hrep => ?_ }
      seen := fun heq => ?_ }
    · subst hterm
      exact (hfences f hf).fresh ht hrep hlt
    · obtain ⟨p, m, hp, hm, hw⟩ := hl.seen heq
      refine ⟨p, m, hp, hm, { hw with fences := fun f hf hterm hrep => ?_ }⟩
      subst hterm
      exact (hfences f hf).seen ht hrep heq p m hp hm

/-- A fence for an epoch that the leader has admitted, with the window of the seen epochs as it
    is. -/
theorem Inv.grant (hc : c ∈ r.calls) (i : Nat)
    (hfresh : r.leader = some c.term → r.state.seenWindowTerm < c.term →
      (windowOf r.epochs).lo ≤ c.epoch ∧ c.epoch ≤ (windowOf r.epochs).hi)
    (hseen : r.leader = some c.term → r.state.seenWindowTerm = c.term →
      ∀ p m, r.state.previousSeenEpoch = some p → r.state.maxSeenEpoch = some m →
        Admitted r.epochs p m c.epoch) : (r.grant i c).Inv term :=
  (h.reject i).setFences (forall_mem_concat.2 ⟨fun _ hf => (h.reject i).fenceInv hf,
    h.calls_min c hc, h.calls_le c hc, fun ht _ => hfresh ht, fun ht _ => hseen ht⟩)

omit h in
/-- What is granted in the window of the term is admitted. -/
theorem Grants.admitted (hgrants : r.Grants c) (ht : r.leader = some c.term)
    (heq : r.state.seenWindowTerm = c.term) (hp : r.state.previousSeenEpoch = some p)
    (hm : r.state.maxSeenEpoch = some m) (hin : r.state.epochInWindow c.term c.epoch = true) :
    Admitted r.epochs p m c.epoch := by
  have hwindow := (epochInWindow_of_seen heq hp hm).1 hin
  have hcond := hgrants ht
  rw [if_neg (heq ▸ lt_irrefl _)] at hcond
  refine ⟨hwindow.1, hwindow.2, fun hlt => ?_⟩
  obtain ⟨hx, hend⟩ := hcond hin m hm hlt
  refine ⟨hx, hend.imp_left fun hprev => ?_⟩
  exact Option.some.inj (hprev.symm.trans hp)

/-- An epoch in the window is granted to be shared. -/
theorem Inv.share (hc : c ∈ r.calls) (i : Nat) (hgrants : r.Grants c)
    (hin : r.state.epochInWindow c.term c.epoch = true) : (r.grant i c).Inv term := by
  refine h.grant hc i (fun ht hlt => ?_) fun ht heq p m hp hm => hgrants.admitted ht heq hp hm hin
  have hl := h.leader c.term ht
  rw [← h.applied_window_eq (hl.fresh hlt) (hl.synced ⟨c, hc, rfl⟩)]
  exact (epochInWindow_of_lt h.windowSet hlt).1 hin

omit h in
/-- A window of the term starts above the log, when no other fence is held. -/
theorem SeenWindow.start (hmin : ClusterEpoch.min ≤ p) (hle : p ≤ m)
    (hepochs : ∀ x ∈ r.epochs, x ≤ p) (hfences : ∀ f ∈ r.fences, f.epoch = m) :
    r.SeenWindow t p m where
  min_le := hmin
  le := hle
  epochs_le x hx := (hepochs x hx).trans hle
  moved := .inl hepochs
  lo_le := .inl ((windowOf_lo_le_hi _).trans (windowOf_hi_le hmin hepochs))
  fences f hf _ _ := by
    rw [hfences f hf]
    exact ⟨hle, le_rfl, fun hlt => absurd hlt (lt_irrefl _)⟩

/-- A fence for an epoch that moves the window of the seen epochs. -/
theorem Inv.update (hc : c ∈ r.calls) (i : Nat) (hgrants : r.Grants c)
    (hphase : c.phase = .updating) (hfences : r.fences = [])
    (hwindow : r.state.epochInWindow c.term c.epoch = true ∨
      r.state.epochAboveWindow c.term c.epoch = true) :
    Inv term { r.grant i c with state := r.state.advanceMaxSeenEpoch c.term c.epoch } := by
  have hr := h.reject i
  have hsingle : ∀ f ∈ (r.grant i c).fences, f = ⟨c.epoch, c.term, false⟩ := fun f hf => by
    have hf' : f ∈ r.fences ++ [⟨c.epoch, c.term, false⟩] := hf
    rw [hfences] at hf'
    exact mem_singleton.1 hf'
  refine { hr with
    windowSet := h.windowSet.advanceMaxSeenEpoch
    window := appliedWindow_advanceMaxSeenEpoch.trans h.window
    fences_min := fun f hf => ?_
    fences_le := fun f hf => ?_
    seen_le := seenWindowTerm_advanceMaxSeenEpoch_le h.seen_le (h.calls_le c hc)
    leader := fun t ht => ?_ }
  · rw [hsingle f hf]
    exact h.calls_min c hc
  · rw [hsingle f hf]
    exact h.calls_le c hc
  have hle := h.calls_le c hc
  rw [show r.leader = some t from ht] at hle
  have hl := h.leader t ht
  have hl' := hr.leader t ht
  rcases lt_or_eq_of_le hle with hlt | rfl
  · -- a call of an earlier term
    have hnone : ∀ f ∈ (r.grant i c).fences, f.term ≠ t := fun f hf => hsingle f hf ▸ hlt.ne
    rcases lt_or_eq_of_le (h.seen_le_of_leader ht) with hseen | heq
    · have hbound := seenWindowTerm_advanceMaxSeenEpoch_le (e := c.epoch)
        (Int.le_sub_one_of_lt hseen) (Int.le_sub_one_of_lt hlt)
      exact { hl' with
        fresh := fun _ => { hl'.fresh hseen with
          fences := fun f hf hterm => absurd hterm (hnone f hf) }
        seen := fun hnew => absurd hnew (Int.lt_of_le_sub_one hbound).ne }
    · rw [advanceMaxSeenEpoch_of_gt (hlt.trans_eq heq.symm)]
      obtain ⟨p, m, hp, hm, hw⟩ := hl'.seen heq
      exact { hl' with
        fresh := fun hnew => absurd heq hnew.ne
        seen := fun _ => ⟨p, m, hp, hm, { hw with
          fences := fun f hf hterm => absurd hterm (hnone f hf) }⟩ }
  rcases lt_or_eq_of_le (h.seen_le_of_leader ht) with hlt | heq
  · -- the first epoch of the term
    have hcond := hgrants ht
    rw [if_pos hlt] at hcond
    rw [advanceMaxSeenEpoch_of_lt hlt (hcond hphase)]
    have hhi := (hl.fresh hlt).calls c hc rfl hphase
    exact { hl' with
      fresh := fun hn => absurd hn (lt_irrefl _)
      seen := fun _ => ⟨c.epoch, c.epoch, rfl, rfl, .start (h.calls_min c hc) le_rfl
        (fun x hx => (le_windowOf_hi x hx).trans hhi.le) fun f hf => by rw [hsingle f hf]⟩ }
  · obtain ⟨p, m, hp, hm, hw⟩ := hl.seen heq
    rcases lt_or_ge m c.epoch with hgt | hle
    · rw [advanceMaxSeenEpoch_of_seen heq hm hgt]
      exact { hl' with
        fresh := fun hn => absurd heq hn.ne
        seen := fun _ => ⟨m, c.epoch, rfl, rfl, .start (hw.min_le.trans hw.le) hgt.le
          hw.epochs_le fun f hf => by rw [hsingle f hf]⟩ }
    · -- another epoch has moved the window
      have hin : r.state.epochInWindow c.term c.epoch = true := hwindow.resolve_right fun habove =>
        absurd ((epochAboveWindow_of_seen heq hm).1 habove) (not_lt.2 hle)
      rw [advanceMaxSeenEpoch_of_le hm hle]
      exact (h.share hc i hgrants hin).leader c.term ht

/-- A new epoch is granted when no other is held. -/
theorem Inv.acquire (hc : c ∈ r.calls)
    (hgrants : r.Grants c) (hacquire : r.acquire i c = some r') : r'.Inv term := by
  rw [FencedReplica.acquire] at hacquire
  split at hacquire
  · cases hacquire
  · split_ifs at hacquire with hin
    · exact Option.some.inj hacquire ▸ h.share hc i hgrants hin
    · exact Option.some.inj hacquire ▸ h.reject i
  · rename_i hphase
    split_ifs at hacquire with hfences hwindow
    · exact Option.some.inj hacquire ▸ h.update hc i hgrants hphase (not_not.1 hfences)
        (Bool.or_eq_true _ _ ▸ hwindow)
    · exact Option.some.inj hacquire ▸ h.reject i

end

/-! ## Replication -/

/-- The log with one more batch. -/
def appended (r : FencedReplica) (f : ClusterEpochFence) : FencedReplica :=
  { r with log := r.log ++ [⟨f.term, f.epoch⟩] }

theorem epochs_appended (r : FencedReplica) (f : ClusterEpochFence) :
    (r.appended f).epochs = r.epochs ++ [f.epoch] := by
  rw [appended, epochs, map_append]
  rfl

theorem Fresh.append (h : r.Fresh t) (hstart : r.termStart ≤ r.log.length) (hf : f ∈ r.fences)
    (hterm : f.term = t) (hrep : f.replicated = false) : (r.appended f).Fresh t := by
  obtain ⟨hlo, hhi⟩ := h.fences f hf hterm hrep
  have hstart' : r.termStart ≤ r.epochs.length := r.length_epochs ▸ hstart
  have hwindow : windowOf (r.appended f).epochs = windowOf r.epochs := by
    rw [epochs_appended, windowOf_concat, Window.push_of_le hhi]
  refine ⟨?_, ?_, ?_⟩
  · rw [epochs_appended]
    change ∀ e ∈ (r.epochs ++ [f.epoch]).drop r.termStart,
      e ≤ (windowOf ((r.epochs ++ [f.epoch]).take r.termStart)).hi
    rw [drop_append_of_le_length hstart', take_append_of_le_length hstart']
    refine forall_mem_concat.2 ⟨h.le_hi, ?_⟩
    rwa [h.windowOf_take le_rfl]
  · rw [hwindow]
    exact h.fences
  · rw [hwindow]
    exact h.calls

/-- An epoch that is admitted is in the window of the log, or above it. -/
theorem SeenWindow.lo_le_of_admitted (h : r.SeenWindow t p m)
    (he : Admitted r.epochs p m e) : (windowOf r.epochs).lo ≤ e := by
  obtain ⟨hpe, hem, hcond⟩ := he
  have hhi : (windowOf r.epochs).hi ≤ m := windowOf_hi_le (h.min_le.trans h.le) h.epochs_le
  rcases lt_or_eq_of_le hem with hlt | rfl
  · obtain ⟨⟨x, hx, hmin, hxe⟩, -⟩ := hcond hlt
    rcases h.lo_le with hlo | hall
    · exact hlo.trans hpe
    · exact absurd ((hall x hx hmin).trans hxe) (not_le.2 hlt)
  · exact (windowOf_lo_le_hi _).trans hhi

theorem SeenWindow.append (h : r.SeenWindow t p m) (hadm : Admitted r.epochs p m f.epoch) :
    (r.appended f).SeenWindow t p m := by
  have hfences : ∀ f' ∈ (r.appended f).fences, f'.term = t → f'.replicated = false →
      Admitted (r.appended f).epochs p m f'.epoch := fun f' hf' hterm hrep => by
    rw [epochs_appended]
    exact (h.fences f' hf' hterm hrep).append _
  obtain ⟨hpe, hem, hcond⟩ := hadm
  have hle : ∀ x ∈ r.epochs ++ [f.epoch], x ≤ m :=
    forall_mem_concat.2 ⟨h.epochs_le, hem⟩
  suffices hwindow : ((∀ x ∈ r.epochs ++ [f.epoch], x ≤ p) ∨ m ∈ r.epochs ++ [f.epoch]) ∧
      ((windowOf (r.epochs ++ [f.epoch])).lo ≤ p ∨
        ∀ x ∈ r.epochs ++ [f.epoch], ClusterEpoch.min < x → m ≤ x) by
    rw [← epochs_appended] at hwindow hle
    exact ⟨h.min_le, h.le, hle, hwindow.1, hwindow.2, hfences⟩
  rw [windowOf_concat]
  by_cases hend : m ∈ r.epochs
  · -- the window of the log does not move
    have hhi : f.epoch ≤ (windowOf r.epochs).hi := hem.trans (le_windowOf_hi m hend)
    refine ⟨.inr (mem_append_left _ hend), ?_⟩
    rw [Window.push_of_le hhi]
    refine h.lo_le.imp_right fun hall => forall_mem_concat.2 ⟨hall, ?_⟩
    by_contra! hlt
    obtain ⟨⟨y, hy, hymin, hye⟩, -⟩ := hcond hlt.2
    exact hlt.2.not_ge ((hall y hy hymin).trans hye)
  · have hbelow : ∀ x ∈ r.epochs, x ≤ p := h.moved.resolve_right hend
    have hhi : (windowOf r.epochs).hi ≤ p := windowOf_hi_le h.min_le hbelow
    have hlo : (windowOf r.epochs).lo ≤ p := (windowOf_lo_le_hi _).trans hhi
    rcases lt_or_eq_of_le hem with hlt | heq
    · -- the beginning of the window
      obtain ⟨⟨x, hx, hmin, hxe⟩, hep⟩ := hcond hlt
      have hep : f.epoch = p := hep.resolve_right hend
      have hne : (windowOf r.epochs).hi ≠ ClusterEpoch.min := fun hn =>
        absurd (le_windowOf_hi x hx) (not_le.2 (hn ▸ hmin))
      refine ⟨.inl (forall_mem_concat.2 ⟨hbelow, hep.le⟩), .inl ?_⟩
      rw [Window.push]
      split_ifs
      · exact hhi
      · exact hlo
    · -- the end of the window, which may be the first epoch of the log
      refine ⟨.inr (heq ▸ mem_concat_self), ?_⟩
      rw [Window.push]
      split_ifs with hgt hnone
      · refine .inr (forall_mem_concat.2 ⟨fun x hx hmin => ?_, fun _ => heq.ge⟩)
        exact absurd (le_windowOf_hi x hx) (not_le.2 (hnone ▸ hmin))
      · exact .inl hhi
      · exact .inl hlo

section

variable (h : r.Inv term) {committed : List EpochBatch}

include h

/-- A batch is appended under its fence. -/
theorem Inv.append (hf : f ∈ r.fences) (hrep : f.replicated = false)
    (ht : r.leader = some f.term) : (r.appended f).Inv term := by
  have hl := h.leader f.term ht
  have hlo : (windowOf r.epochs).lo ≤ f.epoch := by
    rcases lt_or_eq_of_le (h.seen_le_of_leader ht) with hlt | heq
    · exact ((hl.fresh hlt).fences f hf rfl hrep).1
    · obtain ⟨p, m, -, -, hw⟩ := hl.seen heq
      exact hw.lo_le_of_admitted (hw.fences f hf rfl hrep)
  have hlen : r.applied ≤ r.epochs.length := r.length_epochs ▸ h.applied_le
  have htake : (r.appended f).epochs.take r.applied = r.epochs.take r.applied := by
    rw [epochs_appended, take_append_of_le_length hlen]
  have hlength : r.log.length ≤ (r.appended f).log.length := by
    rw [appended, length_append]
    exact Nat.le_add_right _ _
  refine { h with
    obeys := ?_
    applied_le := h.applied_le.trans hlength
    window := ?_
    checker := ?_
    epochs_min := ?_
    leader := fun t ht' => ?_ }
  · rw [epochs_appended]
    exact h.obeys.concat hlo
  · exact h.window.trans (congrArg windowOf htake.symm)
  · exact h.checker.trans (congrArg windowOf htake.symm)
  · rw [epochs_appended]
    exact forall_mem_concat.2 ⟨h.epochs_min, h.fences_min f hf⟩
  · obtain rfl : f.term = t := Option.some.inj (ht.symm.trans ht')
    refine ⟨hl.start_le.trans hlength, hl.synced, fun hlt => ?_, fun heq => ?_⟩
    · exact (hl.fresh hlt).append hl.start_le hf rfl hrep
    · obtain ⟨p, m, hp, hm, hw⟩ := hl.seen heq
      exact ⟨p, m, hp, hm, hw.append (hw.fences f hf rfl hrep)⟩

/-- A fence is released when its batch is replicated, or has failed. -/
theorem Inv.replicate (hf : f ∈ r.fences)
    (hreplicate : r.replicate i f = some r') : r'.Inv term := by
  obtain ⟨hguard, ⟨⟩⟩ := Option.ite_none_right_eq_some.1 hreplicate
  have h' := h.append hf hguard.1 hguard.2
  refine h'.setFences fun f' hf' => ?_
  rcases mem_or_eq_of_mem_set hf' with hf' | rfl
  · exact h'.fenceInv hf'
  · exact ⟨h.fences_min f hf, h.fences_le f hf, nofun, nofun⟩

/-- The entry to be applied is not before the window of those that are applied. -/
theorem Inv.apply (happly : r.apply committed = some r') : r'.Inv term := by
  obtain ⟨b, hb, happly⟩ := Option.bind_eq_some_iff.1 happly
  split_ifs at happly with hguard
  obtain ⟨hlt, hget⟩ := List.getElem?_eq_some_iff.1 hb
  -- the guard makes the log agree with the committed one up to the entry
  have hlog : r.log[r.applied]? = some b := by
    rw [← getElem?_take_of_lt (Nat.lt_succ_self _), hguard.2,
      getElem?_take_of_lt (Nat.lt_succ_self _), hb]
  obtain ⟨hlt', -⟩ := List.getElem?_eq_some_iff.1 hlog
  have htake : r.epochs.take (r.applied + 1) = r.epochs.take r.applied ++ [b.epoch] := by
    rw [take_add_one, epochs, getElem?_map, hlog]
    rfl
  have hobeys : Obeys (r.epochs.take r.applied ++ [b.epoch]) :=
    htake ▸ h.obeys.of_isPrefix (List.take_prefix _ _)
  -- the window of the checker is that of the applied entries, which the log obeys
  have hlo : r.checker.window.lo ≤ b.epoch := h.checker ▸ hobeys _ _ [] rfl
  have hle : r.checker.window.lo ≤ r.checker.window.hi := h.checker ▸ windowOf_lo_le_hi _
  have hmin : ClusterEpoch.min ≤ b.epoch :=
    h.epochs_min b.epoch (mem_map_of_mem (mem_of_getElem? hlog))
  rw [checkEpoch_eq h.offset_le hle, if_pos hlo] at happly
  cases happly
  refine { h with
    applied_le := hlt'
    windowSet := h.windowSet.advanceEpoch hmin
    window := ?_
    checker := ?_
    offset_le := Int.ofNat_le.2 (Nat.le_succ _)
    seen_le := ?_
    leader := fun t ht => ?_ }
  · rw [appliedWindow_advanceEpoch h.windowSet, h.window, ← windowOf_concat, ← htake]
    rfl
  · have hwindow : (r.checker.window.push b.epoch) = windowOf (r.epochs.take (r.applied + 1)) := by
      rw [h.checker, ← windowOf_concat, htake]
    exact hwindow
  · rw [seen_advanceEpoch.1]
    exact h.seen_le
  -- only the applied window moves; what the leader has seen stays
  · have hl := h.leader t ht
    refine ⟨hl.start_le, fun hc => (hl.synced hc).trans (Nat.le_succ _), fun hlt => ?_,
      fun heq => ?_⟩
    · rw [seen_advanceEpoch.1] at hlt
      exact { hl.fresh hlt with }
    · rw [seen_advanceEpoch.1] at heq
      rw [seen_advanceEpoch.2.1, seen_advanceEpoch.2.2]
      obtain ⟨p, m, hp, hm, hw⟩ := hl.seen heq
      exact ⟨p, m, hp, hm, { hw with }⟩

theorem Inv.stepDown : Inv term { r with leader := none } where
  __ := h
  leader_le := le_rfl
  seen_le := h.seen_le.trans h.leader_le
  calls_le c hc := (h.calls_le c hc).trans h.leader_le
  fences_le f hf := (h.fences_le f hf).trans h.leader_le
  leader _ ht := by cases ht

/-- Every action of a replica keeps its invariant. -/
theorem Inv.act {a : ReplicaAction}
    (hgrants : ∀ i, a = .acquire i → ∀ c ∈ r.calls[i]?, r.Grants c)
    (hact : r.act committed a = some r') : r'.Inv term := by
  cases a with
  | call e => exact h.call hact
  | check i =>
    obtain ⟨c, hc, hcheck⟩ := Option.bind_eq_some_iff.1 hact
    exact h.check (mem_of_getElem? hc) hcheck
  | acquire i =>
    obtain ⟨c, hc, hacquire⟩ := Option.bind_eq_some_iff.1 hact
    exact h.acquire (mem_of_getElem? hc) (hgrants i rfl c hc) hacquire
  | replicate i =>
    obtain ⟨f, hf, hreplicate⟩ := Option.bind_eq_some_iff.1 hact
    exact h.replicate (mem_of_getElem? hf) hreplicate
  | release i =>
    rw [FencedReplica.act] at hact
    split_ifs at hact
    cases hact
    exact h.setFences fun _ hf => h.fenceInv (mem_of_mem_eraseIdx hf)
  | apply => exact h.apply hact
  | stepDown => exact Option.some.inj hact ▸ h.stepDown

end

/-! ## Elections and followers -/

theorem inv_new : Inv 0 {} where
  obeys := .nil
  applied_le := le_rfl
  windowSet := ⟨nofun, Iff.rfl⟩
  window := rfl
  checker := rfl
  offset_le := by decide
  not_asserted := rfl
  epochs_min _ h := nomatch h
  calls_min _ h := nomatch h
  fences_min _ h := nomatch h
  leader_le := le_rfl
  seen_le := by decide
  calls_le _ h := nomatch h
  fences_le _ h := nomatch h
  leader _ h := nomatch h

/-- Another replica is elected. -/
theorem Inv.mono (h : r.Inv term) {term' : Int} (hle : term ≤ term') : r.Inv term' := by
  have hleader := h.leader_le
  have hbound : r.leader.getD term ≤ r.leader.getD term' ∧ r.leader.getD term' ≤ term' := by
    generalize r.leader = leader at hleader ⊢
    cases leader with
    | none => exact ⟨hle, le_rfl⟩
    | some t => exact ⟨le_rfl, hleader.trans hle⟩
  exact { h with
    leader_le := hbound.2
    seen_le := h.seen_le.trans hbound.1
    calls_le := fun c hc => (h.calls_le c hc).trans hbound.1
    fences_le := fun f hf => (h.fences_le f hf).trans hbound.1 }

/-- A new term begins at the end of the log. -/
theorem Inv.elect (h : r.Inv term) (hlt : term < t) :
    Inv t { r with leader := some t, termStart := r.log.length } := by
  have hle : r.leader.getD term < t := h.leader_le.trans_lt hlt
  have hcalls : ∀ c ∈ r.calls, c.term < t := fun c hc => (h.calls_le c hc).trans_lt hle
  have hfences : ∀ f ∈ r.fences, f.term < t := fun f hf => (h.fences_le f hf).trans_lt hle
  refine { h with
    leader_le := le_rfl
    seen_le := (h.seen_le.trans_lt hle).le
    calls_le := fun c hc => (hcalls c hc).le
    fences_le := fun f hf => (hfences f hf).le
    leader := fun t' ht' => ?_ }
  obtain rfl : t = t' := Option.some.inj ht'
  refine ⟨le_rfl, fun ⟨c, hc, hterm⟩ => ?_, fun _ => ⟨fun e he => ?_, fun f hf hterm => ?_,
    fun c hc hterm => ?_⟩, fun heq => ?_⟩
  · exact absurd hterm (hcalls c hc).ne
  · have hdrop : r.epochs.drop r.log.length = [] :=
      drop_eq_nil_of_le r.length_epochs.le
    exact absurd (hdrop ▸ he) not_mem_nil
  · exact absurd hterm (hfences f hf).ne
  · exact absurd hterm (hcalls c hc).ne
  · exact absurd heq (h.seen_le.trans_lt hle).ne

/-- A follower takes the log of a leader, which has the entries that it has applied. -/
theorem Inv.follow (h : r.Inv term) {l : FencedReplica} (hl : l.Inv term)
    (hleader : r.leader = none) {log : List EpochBatch} (hlog : log <+: l.log)
    (happlied : r.log.take r.applied <+: log) : Inv term { r with log } := by
  have hlength : (r.log.take r.applied).length = r.applied := length_take_of_le h.applied_le
  have htake : r.log.take r.applied = log.take r.applied := by
    rw [← hlength, ← prefix_iff_eq_take.1 happlied, hlength]
  have hepochs : (log.map EpochBatch.epoch).take r.applied = r.epochs.take r.applied := by
    rw [epochs, ← map_take, ← map_take, htake]
  have hpre : log.map EpochBatch.epoch <+: l.epochs := hlog.map _
  refine { h with
    obeys := hl.obeys.of_isPrefix hpre
    applied_le := hlength.ge.trans happlied.length_le
    window := h.window.trans (congrArg windowOf hepochs.symm)
    checker := h.checker.trans (congrArg windowOf hepochs.symm)
    epochs_min := fun e he => hl.epochs_min e (hpre.subset he)
    leader := fun t ht => ?_ }
  rw [hleader] at ht
  cases ht

end FencedReplica

/-! ## Runs of a partition -/

namespace FencedPartition

variable {ι : Type} {σ σ' : FencedPartition ι} {a : PartitionAction ι}

/-- The grants of a run that keep the logs in their windows. -/
def Grants (σ : FencedPartition ι) : PartitionAction ι → Prop
  | .replica r (.acquire i) => ∀ c ∈ (σ.replicas r).calls[i]?, (σ.replicas r).Grants c
  | _ => True

instance (σ : FencedPartition ι) (a : PartitionAction ι) : Decidable (σ.Grants a) := by
  unfold Grants
  split <;> infer_instance

/-- The invariant of a partition. -/
def Inv (σ : FencedPartition ι) : Prop := ∀ r, (σ.replicas r).Inv σ.term

theorem inv_create : Inv (create : FencedPartition ι) := fun _ => FencedReplica.inv_new

variable [DecidableEq ι]

/-- One replica changes. -/
theorem Inv.update (h : σ.Inv) (r : ι) {replica : FencedReplica} {term : Int}
    (hle : σ.term ≤ term) (hr : replica.Inv term) (q : ι) :
    (Function.update σ.replicas r replica q).Inv term :=
  (Function.forall_update_iff σ.replicas fun _ x => x.Inv term).2 ⟨hr, fun q _ => (h q).mono hle⟩ q

/-- Every step keeps the invariant of all replicas. -/
theorem Inv.step (h : σ.Inv) (hgrants : σ.Grants a) (hstep : σ.Step a σ') : σ'.Inv := by
  rw [Step] at hstep
  cases a with
  | replica r a =>
    obtain ⟨r', hact, rfl⟩ := Option.map_eq_some_iff.1 hstep
    refine h.update r le_rfl ((h r).act (fun i hi => ?_) hact)
    subst hi
    exact hgrants
  | elect r term =>
    obtain ⟨hguard, ⟨⟩⟩ := Option.ite_none_right_eq_some.1 hstep
    exact h.update r hguard.1.le ((h r).elect hguard.1)
  | follow r leader n =>
    obtain ⟨hguard, ⟨⟩⟩ := Option.ite_none_right_eq_some.1 hstep
    exact h.update r le_rfl
      ((h r).follow (h leader) hguard.1 (List.take_prefix n _) hguard.2.2.2)
  | commit r n =>
    rw [next] at hstep
    split_ifs at hstep
    cases hstep
    exact h

/-- In every run with such grants the epochs of every log obey the window, so that the checker
    accepts them, and does not fail on any replica. -/
theorem obeys_of_run {as : List (PartitionAction ι)}
    (hrun : Run (fun σ a σ' => σ.Grants a ∧ σ.Step a σ') create as σ) (q : ι) :
    (σ.replicas q).asserted = false ∧
      ∀ pre e post, (σ.replicas q).epochs = pre ++ e :: post →
        (∃ c c', checkLog pre = some c ∧
          c.checkEpoch e pre.length = some c') ∧ ∀ m ∈ secondMaximum pre, m ≤ e := by
  have hinv : σ.Inv := Run.invariant (fun h hstep => h.step hstep.1 hstep.2) hrun inv_create
  refine ⟨(hinv q).not_asserted, fun pre e post heq => ?_⟩
  have hobeys : Obeys (pre ++ [e]) := (hinv q).obeys.of_isPrefix
    ⟨post, by rw [heq, append_assoc, singleton_append]⟩
  refine ⟨?_, fun m hm => (secondMaximum_le_lo m hm).trans (hobeys pre e [] rfl)⟩
  obtain ⟨c, hc, -⟩ := checkLog_of_obeys hobeys.of_append
  obtain ⟨c', hc', -⟩ := checkLog_of_obeys hobeys
  rw [checkLog_concat, hc, Option.bind_some] at hc'
  exact ⟨c, c', hc, hc'⟩

/-- A call that is granted a fence. -/
def fenceRun (r : ι) (epoch : Int) : List (PartitionAction ι) :=
  [.replica r (.call epoch), .replica r (.check 0), .replica r (.acquire 0)]

/-- Epochs out of order in two terms, with different leaders. -/
def outOfOrderRun : List (PartitionAction Bool) :=
  .elect true 1 :: fenceRun true 5 ++ [.replica true (.replicate 0), .replica true (.release 0)] ++
    fenceRun true 10 ++ [.replica true (.replicate 0)] ++ fenceRun true 7 ++
    [.replica true (.replicate 1), .follow false true 3, .commit true 3,
      .replica false .apply, .replica false .apply, .replica false .apply, .elect false 2] ++
    fenceRun false 5 ++ [.replica false (.replicate 0)]

theorem obeys_of_run_outOfOrder :
    ∃ σ : FencedPartition Bool,
      Run (fun σ a σ' => σ.Grants a ∧ σ.Step a σ') create outOfOrderRun σ ∧
      (σ.replicas false).epochs = [5, 10, 7, 5] ∧ ∀ q, (σ.replicas q).asserted = false ∧
        ∀ pre e post, (σ.replicas q).epochs = pre ++ e :: post →
          (∃ c c', checkLog pre = some c ∧
            c.checkEpoch e pre.length = some c') ∧ ∀ m ∈ secondMaximum pre, m ≤ e := by
  have h : (outOfOrderRun.foldlM (fun (σ : FencedPartition Bool) a =>
      if σ.Grants a then σ.next a else none) create).map (fun σ => (σ.replicas false).epochs) =
      some [5, 10, 7, 5] := by decide
  obtain ⟨σ, hrun, hσ⟩ := Run.exists_of_foldlM h
  exact ⟨σ, hrun, hσ, fun q => obeys_of_run hrun q⟩

/-- The epoch `7` is in the window, and in the log before its end `10`. -/
def insideRun : List (PartitionAction Unit) :=
  .elect () 1 :: fenceRun () 5 ++ [.replica () (.replicate 0), .replica () (.release 0)] ++
    fenceRun () 10 ++ fenceRun () 7 ++ [.replica () (.replicate 1), .replica () (.replicate 0)] ++
    fenceRun () 5 ++ [.replica () (.replicate 2), .commit () 4] ++
    List.replicate 4 (.replica () .apply)

/-- The batch with the epoch `5` is not replicated, and `10` is the first epoch in the log. -/
def firstRun : List (PartitionAction Unit) :=
  .elect () 1 :: fenceRun () 5 ++ [.replica () (.release 0)] ++
    fenceRun () 10 ++ [.replica () (.replicate 0)] ++
    fenceRun () 5 ++ [.replica () (.replicate 1), .commit () 2] ++
    List.replicate 2 (.replica () .apply)

/-- The window of the first term ends at `10`, so that those of the second one are not seen. -/
def staleRun : List (PartitionAction Unit) :=
  .elect () 1 :: fenceRun () 10 ++
    [.replica () (.release 0), .replica () .stepDown, .elect () 2] ++
    fenceRun () 5 ++ [.replica () (.replicate 0), .replica () (.release 0)] ++
    fenceRun () 4 ++ [.replica () (.replicate 0), .commit () 2] ++
    List.replicate 2 (.replica () .apply)

/-- The checker fails, for each of the three reasons. -/
theorem exists_run_asserted :
    (∃ σ : FencedPartition Unit, Run Step create insideRun σ ∧
      (σ.replicas ()).epochs = [5, 7, 10, 5] ∧ (σ.replicas ()).asserted = true) ∧
    (∃ σ : FencedPartition Unit, Run Step create firstRun σ ∧
      (σ.replicas ()).epochs = [10, 5] ∧ (σ.replicas ()).asserted = true) ∧
    ∃ σ : FencedPartition Unit, Run Step create staleRun σ ∧
      (σ.replicas ()).epochs = [5, 4] ∧ (σ.replicas ()).asserted = true := by
  have hrun : ∀ {as epochs}, (as.foldlM next create).map (fun σ : FencedPartition Unit =>
      ((σ.replicas ()).epochs, (σ.replicas ()).asserted)) = some (epochs, true) →
      ∃ σ : FencedPartition Unit, Run Step create as σ ∧ (σ.replicas ()).epochs = epochs ∧
        (σ.replicas ()).asserted = true := by
    intro as epochs h
    obtain ⟨σ, hrun, hσ⟩ := Run.exists_of_map_foldlM h
    exact ⟨σ, hrun, Prod.mk.inj hσ⟩
  exact ⟨hrun (by decide), hrun (by decide), hrun (by decide)⟩

end FencedPartition

end Redpanda.CloudTopics
