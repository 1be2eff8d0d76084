import Redpanda.CloudTopics.EpochWindow
import Redpanda.Model.Fundamental

/-!
# The state machine of a cloud topic partition

The data of a cloud topic partition is in objects of an object store, whose names carry the epoch
in which they were written. The log of the partition has a *placeholder* for every batch. The
state `CtpStmState` is computed from the log, and says which epochs

* may be appended: those in or above a window, kept for the batches that are applied
  (`advanceEpoch`), and for those that a leader has let into the log in its term
  (`advanceMaxSeenEpoch`),
* are no longer needed, as the batches up to an offset have been reconciled
  (`advanceLastReconciledOffset`, `estimateInactiveEpoch`).

The `EpochWindowChecker` asserts that the epochs in the log obey their window: it computes the
window of the log (`checkEpoch_eq`), and so does the state (`appliedWindow_advanceEpoch`).

The start offset of the partition and the estimate of its size are left out.
-/

namespace Redpanda.CloudTopics

open Model

/-- The term of a window that is not set. -/
def TermId.min : Int := -2 ^ 63

/-- The epoch before an epoch. -/
def prevClusterEpoch (e : Int) : Int :=
  if e ≤ 0 then ClusterEpoch.min else e - 1

theorem prevClusterEpoch_lt {e : Int} (h : ClusterEpoch.min < e) : prevClusterEpoch e < e := by
  rw [prevClusterEpoch]
  split_ifs
  · exact h
  · omega

/-- The state of the state machine. -/
structure CtpStmState where
  /-- The term of the epochs that were seen. -/
  seenWindowTerm : Int := TermId.min
  maxSeenEpoch : Option Int := none
  previousSeenEpoch : Option Int := none
  maxAppliedEpoch : Option Int := none
  previousAppliedEpoch : Option Int := none
  /-- Where the window of the applied epochs has moved for the last time. -/
  currentEpochWindowOffset : Option Int := none
  /-- No batch that is not reconciled has a smaller epoch. -/
  minEpochLowerBound : Option Int := none
  lastReconciledOffset : Option Int := none
  lastReconciledLogOffset : Option Int := none
  deriving DecidableEq

namespace CtpStmState

variable (s : CtpStmState) (term epoch : Int)

/-- An epoch is seen before its batch is replicated. -/
def advanceMaxSeenEpoch : CtpStmState :=
  if s.seenWindowTerm ≤ term ∧ s.maxSeenEpoch.all (· < epoch) then
    if s.seenWindowTerm < term then
      -- a new term resets the window
      { s with previousSeenEpoch := some epoch, seenWindowTerm := term, maxSeenEpoch := some epoch }
    else
      { s with
        previousSeenEpoch := some (s.maxSeenEpoch.getD epoch), maxSeenEpoch := some epoch }
  else s

/-- The epoch may be replicated. -/
def epochInWindow : Bool :=
  if s.seenWindowTerm < term then
    let stop := s.maxAppliedEpoch.getD ClusterEpoch.min
    let start := s.previousAppliedEpoch.getD stop
    start ≤ epoch && epoch ≤ stop
  else
    let stop := s.maxSeenEpoch.getD (s.maxAppliedEpoch.getD ClusterEpoch.min)
    let start := s.previousSeenEpoch.getD (s.previousAppliedEpoch.getD stop)
    start ≤ epoch && epoch ≤ stop

/-- The epoch moves the window. -/
def epochAboveWindow : Bool :=
  if s.seenWindowTerm < term then
    s.maxAppliedEpoch.getD ClusterEpoch.min < epoch
  else
    s.maxSeenEpoch.getD (s.maxAppliedEpoch.getD ClusterEpoch.min) < epoch

/-- The largest epoch that is no longer needed. -/
def estimateInactiveEpoch : Option Int :=
  s.minEpochLowerBound.map prevClusterEpoch

/-- A batch with an epoch is applied. -/
def advanceEpoch (epoch offset : Int) : CtpStmState :=
  if s.maxAppliedEpoch.getD ClusterEpoch.min < epoch then
    { s with
      minEpochLowerBound := some (s.minEpochLowerBound.getD epoch)
      previousAppliedEpoch := some (s.maxAppliedEpoch.getD epoch)
      maxAppliedEpoch := some epoch
      currentEpochWindowOffset := some offset }
  else s

/-- The batches up to an offset are reconciled. -/
def advanceLastReconciledOffset (offset logOffset : Int) : CtpStmState :=
  { s with
    minEpochLowerBound :=
      if s.currentEpochWindowOffset.getD Offset.min ≤ logOffset then s.previousAppliedEpoch
      else s.minEpochLowerBound
    lastReconciledOffset := some (max (s.lastReconciledOffset.getD Offset.min) offset)
    lastReconciledLogOffset := some (max (s.lastReconciledLogOffset.getD Offset.min) logOffset) }

/-- The offset up to which the log may be truncated. -/
def getMaxCollectibleOffset : Int :=
  s.lastReconciledLogOffset.getD Offset.min

/-- The window of the applied epochs. -/
def appliedWindow : Window where
  lo := s.previousAppliedEpoch.getD ClusterEpoch.min
  hi := s.maxAppliedEpoch.getD ClusterEpoch.min

/-- The applied epochs are set together, and to more than the smallest value. -/
def WindowSet : Prop :=
  (∀ m ∈ s.maxAppliedEpoch, ClusterEpoch.min < m) ∧
    (s.previousAppliedEpoch = none ↔ s.maxAppliedEpoch = none)

variable {s : CtpStmState} {e o term : Int}

theorem WindowSet.advanceEpoch (h : s.WindowSet) (hmin : ClusterEpoch.min ≤ e) :
    (s.advanceEpoch e o).WindowSet := by
  rw [CtpStmState.advanceEpoch]
  split_ifs with hlt
  · refine ⟨fun m hm => ?_, by simp⟩
    obtain rfl : e = m := Option.some.inj hm
    refine lt_of_le_of_ne hmin fun heq => ?_
    cases hmax : s.maxAppliedEpoch with
    | none =>
      rw [hmax, ← heq] at hlt
      exact lt_irrefl _ hlt
    | some m =>
      rw [hmax, ← heq] at hlt
      exact lt_asymm hlt (h.1 m hmax)
  · exact h

/-- The state keeps the window of the applied epochs. -/
theorem appliedWindow_advanceEpoch (h : s.WindowSet) :
    (s.advanceEpoch e o).appliedWindow = s.appliedWindow.push e := by
  rw [advanceEpoch]
  split_ifs with hlt
  · rw [Window.push_of_lt hlt]
    cases hmax : s.maxAppliedEpoch with
    | none => simp [appliedWindow, hmax]
    | some m => simp [appliedWindow, hmax, (h.1 m hmax).ne']
  · exact (Window.push_of_le (not_lt.1 hlt)).symm

/-- In a new term the window of the applied epochs is used. -/
theorem epochInWindow_of_lt (h : s.WindowSet) (hterm : s.seenWindowTerm < term) :
    s.epochInWindow term e = true ↔ s.appliedWindow.lo ≤ e ∧ e ≤ s.appliedWindow.hi := by
  rw [epochInWindow, if_pos hterm, Bool.and_eq_true, decide_eq_true_iff, decide_eq_true_iff,
    appliedWindow]
  cases hprev : s.previousAppliedEpoch with
  | none =>
    rw [h.2.1 hprev]
    rfl
  | some p => rfl

theorem epochAboveWindow_of_lt (hterm : s.seenWindowTerm < term) :
    s.epochAboveWindow term e = true ↔ s.appliedWindow.hi < e := by
  rw [epochAboveWindow, if_pos hterm, decide_eq_true_iff]
  rfl

section Seen

variable {p m : Int}

/-- In the term of the seen epochs their window is used. -/
theorem epochInWindow_of_seen (hterm : s.seenWindowTerm = term) (hp : s.previousSeenEpoch = some p)
    (hm : s.maxSeenEpoch = some m) : s.epochInWindow term e = true ↔ p ≤ e ∧ e ≤ m := by
  rw [epochInWindow, if_neg (hterm ▸ lt_irrefl _), Bool.and_eq_true, decide_eq_true_iff,
    decide_eq_true_iff, hp, hm]
  rfl

theorem epochAboveWindow_of_seen (hterm : s.seenWindowTerm = term)
    (hm : s.maxSeenEpoch = some m) : s.epochAboveWindow term e = true ↔ m < e := by
  rw [epochAboveWindow, if_neg (hterm ▸ lt_irrefl _), decide_eq_true_iff, hm]
  rfl

theorem advanceMaxSeenEpoch_of_lt (hterm : s.seenWindowTerm < term)
    (hm : ∀ m ∈ s.maxSeenEpoch, m < e) : s.advanceMaxSeenEpoch term e =
      { s with previousSeenEpoch := some e, seenWindowTerm := term, maxSeenEpoch := some e } := by
  have hall : s.maxSeenEpoch.all (· < e) = true :=
    (Option.all_eq_true_iff_get _ _).2 fun h => decide_eq_true (hm _ (Option.get_mem h))
  rw [advanceMaxSeenEpoch, if_pos ⟨hterm.le, hall⟩, if_pos hterm]

theorem advanceMaxSeenEpoch_of_seen (hterm : s.seenWindowTerm = term)
    (hm : s.maxSeenEpoch = some m) (h : m < e) : s.advanceMaxSeenEpoch term e =
      { s with previousSeenEpoch := some m, maxSeenEpoch := some e } := by
  rw [advanceMaxSeenEpoch, if_pos ⟨hterm.le, by simp [hm, h]⟩, if_neg (hterm ▸ lt_irrefl _), hm]
  rfl

theorem advanceMaxSeenEpoch_of_le (hm : s.maxSeenEpoch = some m) (h : e ≤ m) :
    s.advanceMaxSeenEpoch term e = s :=
  if_neg fun hn => not_lt.2 h (by simpa [hm] using hn.2)

theorem advanceMaxSeenEpoch_of_gt (h : term < s.seenWindowTerm) :
    s.advanceMaxSeenEpoch term e = s :=
  if_neg fun hn => not_lt.2 hn.1 h

/-- The term of the seen epochs only grows, up to the terms that were used. -/
theorem seenWindowTerm_advanceMaxSeenEpoch_le {t : Int} (h : s.seenWindowTerm ≤ t)
    (hterm : term ≤ t) : (s.advanceMaxSeenEpoch term e).seenWindowTerm ≤ t := by
  rw [advanceMaxSeenEpoch]
  split_ifs
  · exact hterm
  · exact h
  · exact h

@[simp]
theorem appliedWindow_advanceMaxSeenEpoch :
    (s.advanceMaxSeenEpoch term e).appliedWindow = s.appliedWindow := by
  rw [advanceMaxSeenEpoch]
  split_ifs <;> rfl

theorem WindowSet.advanceMaxSeenEpoch (h : s.WindowSet) :
    (s.advanceMaxSeenEpoch term e).WindowSet := by
  rw [CtpStmState.advanceMaxSeenEpoch]
  split_ifs
  · exact h
  · exact h
  · exact h

end Seen

/-- What was seen stays. -/
@[simp]
theorem seen_advanceEpoch : (s.advanceEpoch e o).seenWindowTerm = s.seenWindowTerm ∧
    (s.advanceEpoch e o).maxSeenEpoch = s.maxSeenEpoch ∧
    (s.advanceEpoch e o).previousSeenEpoch = s.previousSeenEpoch := by
  rw [advanceEpoch]
  split_ifs <;> simp

end CtpStmState

/-! ## The checker -/

/-- The window of the epochs in the log, up to an offset. -/
structure EpochWindowChecker where
  minEpoch : Int := ClusterEpoch.min
  maxEpoch : Int := ClusterEpoch.min
  latestOffset : Int := Offset.min
  deriving DecidableEq

namespace EpochWindowChecker

/-- The epoch at an offset is checked, and there is no checker after a failed assertion. -/
def checkEpoch (c : EpochWindowChecker) (epoch offset : Int) : Option EpochWindowChecker :=
  if offset < c.latestOffset then some c
  else
    let minEpoch :=
      if c.maxEpoch < epoch then if c.maxEpoch = ClusterEpoch.min then epoch else c.maxEpoch
      else c.minEpoch
    let maxEpoch := if c.maxEpoch < epoch then epoch else c.maxEpoch
    if minEpoch ≤ epoch ∧ epoch ≤ maxEpoch then some ⟨minEpoch, maxEpoch, offset⟩ else none

/-- The window of the checker. -/
def window (c : EpochWindowChecker) : Window := ⟨c.minEpoch, c.maxEpoch⟩

variable {c : EpochWindowChecker} {e o : Int}

/-- The checker keeps the window of the log, and accepts what is not before it. -/
theorem checkEpoch_eq (hoffset : c.latestOffset ≤ o) (hwindow : c.window.lo ≤ c.window.hi) :
    c.checkEpoch e o = if c.window.lo ≤ e then
      some ⟨(c.window.push e).lo, (c.window.push e).hi, o⟩ else none := by
  rw [checkEpoch, if_neg (not_lt.2 hoffset)]
  rcases lt_or_ge c.maxEpoch e with hlt | hle
  · have hlo : c.window.lo ≤ e := hwindow.trans hlt.le
    rw [if_pos hlo, Window.push_of_lt hlt]
    have hmin : (if c.maxEpoch = ClusterEpoch.min then e else c.maxEpoch) ≤ e := by
      split_ifs
      · exact le_rfl
      · exact hlt.le
    simp only [hlt, if_true, hmin, le_refl, and_self, window]
    rfl
  · rw [Window.push_of_le hle]
    simp only [not_lt.2 hle, if_false, hle, and_true]
    rfl

/-- The epochs of a log, from its start, are checked. -/
def checkLog (l : List Int) : Option EpochWindowChecker :=
  l.zipIdx.foldlM (fun c p => c.checkEpoch p.1 p.2) {}

theorem checkLog_concat (l : List Int) (e : Int) :
    checkLog (l ++ [e]) = (checkLog l).bind (·.checkEpoch e l.length) := by
  rw [checkLog, List.zipIdx_append, List.foldlM_append, checkLog]
  simp

/-- The checker accepts the logs that obey their window. -/
theorem checkLog_of_obeys {l : List Int} (h : Obeys l) :
    ∃ c, checkLog l = some c ∧ c.window = windowOf l ∧ c.latestOffset ≤ l.length := by
  induction l using List.reverseRecOn with
  | nil => exact ⟨{}, rfl, rfl, by decide⟩
  | append_singleton l e ih =>
    obtain ⟨c, hc, hwindow, hoffset⟩ := ih h.of_append
    have hlo : c.window.lo ≤ e := hwindow ▸ h l e [] rfl
    have hle : c.window.lo ≤ c.window.hi := hwindow ▸ windowOf_lo_le_hi l
    refine ⟨⟨(c.window.push e).lo, (c.window.push e).hi, l.length⟩, ?_, ?_, ?_⟩
    · rw [checkLog_concat, hc, Option.bind_some, checkEpoch_eq hoffset hle, if_pos hlo]
    · rw [windowOf_concat, ← hwindow]
      rfl
    · rw [List.length_append]
      exact Int.ofNat_le.2 (Nat.le_add_right _ _)

end EpochWindowChecker

end Redpanda.CloudTopics
