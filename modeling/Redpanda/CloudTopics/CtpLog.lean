import Redpanda.CloudTopics.CtpStmState
import Redpanda.Lib.ReplicatedLog

/-!
# What the state machine computes from a log

The batches `CtpBatch` of the log of a cloud topic partition are applied one after the other
(`CtpStmState.apply`), and `stateOf l` is the state after those of `l`. The offset of a batch is its
position. In a valid log the epochs obey their window, and a command that advances the reconciled
offset names an offset before its own (`ValidLog`).

* Applying a batch again does not change the state (`apply_of_lt`), so that the batches may be
  replayed on a state that has already seen them.
* The batches above the reconciled offset have an epoch above the inactive one
  (`estimateInactiveEpoch_lt`), as do all those that will follow.
-/

namespace Redpanda.CloudTopics

open Lib Model List

/-- The name of an object. -/
structure ObjectId where
  epoch : Int
  name : Nat
  deriving DecidableEq

/-- A batch of the log. -/
inductive CtpBatch where
  /-- The data is in an object. -/
  | placeholder (id : ObjectId)
  | advanceEpoch (epoch : Int)
  | advanceReconciledOffset (offset logOffset : Int)
  | other
  deriving DecidableEq

/-- The epoch of a batch. -/
def CtpBatch.epoch? : CtpBatch → Option Int
  | .placeholder id => some id.epoch
  | .advanceEpoch epoch => some epoch
  | .advanceReconciledOffset _ _ => none
  | .other => none

/-- The epochs in a log. -/
def epochsOf (l : List CtpBatch) : List Int := l.filterMap CtpBatch.epoch?

/-- A batch at an offset is applied. -/
def CtpStmState.apply (s : CtpStmState) (b : CtpBatch) (offset : Int) : CtpStmState :=
  match b with
  | .placeholder id => s.advanceEpoch id.epoch offset
  | .advanceEpoch epoch => s.advanceEpoch epoch offset
  | .advanceReconciledOffset offset logOffset => s.advanceLastReconciledOffset offset logOffset
  | .other => s

/-- The state after the batches of a log. -/
def stateOf (l : List CtpBatch) : CtpStmState := l.zipIdx.foldl (fun s p => s.apply p.1 p.2) {}

/-- A log that the state machine relies on. -/
structure ValidLog (l : List CtpBatch) : Prop where
  obeys : Obeys (epochsOf l)
  lt_epoch : ∀ e ∈ epochsOf l, ClusterEpoch.min < e
  lt_offset : ∀ (i : Nat) (o o' : Int), l[i]? = some (.advanceReconciledOffset o o') → o' < i

variable {l l' : List CtpBatch} {b : CtpBatch} {e offset : Int}

theorem epochsOf_append (l l' : List CtpBatch) : epochsOf (l ++ l') = epochsOf l ++ epochsOf l' :=
  filterMap_append

theorem epochsOf_concat (l : List CtpBatch) (b : CtpBatch) :
    epochsOf (l ++ [b]) = epochsOf l ++ b.epoch?.toList := by
  rw [epochsOf_append]
  cases b <;> rfl

theorem epochsOf_isPrefix (h : l <+: l') : epochsOf l <+: epochsOf l' := by
  obtain ⟨rest, rfl⟩ := h
  exact ⟨epochsOf rest, (epochsOf_append l rest).symm⟩

theorem mem_epochsOf (hb : b ∈ l) (he : b.epoch? = some e) : e ∈ epochsOf l :=
  mem_filterMap.2 ⟨b, hb, he⟩

theorem length_lt_concat : (l.length : Int) < (l ++ [b]).length := by
  simp

theorem stateOf_concat (l : List CtpBatch) (b : CtpBatch) :
    stateOf (l ++ [b]) = (stateOf l).apply b l.length := by
  rw [stateOf, zipIdx_append, foldl_append, stateOf]
  simp

namespace ValidLog

theorem nil : ValidLog [] :=
  ⟨.nil, nofun, fun _ _ _ h => by simp at h⟩

theorem of_isPrefix (h : ValidLog l') (hpre : l <+: l') : ValidLog l where
  obeys := h.obeys.of_isPrefix (epochsOf_isPrefix hpre)
  lt_epoch e he := h.lt_epoch e ((epochsOf_isPrefix hpre).subset he)
  lt_offset i o o' hb := by
    obtain ⟨rest, rfl⟩ := hpre
    refine h.lt_offset i o o' ?_
    rwa [getElem?_append_left (List.getElem?_eq_some_iff.1 hb).1]

theorem concat (h : ValidLog l)
    (hepoch : ∀ e ∈ b.epoch?, ClusterEpoch.min < e ∧ (windowOf (epochsOf l)).lo ≤ e)
    (hoffset : ∀ o o', b = .advanceReconciledOffset o o' → o' < l.length) :
    ValidLog (l ++ [b]) := by
  refine ⟨?_, fun e he => ?_, fun i o o' hb => ?_⟩
  · rw [epochsOf_concat]
    cases hb : b.epoch? with
    | none => exact (append_nil (epochsOf l)).symm ▸ h.obeys
    | some e => exact h.obeys.concat (hepoch e hb).2
  · rw [epochsOf_concat] at he
    rcases mem_append.1 he with he | he
    · exact h.lt_epoch e he
    · exact (hepoch e (Option.mem_toList.1 he)).1
  · rcases getElem?_concat_eq_some hb with hb | ⟨rfl, rfl⟩
    · exact h.lt_offset i o o' hb
    · exact hoffset o o' rfl

end ValidLog

/-! ## The epochs that are needed -/

/-- No batch above an offset has an epoch below the bound, also in a longer log. -/
def Bounds (l : List CtpBatch) (bound offset : Int) : Prop :=
  ∀ l', l <+: l' → Obeys (epochsOf l') → ∀ (o : Nat) (b : CtpBatch) (e : Int),
    l'[o]? = some b → b.epoch? = some e → offset < o → bound ≤ e

theorem Bounds.append {bound : Int} (h : Bounds l bound offset) (l' : List CtpBatch) :
    Bounds (l ++ l') bound offset :=
  fun k hk => h k ((prefix_append l l').trans hk)

theorem Bounds.mono {bound offset' : Int} (h : Bounds l bound offset)
    (hle : offset ≤ offset') : Bounds l bound offset' :=
  fun k hk hobeys o b e hb he hlt => h k hk hobeys o b e hb he (hle.trans_lt hlt)

/-- The window bounds the epochs that follow the log. -/
theorem bounds_window (l : List CtpBatch) (h : (l.length : Int) ≤ offset + 1) :
    Bounds l (windowOf (epochsOf l)).lo offset := by
  intro l' hpre hobeys o b e hb he hlt
  obtain ⟨rest, rfl⟩ := hpre
  rw [epochsOf_append] at hobeys
  refine hobeys.lo_le_of_mem e (mem_epochsOf ?_ he)
  have hle : l.length ≤ o := by omega
  rw [getElem?_append_right hle] at hb
  exact mem_of_getElem? hb

/-- What the state says about the log. -/
structure StateInv (l : List CtpBatch) (s : CtpStmState) : Prop where
  windowSet : s.WindowSet
  window : s.appliedWindow = windowOf (epochsOf l)
  min_lt : ∀ p ∈ s.previousAppliedEpoch, ClusterEpoch.min < p
  /-- The window has last moved at an offset. -/
  moved : ∀ w ∈ s.currentEpochWindowOffset, ∃ n : Nat, w = n ∧
    windowOf (epochsOf (l.take (n + 1))) = windowOf (epochsOf l)
  moved_isSome : s.currentEpochWindowOffset = none → s.maxAppliedEpoch = none
  bound_isSome : s.minEpochLowerBound = none → s.maxAppliedEpoch = none
  bound : ∀ bound ∈ s.minEpochLowerBound, ClusterEpoch.min < bound ∧
    Bounds l bound s.getMaxCollectibleOffset
  collectible_lt : s.getMaxCollectibleOffset < l.length

namespace StateInv

variable {s : CtpStmState}

theorem nil : StateInv [] {} where
  windowSet := ⟨nofun, Iff.rfl⟩
  window := rfl
  min_lt _ h := nomatch h
  moved _ h := nomatch h
  moved_isSome _ := rfl
  bound_isSome _ := rfl
  bound _ h := nomatch h
  collectible_lt := by decide

variable (h : StateInv l s)

include h

theorem le_max (he : e ∈ epochsOf l) : e ≤ s.maxAppliedEpoch.getD ClusterEpoch.min := by
  have hhi : s.appliedWindow.hi = (windowOf (epochsOf l)).hi := by rw [h.window]
  exact (le_windowOf_hi e he).trans_eq hhi.symm

/-- A batch without an effect on the state. -/
theorem append_of_eq (b : CtpBatch)
    (hwindow : windowOf (epochsOf (l ++ [b])) = windowOf (epochsOf l)) : StateInv (l ++ [b]) s where
  __ := h
  window := h.window.trans hwindow.symm
  moved w hw := by
    obtain ⟨n, rfl, hn⟩ := h.moved w hw
    refine ⟨n, rfl, ?_⟩
    rcases lt_or_ge n l.length with hlt | hge
    · rw [take_append_of_le_length hlt, hn, hwindow]
    · rw [take_of_length_le (by rw [length_append]; exact Nat.succ_le_succ hge)]
  bound bound hb := ⟨(h.bound bound hb).1, (h.bound bound hb).2.append _⟩
  collectible_lt := h.collectible_lt.trans length_lt_concat

/-- A batch with an epoch. -/
theorem advanceEpoch (hl : ValidLog l) (he : b.epoch? = some e)
    (hmin : ClusterEpoch.min < e) : StateInv (l ++ [b]) (s.advanceEpoch e l.length) := by
  have hsplit : epochsOf (l ++ [b]) = epochsOf l ++ [e] := by
    rw [epochsOf_concat, he]
    rfl
  have hset := h.windowSet.advanceEpoch (o := l.length) hmin.le
  have hwindow := CtpStmState.appliedWindow_advanceEpoch (e := e) (o := l.length) h.windowSet
  rw [h.window, ← windowOf_concat, ← hsplit] at hwindow
  by_cases hlt : s.maxAppliedEpoch.getD ClusterEpoch.min < e
  · -- the window moves
    rw [CtpStmState.advanceEpoch, if_pos hlt] at hset hwindow ⊢
    refine ⟨hset, hwindow, fun p hp => ?_, fun w hw => ?_, by rintro ⟨⟩, by rintro ⟨⟩,
      fun bound hb => ?_, h.collectible_lt.trans length_lt_concat⟩
    · obtain rfl : s.maxAppliedEpoch.getD e = p := Option.some.inj hp
      cases hmax : s.maxAppliedEpoch with
      | none => exact hmin
      | some m => exact h.windowSet.1 m hmax
    · obtain rfl : (l.length : Int) = w := Option.some.inj hw
      exact ⟨l.length, rfl, by rw [take_of_length_le (by rw [length_append]; rfl)]⟩
    · obtain rfl : s.minEpochLowerBound.getD e = bound := Option.some.inj hb
      cases hbound : s.minEpochLowerBound with
      | some bound => exact ⟨(h.bound bound hbound).1, (h.bound bound hbound).2.append _⟩
      | none =>
        -- the first epoch
        have hnone := h.bound_isSome hbound
        refine ⟨hmin, fun l' hpre hobeys o b' e' hb' he' _ => ?_⟩
        have hlo : (windowOf (epochsOf (l ++ [b]))).lo = e := by
          rw [← hwindow]
          simp [CtpStmState.appliedWindow, hnone]
        rcases lt_or_ge o (l ++ [b]).length with ho | ho
        · have hmem : e' ∈ epochsOf (l ++ [b]) := by
            obtain ⟨rest, rfl⟩ := hpre
            rw [getElem?_append_left ho] at hb'
            exact mem_epochsOf (mem_of_getElem? hb') he'
          rw [hsplit] at hmem
          rcases mem_concat.1 hmem with hmem | rfl
          · -- there is none before
            have hle := h.le_max hmem
            rw [hnone] at hle
            exact absurd (hl.lt_epoch e' hmem) (not_lt.2 hle)
          · exact le_rfl
        · have hbounds : Bounds (l ++ [b]) (windowOf (epochsOf (l ++ [b]))).lo
              ((l ++ [b]).length - 1) := bounds_window _ (by omega)
          exact hlo ▸ hbounds l' hpre hobeys o b' e' hb' he' (by omega)
  · -- the epoch is not above the window
    have hsame : s.advanceEpoch e l.length = s := if_neg hlt
    rw [hsame] at hwindow ⊢
    exact h.append_of_eq b (hwindow.symm.trans h.window)

/-- A command that advances the reconciled offset. -/
theorem advanceLastReconciledOffset {o o' : Int} (hlt : o' < l.length) :
    StateInv (l ++ [.advanceReconciledOffset o o']) (s.advanceLastReconciledOffset o o') := by
  have hwindow : windowOf (epochsOf (l ++ [.advanceReconciledOffset o o'])) =
      windowOf (epochsOf l) := by
    rw [epochsOf_concat]
    exact congrArg windowOf (append_nil _)
  have happend := h.append_of_eq _ hwindow
  have hcollectible : (s.advanceLastReconciledOffset o o').getMaxCollectibleOffset =
      max s.getMaxCollectibleOffset o' := rfl
  refine { happend with bound_isSome := fun hn => ?_, bound := fun bound hb => ?_,
                        collectible_lt := ?_ }
  · change (if _ then s.previousAppliedEpoch else s.minEpochLowerBound) = none at hn
    split_ifs at hn
    · exact h.windowSet.2.1 hn
    · exact h.bound_isSome hn
  · change (if _ then s.previousAppliedEpoch else s.minEpochLowerBound) = some bound at hb
    rw [hcollectible]
    split_ifs at hb with hmoved
    · -- the offset at which the window has moved is reconciled
      have hlo : bound = (windowOf (epochsOf l)).lo := by
        rw [← h.window, CtpStmState.appliedWindow, hb]
        rfl
      have hmax : s.maxAppliedEpoch ≠ none := fun hn => by
        rw [h.windowSet.2.2 hn] at hb
        cases hb
      obtain ⟨w, hw⟩ := Option.ne_none_iff_exists'.1 fun hn => hmax (h.moved_isSome hn)
      obtain ⟨n, rfl, hn⟩ := h.moved w hw
      rw [hw] at hmoved
      have hmoved : (n : Int) ≤ o' := hmoved
      have hlength : ((l.take (n + 1)).length : Int) ≤ n + 1 :=
        Int.ofNat_le.2 (length_take_le _ _)
      have hbounds := (bounds_window (l.take (n + 1)) hlength).mono (hmoved.trans (le_max_right
        s.getMaxCollectibleOffset o'))
      rw [hn, ← hlo] at hbounds
      exact ⟨h.min_lt bound hb, fun l' hl' => hbounds l' ((List.take_prefix _ l).trans
        ((prefix_append l _).trans hl'))⟩
    · exact ⟨(happend.bound bound hb).1, (happend.bound bound hb).2.mono (le_max_left _ _)⟩
  · rw [hcollectible]
    exact max_lt happend.collectible_lt (hlt.trans length_lt_concat)

end StateInv

theorem stateInv_stateOf (hl : ValidLog l) : StateInv l (stateOf l) := by
  induction l using reverseRecOn with
  | nil => exact .nil
  | append_singleton l b ih =>
    have hl' := hl.of_isPrefix (prefix_append l [b])
    have hlast : (l ++ [b])[l.length]? = some b := by simp
    have hepoch : ∀ e ∈ b.epoch?, ClusterEpoch.min < e := fun e he =>
      hl.lt_epoch e (mem_epochsOf (mem_of_getElem? hlast) he)
    rw [stateOf_concat]
    cases b with
    | placeholder | advanceEpoch => exact (ih hl').advanceEpoch hl' rfl (hepoch _ rfl)
    | advanceReconciledOffset o o' =>
      exact (ih hl').advanceLastReconciledOffset (hl.lt_offset l.length o o' hlast)
    | other =>
      refine (ih hl').append_of_eq _ ?_
      rw [epochsOf_concat]
      exact congrArg windowOf (append_nil _)

/-- The batches above the reconciled offset, and those that follow, have an epoch above the
    inactive one. -/
theorem estimateInactiveEpoch_lt (hl' : ValidLog l') (hpre : l <+: l') {x : Int}
    (hx : (stateOf l).estimateInactiveEpoch = some x) {o : Nat} (hb : l'[o]? = some b)
    (he : b.epoch? = some e) (ho : (stateOf l).getMaxCollectibleOffset < o) : x < e := by
  obtain ⟨bound, hbound, rfl⟩ := Option.map_eq_some_iff.1 hx
  obtain ⟨hmin, hbounds⟩ := (stateInv_stateOf (hl'.of_isPrefix hpre)).bound bound hbound
  exact (prevClusterEpoch_lt hmin).trans_le (hbounds l' hpre hl'.obeys o b e hb he ho)

/-- The reconciled offset does not move back. -/
theorem getMaxCollectibleOffset_mono (hpre : l <+: l') :
    (stateOf l).getMaxCollectibleOffset ≤ (stateOf l').getMaxCollectibleOffset := by
  obtain ⟨rest, rfl⟩ := hpre
  induction rest using reverseRecOn with
  | nil => rw [append_nil]
  | append_singleton rest b ih =>
    rw [← append_assoc, stateOf_concat]
    refine ih.trans ?_
    cases b with
    | advanceReconciledOffset o o' => exact le_max_left _ _
    | placeholder id | advanceEpoch epoch =>
      rw [CtpStmState.apply, CtpStmState.advanceEpoch]
      split_ifs <;> exact le_rfl
    | other => exact le_rfl

/-! ## Replay -/

/-- A command has taken effect: applying it again changes nothing. -/
structure Reconciled (s : CtpStmState) (o o' : Int) : Prop where
  offset_le : ∃ v, s.lastReconciledOffset = some v ∧ o ≤ v
  logOffset_le : ∃ v, s.lastReconciledLogOffset = some v ∧ o' ≤ v
  bound : s.currentEpochWindowOffset.getD Offset.min ≤ o' →
    s.minEpochLowerBound = s.previousAppliedEpoch

namespace Reconciled

variable {s : CtpStmState} {o o' : Int} (h : Reconciled s o o')

include h

theorem apply_eq : s.advanceLastReconciledOffset o o' = s := by
  obtain ⟨v, hv, hle⟩ := h.offset_le
  obtain ⟨v', hv', hle'⟩ := h.logOffset_le
  have hbound : (if s.currentEpochWindowOffset.getD Offset.min ≤ o' then s.previousAppliedEpoch
      else s.minEpochLowerBound) = s.minEpochLowerBound := by
    split_ifs with hmoved
    · exact (h.bound hmoved).symm
    · rfl
  have hmax : some (max (s.lastReconciledOffset.getD Offset.min) o) = s.lastReconciledOffset := by
    rw [hv]
    exact congrArg some (max_eq_left hle)
  have hmax' : some (max (s.lastReconciledLogOffset.getD Offset.min) o') =
      s.lastReconciledLogOffset := by
    rw [hv']
    exact congrArg some (max_eq_left hle')
  rw [CtpStmState.advanceLastReconciledOffset, hbound, hmax, hmax']

omit h in
theorem of_apply (s : CtpStmState) (o o' : Int) :
    Reconciled (s.advanceLastReconciledOffset o o') o o' where
  offset_le := ⟨_, rfl, le_max_right _ _⟩
  logOffset_le := ⟨_, rfl, le_max_right _ _⟩
  bound hmoved := if_pos hmoved

/-- The window moves at later offsets only. -/
theorem advanceEpoch {n : Int} (hlt : o' < n) (e : Int) : Reconciled (s.advanceEpoch e n) o o' := by
  rw [CtpStmState.advanceEpoch]
  split_ifs
  · exact ⟨h.offset_le, h.logOffset_le, fun hle => absurd hle (not_le.2 hlt)⟩
  · exact h

theorem advanceLastReconciledOffset (p p' : Int) :
    Reconciled (s.advanceLastReconciledOffset p p') o o' := by
  obtain ⟨v, hv, hle⟩ := h.offset_le
  obtain ⟨v', hv', hle'⟩ := h.logOffset_le
  refine ⟨⟨_, rfl, ?_⟩, ⟨_, rfl, ?_⟩, fun hmoved => ?_⟩
  · rw [hv]
    exact le_max_of_le_left hle
  · rw [hv']
    exact le_max_of_le_left hle'
  · change (if _ then s.previousAppliedEpoch else s.minEpochLowerBound) = s.previousAppliedEpoch
    split_ifs
    · rfl
    · exact h.bound hmoved

theorem apply {n : Int} (hlt : o' < n) (b : CtpBatch) : Reconciled (s.apply b n) o o' := by
  cases b with
  | placeholder | advanceEpoch => exact h.advanceEpoch hlt _
  | advanceReconciledOffset p p' => exact h.advanceLastReconciledOffset p p'
  | other => exact h

end Reconciled

theorem reconciled_stateOf (hl : ValidLog l) {i : Nat} {o o' : Int}
    (hb : l[i]? = some (.advanceReconciledOffset o o')) : Reconciled (stateOf l) o o' := by
  induction l using reverseRecOn with
  | nil => simp at hb
  | append_singleton l b ih =>
    have hlt : o' < i := hl.lt_offset i o o' hb
    rw [stateOf_concat]
    rcases getElem?_concat_eq_some hb with hb | ⟨-, rfl⟩
    · have hi := (List.getElem?_eq_some_iff.1 hb).1
      exact (ih (hl.of_isPrefix (prefix_append l [b])) hb).apply
        (hlt.trans (Int.ofNat_lt.2 hi)) b
    · exact .of_apply _ o o'

/-- A batch that has been applied changes nothing if it is applied again. -/
theorem apply_of_lt (hl : ValidLog l) {i : Nat} (hb : l[i]? = some b) (o : Int) :
    (stateOf l).apply b o = stateOf l := by
  have hinv := stateInv_stateOf hl
  have hepoch : ∀ e, b.epoch? = some e → (stateOf l).advanceEpoch e o = stateOf l := fun e he =>
    if_neg (not_lt.2 (hinv.le_max (mem_epochsOf (mem_of_getElem? hb) he)))
  cases b with
  | placeholder | advanceEpoch => exact hepoch _ rfl
  | advanceReconciledOffset p p' => exact (reconciled_stateOf hl hb).apply_eq
  | other => rfl

end Redpanda.CloudTopics
