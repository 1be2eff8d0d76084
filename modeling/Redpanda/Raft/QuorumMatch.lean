import Redpanda.Raft.Configuration

/-!
# The value a quorum has reached

`quorum_match` is the largest value that a majority of the voters has reached: the entry of the
sorted values with a majority of them not before it.

* `le_getElem_iff`: an entry of a sorted list is at least `v` if enough of the entries are.
* `majority_iff_le_quorumMatch`: `quorum_match` and `majority` agree.
-/

namespace Redpanda.Raft

open Lib List

variable {α : Type*} [LinearOrder α]

theorem le_getElem_iff {l : List α} (hl : l.Pairwise (· ≤ ·)) {i : Nat} (hi : i < l.length)
    (v : α) : v ≤ l[i] ↔ l.length ≤ l.countP (v ≤ ·) + i := by
  induction l generalizing i with
  | nil => cases hi
  | cons a l ih =>
    obtain ⟨ha, hl⟩ := pairwise_cons.1 hl
    by_cases hv : v ≤ a
    · have hall : ∀ b ∈ a :: l, v ≤ b := forall_mem_cons.2 ⟨hv, fun b hb => hv.trans (ha b hb)⟩
      refine iff_of_true (hall _ (getElem_mem hi)) ?_
      rw [countP_eq_length.2 fun b hb => decide_eq_true (hall b hb)]
      exact Nat.le_add_right _ _
    · rw [countP_cons_of_neg (by simpa using hv), length_cons]
      cases i with
      | zero => exact iff_of_false hv countP_le_length.not_gt
      | succ i =>
        rw [getElem_cons_succ, ih hl, ← add_assoc, add_le_add_iff_right]

namespace GroupConfiguration

variable (c : GroupConfiguration) [Inhabited α] (f : VNode → α) (v : α)

/-- `details::quorum_match`, with the order in which `nth_element` leaves the values. -/
def quorumMatchOf (range : List VNode) : α :=
  ((range.map f).insertionSort (· ≤ ·))[(range.length - 1) / 2]?.getD default

/-- `quorum_match`, which leaves out the voters of a side that has none. -/
def quorumMatch : α :=
  match c.old with
  | none => quorumMatchOf f c.current.voters
  | some old =>
    if c.current.voters.isEmpty then quorumMatchOf f old.voters
    else if old.voters.isEmpty then quorumMatchOf f c.current.voters
    else min (quorumMatchOf f c.current.voters) (quorumMatchOf f old.voters)

variable {f v}

theorem majorityOf_iff_le {l : List VNode} (hl : l ≠ []) :
    majorityOf (v ≤ f ·) l ↔ v ≤ quorumMatchOf f l := by
  have hperm := perm_insertionSort (· ≤ ·) (l.map f)
  have hlength := hperm.length_eq
  have hpos := length_pos_of_ne_nil hl
  rw [length_map] at hlength
  have hlt : (l.length - 1) / 2 < ((l.map f).insertionSort (· ≤ ·)).length := by omega
  rw [quorumMatchOf, getElem?_eq_getElem hlt, Option.getD_some,
    le_getElem_iff (pairwise_insertionSort _ _), hperm.countP_eq, countP_map, hlength, majorityOf,
    isEmpty_eq_false_iff.2 hl, Bool.false_or, decide_eq_true_iff, IsMajority, Function.comp_def]
  omega

/-- A majority has reached a value exactly if `quorum_match` is not below it. -/
theorem majority_iff_le_quorumMatch (hcurrent : c.current.voters ≠ [])
    (hold : ∀ old ∈ c.old, old.voters ≠ []) :
    c.majority (v ≤ f ·) ↔ v ≤ c.quorumMatch f := by
  rw [majority, quorumMatch]
  rcases h : c.old with _ | old
  · exact majorityOf_iff_le hcurrent
  · have hold := hold old h
    dsimp only
    rw [if_neg (by simpa using hcurrent), if_neg (by simpa using hold), le_min_iff,
      Bool.and_eq_true_iff, majorityOf_iff_le hcurrent, majorityOf_iff_le hold]

/-- Three voters and two old ones. -/
theorem majority_iff_le_quorumMatch_joint :
    let c : GroupConfiguration :=
      ⟨⟨[⟨1, 0⟩, ⟨2, 0⟩, ⟨3, 0⟩], []⟩, none, some ⟨[⟨1, 0⟩, ⟨2, 0⟩], []⟩, [], 1⟩
    c.majority (2 ≤ ·.id) ↔ 2 ≤ c.quorumMatch (·.id) :=
  majority_iff_le_quorumMatch _ (by decide) (by decide)

end GroupConfiguration

end Redpanda.Raft
