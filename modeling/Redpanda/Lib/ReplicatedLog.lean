import Mathlib

/-!
# A replicated log

The log of a replicated group, as its leaders write it. In every term there is at most one leader,
which appends to the log. Entries are *committed* from the front and stay then. A leader may lose
its leadership at any time; the next one starts its term with what it has of the log, all of the
committed entries (leader completeness) and maybe some of the others.

Whatever happens, the log *grows* (`ReplicatedLog.Grows`): its committed entries stay
(`ReplicatedLog.Grows.take_eq`).
-/

namespace Redpanda.Lib

open List

/-- An index in a log with one more entry is an old one or the last one. -/
theorem getElem?_concat_eq_some {α : Type*} {l : List α} {a b : α} {i : Nat}
    (h : (l ++ [a])[i]? = some b) : l[i]? = some b ∨ i = l.length ∧ a = b := by
  rw [getElem?_append] at h
  split at h
  · exact .inl h
  · rcases hk : i - l.length with _ | k
    · rw [hk] at h
      exact .inr ⟨by omega, Option.some.inj h⟩
    · simp [hk] at h

/-- The log of a group of nodes `ν` with entries of type `α`. -/
structure ReplicatedLog (ν α : Type*) where
  entries : List α := []
  /-- How many entries are committed. -/
  committed : Nat := 0
  term : Nat := 0
  /-- The leader of the term, as long as it is one. -/
  leader : Option ν := none
  /-- How many entries there were when the leader was elected. -/
  start : Nat := 0
  committed_le : committed ≤ entries.length := by simp
  start_le : start ≤ entries.length := by simp

namespace ReplicatedLog

variable {ν α : Type*} (L : ReplicatedLog ν α) {L' : ReplicatedLog ν α}

/-- The node is the leader, in the term. -/
def Leads (n : ν) (t : Nat) : Prop := L.leader = some n ∧ L.term = t

instance [DecidableEq ν] (n : ν) (t : Nat) : Decidable (L.Leads n t) :=
  inferInstanceAs (Decidable (_ ∧ _))

/-- The leader appends an entry. -/
@[simps]
def append (a : α) : ReplicatedLog ν α where
  __ := L
  entries := L.entries ++ [a]
  committed_le := L.committed_le.trans (by rw [length_append]; exact Nat.le_add_right _ _)
  start_le := L.start_le.trans (by rw [length_append]; exact Nat.le_add_right _ _)

/-- The first `k` entries get committed, as far as they exist. -/
def commit (k : Nat) : ReplicatedLog ν α where
  __ := L
  committed := max L.committed (min k L.entries.length)
  committed_le := max_le L.committed_le (min_le_right _ _)

/-- The leader steps down, if the node is it in this term. -/
def stepDown [DecidableEq ν] (n : ν) (t : Nat) : ReplicatedLog ν α :=
  if L.Leads n t then { L with leader := none } else L

/-- A node is elected, which has the first `k` entries and all committed ones. -/
@[simps]
def elect (n : ν) (k : Nat) : ReplicatedLog ν α where
  entries := L.entries.take (max L.committed k)
  committed := L.committed
  term := L.term + 1
  leader := some n
  start := (L.entries.take (max L.committed k)).length
  committed_le := by
    rw [length_take]
    exact le_min (le_max_left _ _) L.committed_le
  start_le := le_rfl

section

variable [DecidableEq ν] (n : ν) (t : Nat)

@[simp] theorem stepDown_entries : (L.stepDown n t).entries = L.entries := by
  rw [stepDown]; split <;> rfl
@[simp] theorem stepDown_committed : (L.stepDown n t).committed = L.committed := by
  rw [stepDown]; split <;> rfl
@[simp] theorem stepDown_term : (L.stepDown n t).term = L.term := by
  rw [stepDown]; split <;> rfl
@[simp] theorem stepDown_start : (L.stepDown n t).start = L.start := by
  rw [stepDown]; split <;> rfl

end

theorem committed_le_commit (k : Nat) : L.committed ≤ (L.commit k).committed := le_max_left _ _

variable {L}

/-- A step of a node that leaves the log as it is. -/
theorem exists_of_map_mk {σ τ : Type*} {f : σ → τ} {o : Option σ}
    {x : τ} (h : o.map (fun y => (L, f y)) = some (L', x)) :
    L = L' ∧ ∃ y, o = some y ∧ f y = x := by
  obtain ⟨y, hy, heq⟩ := Option.map_eq_some_iff.1 h
  exact ⟨(Prod.mk.inj heq).1, y, hy, (Prod.mk.inj heq).2⟩

/-- An entry was there before, or it is the one appended. -/
theorem getElem_append_cases {a : α} {i : Nat} (hi : i < (L.append a).entries.length) :
    (∃ h : i < L.entries.length, (L.append a).entries[i] = L.entries[i]) ∨
      i = L.entries.length ∧ (L.append a).entries[i] = a := by
  have := getElem?_concat_eq_some (getElem?_eq_getElem hi)
  rwa [getElem?_eq_some_iff, exists_congr fun _ => eq_comm, @eq_comm _ a] at this

/-- Who leads after a node stepped down led before, and is not that node. -/
theorem leader_of_stepDown [DecidableEq ν] {n m : ν} {t : Nat}
    (h : (L.stepDown n t).leader = some m) : L.leader = some m ∧ ¬ L.Leads n t := by
  rw [stepDown] at h
  split at h
  · exact nomatch h
  · exact ⟨h, by assumption⟩

/-! ## Growth -/

/-- No term is left behind and what was committed stays so. -/
structure Grows (L L' : ReplicatedLog ν α) : Prop where
  term_le : L.term ≤ L'.term
  committed_le : L.committed ≤ L'.committed
  getElem?_eq : ∀ {i}, i < L.committed → L'.entries[i]? = L.entries[i]?

/-- A log that grows keeps its committed entries. -/
theorem Grows.take_eq (h : L.Grows L') {k : Nat}
    (hk : k ≤ L.committed) : L'.entries.take k = L.entries.take k := by
  refine ext_getElem? fun i => ?_
  rw [getElem?_take, getElem?_take]
  split
  · exact h.getElem?_eq (by omega)
  · rfl

variable (L)

theorem grows_append (a : α) : L.Grows (L.append a) := by
  refine ⟨le_rfl, le_rfl, fun {i} hi => ?_⟩
  exact getElem?_append_left (hi.trans_le L.committed_le)

theorem grows_commit (k : Nat) : L.Grows (L.commit k) :=
  ⟨le_rfl, L.committed_le_commit k, fun _ => rfl⟩

theorem grows_stepDown [DecidableEq ν] (n : ν) (t : Nat) : L.Grows (L.stepDown n t) :=
  ⟨by simp, by simp, fun _ => by simp⟩

theorem grows_elect (n : ν) (k : Nat) : L.Grows (L.elect n k) := by
  refine ⟨by simp, le_rfl, fun {i} hi => ?_⟩
  exact getElem?_take_of_lt (hi.trans_le (le_max_left _ _))

end ReplicatedLog

end Redpanda.Lib
