import Redpanda.Lib.Pairwise

/-!
# Windows of epochs

The batches of a cloud topic partition carry epochs, in an order that is only nearly ascending:
an epoch may follow a larger one, as long as it is in the *window* from the second-largest to the
largest running maximum of the epochs before it. A larger epoch moves the window
(`Window.push`).

* `windowOf l`: the window after the epochs of `l`. Its end is the largest epoch
  (`le_windowOf_hi`, `windowOf_hi_mem`), and its beginning bounds the second-largest running
  maximum (`secondMaximum_le_lo`).
* `Obeys l`: every epoch of `l` is in the window of those before it, or above it.
* The window only moves forward (`windowOf_lo_le`), and stays as long as there is no epoch above
  it (`windowOf_append_of_le`).

The smallest value of an epoch stands for no epoch.
-/

namespace Redpanda.CloudTopics

open Lib List

/-- The smallest value of an epoch. -/
def ClusterEpoch.min : Int := -2 ^ 63

/-- The epochs that may follow those of a log. -/
structure Window where
  lo : Int := ClusterEpoch.min
  hi : Int := ClusterEpoch.min
  deriving DecidableEq

namespace Window

/-- An epoch above the window moves it. -/
def push (w : Window) (e : Int) : Window :=
  if w.hi < e then ⟨if w.hi = ClusterEpoch.min then e else w.hi, e⟩ else w

variable {w : Window} {e : Int}

theorem push_of_lt (h : w.hi < e) : w.push e = ⟨if w.hi = ClusterEpoch.min then e else w.hi, e⟩ :=
  if_pos h

theorem push_of_le (h : e ≤ w.hi) : w.push e = w := if_neg (not_lt.2 h)

theorem hi_push (w : Window) (e : Int) : (w.push e).hi = max w.hi e := by
  rcases lt_or_ge w.hi e with hlt | hle
  · rw [push_of_lt hlt, max_eq_right hlt.le]
  · rw [push_of_le hle, max_eq_left hle]

theorem lo_le_hi_push (h : w.lo ≤ w.hi) (e : Int) : (w.push e).lo ≤ (w.push e).hi := by
  rcases lt_or_ge w.hi e with hlt | hle
  · rw [push_of_lt hlt]
    dsimp only
    split_ifs with hmin
    · exact le_rfl
    · exact hlt.le
  · rwa [push_of_le hle]

theorem lo_le_push (h : w.lo ≤ w.hi) (e : Int) : w.lo ≤ (w.push e).lo := by
  rcases lt_or_ge w.hi e with hlt | hle
  · rw [push_of_lt hlt]
    dsimp only
    split_ifs with hmin
    · exact h.trans hlt.le
    · exact h
  · rw [push_of_le hle]

end Window

/-- The window after the epochs of a log. -/
def windowOf (l : List Int) : Window := l.foldl Window.push {}

variable {l l' : List Int} {e : Int}

theorem windowOf_concat (l : List Int) (e : Int) : windowOf (l ++ [e]) = (windowOf l).push e := by
  rw [windowOf, foldl_append]
  rfl

theorem windowOf_lo_le_hi (l : List Int) : (windowOf l).lo ≤ (windowOf l).hi := by
  induction l using reverseRecOn with
  | nil => exact le_rfl
  | append_singleton l e ih =>
    rw [windowOf_concat]
    exact Window.lo_le_hi_push ih e

/-- The window only moves forward. -/
theorem windowOf_lo_le (l l' : List Int) : (windowOf l).lo ≤ (windowOf (l ++ l')).lo := by
  induction l' using reverseRecOn with
  | nil => rw [append_nil]
  | append_singleton l' e ih =>
    rw [← append_assoc, windowOf_concat]
    exact ih.trans (Window.lo_le_push (windowOf_lo_le_hi _) e)

theorem le_windowOf_hi : ∀ e ∈ l, e ≤ (windowOf l).hi := by
  induction l using reverseRecOn with
  | nil => exact nofun
  | append_singleton l x ih =>
    intro e he
    rw [windowOf_concat, Window.hi_push]
    rcases mem_concat.1 he with he | rfl
    · exact le_max_of_le_left (ih e he)
    · exact le_max_right _ _

theorem windowOf_hi_mem : (windowOf l).hi = ClusterEpoch.min ∨ (windowOf l).hi ∈ l := by
  induction l using reverseRecOn with
  | nil => exact .inl rfl
  | append_singleton l x ih =>
    rw [windowOf_concat]
    rcases lt_or_ge (windowOf l).hi x with hlt | hle
    · rw [Window.push_of_lt hlt]
      exact .inr mem_concat_self
    · rw [Window.push_of_le hle]
      exact ih.imp_right fun h => mem_append_left _ h

theorem windowOf_hi_le {m : Int} (hmin : ClusterEpoch.min ≤ m) (h : ∀ e ∈ l, e ≤ m) :
    (windowOf l).hi ≤ m := by
  rcases windowOf_hi_mem with heq | hmem
  · exact heq.trans_le hmin
  · exact h _ hmem

theorem min_le_windowOf_lo (l : List Int) : ClusterEpoch.min ≤ (windowOf l).lo :=
  windowOf_lo_le [] l

/-- Epochs that are not above the window leave it as it is. -/
theorem windowOf_append_of_le (h : ∀ e ∈ l', e ≤ (windowOf l).hi) :
    windowOf (l ++ l') = windowOf l := by
  induction l' using reverseRecOn with
  | nil => rw [append_nil]
  | append_singleton l' e ih =>
    have hl' := ih fun x hx => h x (mem_append_left _ hx)
    rw [← append_assoc, windowOf_concat, hl']
    exact Window.push_of_le (h e mem_concat_self)

/-! ## Logs that obey their window -/

/-- Every epoch of the log is at least the beginning of the window of those before it. -/
def Obeys (l : List Int) : Prop :=
  ∀ pre e post, l = pre ++ e :: post → (windowOf pre).lo ≤ e

namespace Obeys

theorem nil : Obeys [] := fun pre e post h => by
  simp at h

theorem of_append (h : Obeys (l ++ l')) : Obeys l := fun pre e post heq =>
  h pre e (post ++ l') (by rw [heq, append_assoc, cons_append])

theorem of_isPrefix (h : Obeys l') (hpre : l <+: l') : Obeys l := by
  obtain ⟨rest, rfl⟩ := hpre
  exact h.of_append

theorem concat (h : Obeys l) (he : (windowOf l).lo ≤ e) : Obeys (l ++ [e]) := by
  intro pre x post heq
  rcases append_eq_append_iff.1 heq with ⟨as, rfl, hx⟩ | ⟨bs, rfl, hx⟩
  · -- the epoch is the new one
    obtain ⟨rfl, hx⟩ | ⟨as', rfl, -⟩ := cons_eq_append_iff.1 hx
    · rw [append_nil]
      obtain ⟨rfl, -⟩ := cons.inj hx
      exact he
    · simp at hx
  · rcases bs with _ | ⟨b, bs⟩
    · obtain ⟨rfl, -⟩ := cons.inj hx
      rwa [append_nil] at he
    · obtain ⟨rfl, -⟩ := cons.inj hx
      exact h pre x bs rfl

/-- No epoch is before the window of the log that precedes it. -/
theorem lo_le_of_mem (h : Obeys (l ++ l')) : ∀ e ∈ l', (windowOf l).lo ≤ e := by
  intro e he
  obtain ⟨pre, post, rfl⟩ := append_of_mem he
  exact (windowOf_lo_le l pre).trans (h (l ++ pre) e post (append_assoc _ _ _).symm)

end Obeys

/-! ## Running maxima -/

/-- The running maxima of a log, the largest one first. -/
def runningMaxima (l : List Int) : List Int :=
  l.foldl (fun ms e => if ms.all (· < e) then e :: ms else ms) []

/-- The second-largest running maximum, which is the largest one if it is the only one. -/
def secondMaximum (l : List Int) : Option Int :=
  match runningMaxima l with
  | [] => none
  | [m] => some m
  | _ :: m :: _ => some m

theorem runningMaxima_concat (l : List Int) (e : Int) : runningMaxima (l ++ [e]) =
    if (runningMaxima l).all (· < e) then e :: runningMaxima l else runningMaxima l := by
  rw [runningMaxima, foldl_append]
  rfl

theorem runningMaxima_le : ∀ m ∈ runningMaxima l, m ≤ (windowOf l).hi := by
  induction l using reverseRecOn with
  | nil => exact nofun
  | append_singleton l e ih =>
    intro m hm
    rw [windowOf_concat, Window.hi_push]
    rw [runningMaxima_concat] at hm
    split_ifs at hm
    · rcases mem_cons.1 hm with rfl | hm
      · exact le_max_right _ _
      · exact le_max_of_le_left (ih m hm)
    · exact le_max_of_le_left (ih m hm)

theorem all_runningMaxima_lt {e : Int} (hlt : (windowOf l).hi < e) :
    (runningMaxima l).all (· < e) = true :=
  all_eq_true.2 fun m hm => decide_eq_true ((runningMaxima_le m hm).trans_lt hlt)

theorem windowOf_hi_mem_runningMaxima :
    (windowOf l).hi = ClusterEpoch.min ∨ (windowOf l).hi ∈ runningMaxima l := by
  induction l using reverseRecOn with
  | nil => exact .inl rfl
  | append_singleton l e ih =>
    rw [windowOf_concat, runningMaxima_concat]
    rcases lt_or_ge (windowOf l).hi e with hlt | hle
    · rw [Window.push_of_lt hlt, if_pos (all_runningMaxima_lt hlt)]
      exact .inr mem_cons_self
    · rw [Window.push_of_le hle]
      refine ih.imp_right fun hmem => ?_
      split_ifs
      · exact mem_cons_of_mem _ hmem
      · exact hmem

/-- Behind a new maximum, the second one is the largest so far. -/
theorem le_hi_of_mem_secondMaximum {e m : Int} (hall : (runningMaxima l).all (· < e) = true)
    (hm : m ∈ secondMaximum (l ++ [e])) : m ≤ (windowOf l).hi ∨ runningMaxima l = [] ∧ e = m := by
  rw [secondMaximum, runningMaxima_concat, if_pos hall] at hm
  cases hms : runningMaxima l with
  | nil => exact .inr ⟨rfl, by simpa [hms] using hm⟩
  | cons x ms =>
    obtain rfl : x = m := by simpa [hms] using hm
    exact .inl (runningMaxima_le x (hms ▸ mem_cons_self))

/-- The window begins at or above the second-largest running maximum. -/
theorem secondMaximum_le_lo : ∀ m ∈ secondMaximum l, m ≤ (windowOf l).lo := by
  induction l using reverseRecOn with
  | nil => exact fun _ h => absurd h (by simp [secondMaximum, runningMaxima])
  | append_singleton l e ih =>
    intro m hm
    rcases lt_or_ge (windowOf l).hi e with hlt | hle
    · -- the window moves, and begins at the largest maximum so far
      rw [windowOf_concat, Window.push_of_lt hlt]
      dsimp only
      rcases le_hi_of_mem_secondMaximum (all_runningMaxima_lt hlt) hm with hx | ⟨hms, rfl⟩
      · split_ifs
        · exact hx.trans hlt.le
        · exact hx
      · rcases windowOf_hi_mem_runningMaxima (l := l) with hmin | hmem
        · rw [if_pos hmin]
        · rw [hms] at hmem
          cases hmem
    · rw [windowOf_concat, Window.push_of_le hle]
      by_cases hall : (runningMaxima l).all (· < e) = true
      · -- a maximum that is no epoch
        have hmin : (windowOf l).hi = ClusterEpoch.min := by
          rcases windowOf_hi_mem_runningMaxima (l := l) with hmin | hmem
          · exact hmin
          · have := of_decide_eq_true (all_eq_true.1 hall _ hmem)
            omega
        have hlo := hmin.trans_le (min_le_windowOf_lo l)
        rcases le_hi_of_mem_secondMaximum hall hm with hx | ⟨-, rfl⟩
        · exact hx.trans hlo
        · exact hle.trans hlo
      · rw [secondMaximum, runningMaxima_concat, if_neg hall] at hm
        exact ih m hm

end Redpanda.CloudTopics
