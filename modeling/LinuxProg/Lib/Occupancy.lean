/-
# Stays

Places are held by one holder each and handed over now and then. A history of
handovers, the last one first, determines who holds a place (`holder`) and
since when (`since`), and the stays that are over (`stays`). The time of the
stays of a holder (`stayed`) and of the stays at a place (`busy`) count the
same stays, so summed over all holders and over all places they agree
(`sum_stayed_eq_sum_busy`).
-/
import Mathlib

namespace LinuxProg
namespace Occupancy

variable {R T : Type*}

/-- `place` goes to `next` at `time`. -/
structure Handover (R T : Type*) where
  place : R
  next : T
  time : ℕ

/-- A stay that is over. -/
structure Stay (R T : Type*) where
  holder : T
  place : R
  arrived : ℕ
  departed : ℕ

def Stay.length (s : Stay R T) : ℕ := s.departed - s.arrived

section

variable [DecidableEq R]

/-- Who holds a place, when `first` hold the places at the beginning. -/
def holder (first : R → T) : List (Handover R T) → R → T
  | [], r => first r
  | h :: hs, r => if r = h.place then h.next else holder first hs r

/-- The time of the last handover of a place. -/
def since : List (Handover R T) → R → ℕ
  | [], _ => 0
  | h :: hs, r => if r = h.place then h.time else since hs r

def stays (first : R → T) : List (Handover R T) → List (Stay R T)
  | [] => []
  | h :: hs => ⟨holder first hs h.place, h.place, since hs h.place, h.time⟩ :: stays first hs

end

section

variable [DecidableEq T]

/-- The time `t` has held places, over all its stays. -/
def stayed (l : List (Stay R T)) (t : T) : ℕ :=
  ((l.filter fun s => s.holder = t).map Stay.length).sum

@[simp]
theorem stayed_nil (t : T) : stayed ([] : List (Stay R T)) t = 0 := rfl

theorem stayed_cons (s : Stay R T) (l : List (Stay R T)) (t : T) :
    stayed (s :: l) t = (if s.holder = t then s.length else 0) + stayed l t := by
  unfold stayed
  by_cases h : s.holder = t
  · rw [List.filter_cons_of_pos (by simpa using h), List.map_cons, List.sum_cons, if_pos h]
  · rw [List.filter_cons_of_neg (by simpa using h), if_neg h, Nat.zero_add]

/-- Who never stayed has no time. -/
theorem stayed_eq_zero {l : List (Stay R T)} {t : T} (h : ∀ s ∈ l, s.holder ≠ t) :
    stayed l t = 0 := by
  unfold stayed
  rw [List.filter_eq_nil_iff.mpr fun s hs => by simpa using h s hs]
  rfl

end

variable [DecidableEq R] [DecidableEq T]

/-- The time `r` has been held by others than `first r`. -/
def busy (first : R → T) (l : List (Stay R T)) (r : R) : ℕ :=
  ((l.filter fun s => s.place = r ∧ s.holder ≠ first s.place).map Stay.length).sum

@[simp]
theorem busy_nil (first : R → T) (r : R) : busy first [] r = 0 := rfl

theorem busy_cons (first : R → T) (s : Stay R T) (l : List (Stay R T)) (r : R) :
    busy first (s :: l) r =
      (if s.place = r ∧ s.holder ≠ first s.place then s.length else 0) + busy first l r := by
  unfold busy
  by_cases h : s.place = r ∧ s.holder ≠ first s.place
  · rw [List.filter_cons_of_pos (by simpa using h), List.map_cons, List.sum_cons, if_pos h]
  · rw [List.filter_cons_of_neg (by simpa using h), if_neg h, Nat.zero_add]

/-- Every stay is counted once for its holder and once for its place. -/
theorem sum_stayed_eq_sum_busy [Fintype R] (first : R → T) (S : Finset T) :
    ∀ l : List (Stay R T), (∀ s ∈ l, s.holder ∈ S ↔ s.holder ≠ first s.place) →
      ∑ t ∈ S, stayed l t = ∑ r, busy first l r
  | [], _ => by simp
  | s :: l, h => by
    have ih := sum_stayed_eq_sum_busy first S l fun x hx => h x (List.mem_cons_of_mem _ hx)
    have hs := h s List.mem_cons_self
    simp only [stayed_cons, busy_cons, Finset.sum_add_distrib, ih, Nat.add_right_cancel_iff]
    rw [Finset.sum_ite_eq S s.holder]
    by_cases hf : s.holder = first s.place
    · rw [if_neg fun hm => hs.mp hm hf]
      simp [hf]
    · rw [if_pos (hs.mpr hf)]
      simp [hf]

end Occupancy
end LinuxProg
