/-
# The table of distances of OPT

At the hit test of every turn the table `arr` of `OPT` says how far away the
next uses are: an entry is positive exactly at the last use of each page in a
frame other than the one that is referenced now, and then it is the number of
turns to the next use of that page, or to the end of the string
(`opt_distances`). This is the invariant `OptInv` of `Optimal`, told by the
places in the reference string.
-/
import Mathlib
import LinuxProg.Paging.Optimal

namespace LinuxProg
namespace Paging

variable {F t : ℕ} {elem : ℕ → Option ℤ} {σ w ρ : List ℤ} {r : ℤ} {s : Opt}

/-- `OPT` before turn `t`. -/
def optBefore (F : ℕ) (elem : ℕ → Option ℤ) (t : ℕ) : Option Opt := do
  let arr ← initDistances elem
  mainLoop elem (optTurn F elem elem) (slots.take t) ⟨List.replicate F (-1), 0, 0, arr⟩

/-- `arr` at the hit test of turn `t`. -/
def arrAtTest (elem : ℕ → Option ℤ) (t : ℕ) (s : Opt) : Option (List ℤ) :=
  (dropRepeated elem (2 * t) s.arr).map (countDown (2 * t))

/-- The next use of `q` after reference `j`, or the end of the string. -/
def next (σ : List ℤ) (j : ℕ) (q : ℤ) : ℕ := j + 1 + (σ.drop (j + 1)).idxOf q

/-- `q`, the page of reference `j`, is not used again before reference `t`. -/
def LastBefore (σ : List ℤ) (t j : ℕ) (q : ℤ) : Prop := q ∉ (σ.drop (j + 1)).take (t - (j + 1))

/-- The first `n` turns from now on. -/
theorem mainLoop_take (hF : 1 ≤ F) : ∀ (n : ℕ) (ρ w : List ℤ) (s : Opt), n ≤ ρ.length →
    Reads elem (w ++ ρ) → OptInv F w ρ s →
    ∃ s', mainLoop elem (optTurn F elem elem) ((slots.drop w.length).take n) s = some s' ∧
      OptInv F (w ++ ρ.take n) (ρ.drop n) s'
  | 0, ρ, w, s, _, _, hi => ⟨s, by rw [List.take_zero]; rfl, by simpa using hi⟩
  | n + 1, r :: ρ, w, s, hn, h, hi => by
    obtain ⟨s1, hturn, hi1, -⟩ := optTurn_step hF h hi
    have h' : Reads elem ((w ++ [r]) ++ ρ) := by rwa [List.append_assoc, List.singleton_append]
    obtain ⟨s', hloop, hi'⟩ := mainLoop_take hF n ρ (w ++ [r]) s1 (by simpa using hn) h' hi1
    rw [List.length_append, List.length_singleton] at hloop
    rw [List.append_assoc, List.singleton_append] at hi'
    refine ⟨s', ?_, hi'⟩
    rw [slots_drop h.length_lt, List.take_succ_cons, h.mainLoop_cons hturn]
    exact hloop

theorem optBefore_inv (hF : 1 ≤ F) (h : Reads elem σ) (ht : t ≤ σ.length) :
    ∃ s, optBefore F elem t = some s ∧ OptInv F (σ.take t) (σ.drop t) s := by
  obtain ⟨arr, harr, hi⟩ := h.optInv_init F
  obtain ⟨s, hs, hi'⟩ := mainLoop_take hF t σ [] _ ht h hi
  rw [List.length_nil, List.drop_zero] at hs
  refine ⟨s, ?_, hi'⟩
  rw [optBefore, harr]
  exact hs

/-- The string around references `j` and `t`. -/
theorem split_at {j : ℕ} {q : ℤ} (hjt : j < t) (hq : σ[j]? = some q) (hr : σ[t]? = some r) :
    σ.take t = σ.take j ++ q :: (σ.drop (j + 1)).take (t - (j + 1)) ∧
      σ.drop (j + 1) = (σ.drop (j + 1)).take (t - (j + 1)) ++ r :: σ.drop (t + 1) := by
  obtain ⟨hj, rfl⟩ := List.getElem?_eq_some_iff.mp hq
  obtain ⟨ht, rfl⟩ := List.getElem?_eq_some_iff.mp hr
  have hdrop : σ.drop t = σ[t] :: σ.drop (t + 1) := List.drop_eq_getElem_cons ht
  constructor
  · obtain ⟨n, rfl⟩ := Nat.exists_eq_add_of_lt hjt
    rw [show j + n + 1 - (j + 1) = n by omega, Nat.add_assoc, List.take_add,
      List.drop_eq_getElem_cons hj, List.take_succ_cons]
  · calc σ.drop (j + 1) = (σ.drop (j + 1)).take (t - (j + 1)) ++
          (σ.drop (j + 1)).drop (t - (j + 1)) := (List.take_append_drop _ _).symm
      _ = (σ.drop (j + 1)).take (t - (j + 1)) ++ σ[t] :: σ.drop (t + 1) := by
        rw [List.drop_drop, show j + 1 + (t - (j + 1)) = t by omega, hdrop]

/-- The next use of a page that is used neither between `j` and `t` nor at `t`. -/
theorem next_eq {j : ℕ} {q p : ℤ} (hjt : j < t) (hq : σ[j]? = some q) (hr : σ[t]? = some r)
    (hlast : LastBefore σ t j p) (hne : p ≠ r) : next σ j p = next σ t p := by
  obtain ⟨-, hdrop⟩ := split_at hjt hq hr
  have ht := (List.getElem?_eq_some_iff.mp hr).1
  have hlen : ((σ.drop (j + 1)).take (t - (j + 1))).length = t - (j + 1) := by
    rw [List.length_take_of_le]
    rw [List.length_drop]
    omega
  unfold next
  rw [hdrop, List.idxOf_append_of_notMem hlast, hlen, List.idxOf_cons_ne _ (Ne.symm hne)]
  omega

/-- **The table of OPT is exact**, and the page it evicts is one whose next use
is farthest. -/
theorem opt_distances (hF : 1 ≤ F) (h : Reads elem σ) (hr : σ[t]? = some r) :
    ∃ s arr, optBefore F elem t = some s ∧ arrAtTest elem t s = some arr ∧
      (∀ j q, j < t → σ[j]? = some q →
        (LastBefore σ t j q ∧ q ∈ s.vector ∧ q ≠ r →
          arr[j]? = some (next σ j q - t : ℤ) ∧ t + 1 ≤ next σ j q) ∧
        (¬ (LastBefore σ t j q ∧ q ∈ s.vector ∧ q ≠ r) → arr[j]? = some (-1))) ∧
      (r ∉ s.vector → F ≤ s.vectorNumber → ∃ k g s',
        vectorUpdate F elem ⟨s.vector, s.vectorNumber, s.pageFault + 1, arr⟩ (2 * t) = some s' ∧
        optTurn F elem elem s (2 * t) r = some { s' with vectorNumber := s'.vectorNumber + 1 } ∧
        s.vector[k]? = some g ∧ g ≠ -1 ∧ s'.vector = s.vector.set k r ∧
        ∀ p ∈ s.vector, next σ t p ≤ next σ t g) := by
  obtain ⟨ht, hrt⟩ := List.getElem?_eq_some_iff.mp hr
  have hlen : (σ.take t).length = t := List.length_take_of_le ht.le
  have hdrop : σ.drop t = r :: σ.drop (t + 1) := by rw [List.drop_eq_getElem_cons ht, hrt]
  have hreads : Reads elem (σ.take t ++ r :: σ.drop (t + 1)) := by
    rwa [← hdrop, List.take_append_drop]
  obtain ⟨s, hs, hi⟩ := optBefore_inv hF h ht.le
  rw [hdrop] at hi
  obtain ⟨arr1, hdrop1, htest⟩ := hi.exact.atTest hreads
  rw [hlen] at hdrop1 htest
  have harr : arrAtTest elem t s = some (countDown (2 * t) arr1) := by
    rw [arrAtTest, hdrop1, Option.map_some]
  refine ⟨s, _, hs, harr, fun j q hjt hq => ?_, fun hmem hfull => ?_⟩
  · obtain ⟨htake, -⟩ := split_at hjt hq hr
    have hjlen : (σ.take j).length = j := List.length_take_of_le (by omega)
    have hentry := htest.past _ _ _ htake
    rw [hjlen] at hentry
    have hcond : (q ∉ (σ.drop (j + 1)).take (t - (j + 1)) ++ [r] ∧ q ∈ s.vector) ↔
        LastBefore σ t j q ∧ q ∈ s.vector ∧ q ≠ r := by
      rw [List.mem_append, List.mem_singleton, not_or, LastBefore]
      tauto
    rw [hentry]
    constructor
    · intro hc
      have hnext := next_eq hjt hq hr hc.1 hc.2.2
      rw [if_pos (hcond.mpr hc), hnext, nextUse, next]
      refine ⟨?_, by omega⟩
      congr 1
      push_cast
      ring
    · exact fun hc => by rw [if_neg fun hc' => hc (hcond.mp hc')]
  · obtain ⟨a, g, b, -, -, hgv, hfar, hupdate⟩ :=
      hi.vectorUpdate_full hF hreads htest hmem hfull (s.pageFault + 1)
    rw [hlen] at hupdate
    have hnone : -1 ∉ s.vector := hi.filled.full (by rw [hi.length]; exact hfull)
    refine ⟨s.vector.idxOf g, g, _, hupdate, ?_, List.getElem?_idxOf hgv, fun hc => hnone (hc ▸ hgv),
      rfl, fun p hp => ?_⟩
    · unfold optTurn
      simp only [hdrop1, Option.bind_eq_bind, Option.bind_some, find_iff, if_neg hmem, hupdate]
    · have := hfar p hp
      unfold next
      omega

/-- Belady's string on three frames, at the reference that evicts first: the next one
is to page 1. -/
theorem opt_distances_belady : ∃ s arr,
    optBefore 3 (byteAt (readInput 62 (inputFile 3 [1, 2, 3, 4, 1, 2, 5] true)).2) 3 = some s ∧
    arrAtTest (byteAt (readInput 62 (inputFile 3 [1, 2, 3, 4, 1, 2, 5] true)).2) 3 s = some arr ∧
    (1 ∈ s.vector → arr[0]? = some 1) ∧ (1 ∉ s.vector → arr[0]? = some (-1)) := by
  obtain ⟨s, arr, hs, harr, h, -⟩ := opt_distances (F := 3) (t := 3) (r := 4) (by decide)
    (@reads_inputFile 3 [1, 2, 3, 4, 1, 2, 5] true (by decide)) rfl
  have hlast : LastBefore (pagesOf [1, 2, 3, 4, 1, 2, 5]) 3 0 1 := by
    unfold LastBefore
    decide
  obtain ⟨hin, hout⟩ := h 0 1 (by decide) rfl
  refine ⟨s, arr, hs, harr, fun hv => ?_, fun hv => hout fun hc => hv hc.2.1⟩
  exact (hin ⟨hlast, hv, by decide⟩).1

end Paging
end LinuxProg
