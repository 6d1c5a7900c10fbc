/-
# LRU with full frames

However the frames of `LRU` were filled: once the table has `page_frame`
different pages and the stack has the same ones, every further turn keeps this
(`lru_steady`). The stack stays the order of the last uses, the page evicted is
the one at its bottom, and `stack_update` finds every page it is called with.
What is wrong with `LRU` is how the last free frame is taken (`Recency`).
-/
import Mathlib
import LinuxProg.Paging.Residency

namespace LinuxProg
namespace Paging

open Frames

variable {F : ℕ} {s : Lru} {r : ℤ}

/-- The frames are in use, by different pages, and the stack has these. -/
structure Steady (F : ℕ) (s : Lru) : Prop where
  number : F ≤ s.stackNumber
  length : s.page.length = F
  nodup : s.page.Nodup
  perm : s.stack.Perm s.page

/-- The stack that `stack_update` gets in a turn. -/
def stackAtUpdate (F : ℕ) (s : Lru) (r : ℤ) : List ℤ :=
  if find s.page r then s.stack else (pageChange F { s with pageFault := s.pageFault + 1 } r).stack

/-- A turn with full frames, from `s` to `s'`. -/
structure SteadyTurn (F : ℕ) (s : Lru) (r : ℤ) (s' : Lru) : Prop where
  steady : Steady F s'
  nodup : s'.stack.Nodup
  /-- The page is on top of those that stay, which keep their order. -/
  stack : ∃ rest, s'.stack = r :: rest ∧ rest.Sublist s.stack
  hit : r ∈ s.page → s'.page = s.page
  /-- The page at the bottom goes. -/
  fault : r ∉ s.page → ∃ k bottom, s.stack[F - 1]? = some bottom ∧ s.page[k]? = some bottom ∧
    s'.page = s.page.set k r
  /-- `stack_update` is called with the page in the stack. -/
  found : find (stackAtUpdate F s r) r = true

theorem lruTurn_stack (F : ℕ) (s : Lru) (r : ℤ) :
    (lruTurn F s r).stack = stackUpdate F (stackAtUpdate F s r) s.stackNumber r := by
  unfold lruTurn stackAtUpdate
  split
  · rfl
  · unfold pageChange
    split <;> rfl

namespace Steady

theorem stackLength (h : Steady F s) : s.stack.length = F := h.perm.length_eq.trans h.length

theorem mem_stack (h : Steady F s) : r ∈ s.stack ↔ r ∈ s.page := h.perm.mem_iff

theorem stack_nodup (h : Steady F s) : s.stack.Nodup := h.perm.nodup_iff.mpr h.nodup

/-- A hit moves the page to the top. -/
theorem hit (h : Steady F s) (hr : r ∈ s.page) : SteadyTurn F s r (lruTurn F s r) := by
  have hrs : r ∈ s.stack := h.mem_stack.mpr hr
  have hturn : lruTurn F s r = { s with stack := r :: s.stack.erase r } := by
    rw [lruTurn_hit hr, stackUpdate_full h.number hrs]
  have hperm : (r :: s.stack.erase r).Perm s.page :=
    (List.perm_cons_erase hrs).symm.trans h.perm
  rw [hturn]
  refine ⟨⟨h.number, h.length, h.nodup, hperm⟩, hperm.nodup_iff.mpr h.nodup,
    ⟨_, rfl, List.erase_sublist⟩, fun _ => rfl, fun hc => absurd hr hc, ?_⟩
  rw [stackAtUpdate, if_pos (find_iff.mpr hr)]
  exact find_iff.mpr hrs

/-- A fault: the page at the bottom of the stack goes from both. -/
theorem evict (hF : 1 ≤ F) (h : Steady F s) (hr : r ∉ s.page) :
    SteadyTurn F s r (lruTurn F s r) := by
  have hlen : F - 1 < s.stack.length := by
    rw [h.stackLength]
    omega
  have hturn := lruTurn_evict hF hr h.stackLength h.number
  obtain ⟨hbp, hperm⟩ := bottom_replaced hF h.stackLength h.perm r
  set b := s.stack.getD (F - 1) (-1) with hget
  have hb : s.stack[F - 1]? = some b := by
    rw [hget, List.getElem?_eq_getElem hlen, List.getD_eq_getElem _ _ hlen]
  have hcell : s.page[s.page.idxOf b]? = some b := List.getElem?_idxOf hbp
  have hnodup : (r :: s.stack.dropLast).Nodup := by
    rw [List.nodup_cons]
    refine ⟨fun hc => hr (h.mem_stack.mp (List.mem_of_mem_dropLast hc)), ?_⟩
    exact h.stack_nodup.sublist (List.dropLast_sublist _)
  rw [hturn]
  refine ⟨⟨h.number.trans (Nat.le_succ _), List.length_set.trans h.length,
    hperm.nodup_iff.mp hnodup, hperm⟩, hnodup, ⟨_, rfl, List.dropLast_sublist _⟩,
    fun hc => absurd hc hr, fun _ => ⟨_, b, hb, hcell, rfl⟩, ?_⟩
  rw [stackAtUpdate, if_neg (by rwa [find_iff]), pageChange, if_neg (Nat.not_lt.mpr h.number),
    shiftDown_set r _ _ hlen]
  exact find_iff.mpr List.mem_cons_self

/-- **A turn.** -/
theorem turn (hF : 1 ≤ F) (h : Steady F s) (r : ℤ) : SteadyTurn F s r (lruTurn F s r) := by
  by_cases hr : r ∈ s.page
  · exact h.hit hr
  · exact h.evict hF hr

/-- A run. -/
theorem run (hF : 1 ≤ F) (h : Steady F s) (w : List ℤ) : Steady F (w.foldl (lruTurn F) s) := by
  induction w generalizing s with
  | nil => exact h
  | cons r w ih => exact ih (h.turn hF r).steady

end Steady

/-- **LRU with full frames**, after any further references `w`: the next turn. -/
theorem lru_steady (hF : 1 ≤ F) (h : Steady F s) (w : List ℤ) (r : ℤ) :
    SteadyTurn F (w.foldl (lruTurn F) s) r (lruTurn F (w.foldl (lruTurn F) s) r) :=
  (h.run hF w).turn hF r

/-- Two frames with the pages 1 and 2. -/
theorem lru_steady_two : SteadyTurn 2 ([3, 1].foldl (lruTurn 2) ⟨[2, 1], [1, 2], 2, 2⟩) 2
    (lruTurn 2 ([3, 1].foldl (lruTurn 2) ⟨[2, 1], [1, 2], 2, 2⟩) 2) := by
  have h : Steady 2 ⟨[2, 1], [1, 2], 2, 2⟩ :=
    ⟨by decide, rfl, by decide, List.Perm.swap _ _ _⟩
  exact lru_steady (by decide) h [3, 1] 2

/-- Frames that distinct references filled are steady from then on. -/
theorem FillsDistinct.steady {σ w : List ℤ} (hfill : FillsDistinct F σ) (hF : 1 ≤ F)
    (hσ : ∀ r ∈ σ, r ≠ -1) (hw : w <+: σ)
    (hn : F ≤ (w.foldl (lruTurn F) (lruInit F)).stackNumber) :
    Steady F (w.foldl (lruTurn F) (lruInit F)) := by
  obtain ⟨s, -, hrun, hinv, hsingle, -, -⟩ := (lru_serves hF hσ hfill).run hσ w [] (lruInit F) hw
    (lruInv_init hF) (single_replicate _ _)
  rw [foldlM_some, Option.some.injEq] at hrun
  rw [hrun] at hn ⊢
  have hfull : -1 ∉ s.page := hinv.filled.full (hinv.pageLength ▸ hn)
  refine ⟨hn, hinv.pageLength, List.nodup_iff_count_le_one.mpr fun p => ?_, hinv.perm hn⟩
  by_cases hp : p = -1
  · rw [hp, List.count_eq_zero.mpr hfull]
    exact Nat.zero_le 1
  · exact hsingle p hp

end Paging
end LinuxProg
