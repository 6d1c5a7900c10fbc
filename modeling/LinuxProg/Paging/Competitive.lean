/-
# The simulators against the optimum

How far the faults of the on-line simulators can be from those of OPT, on
every file of at most 31 one-digit pages. FIFO with `F` frames has at most `F / (F - h + 1)`
times the faults of OPT with `h ≤ F` frames, up to a constant, so with the
same frames at most `F` times as many; LRU as well, where it is the LRU policy
(`faults_competitive`). OPT never has more faults with more frames, and
neither has LRU (`faults_antitone`); FIFO can.
-/
import Mathlib
import LinuxProg.Lib.Competitive
import LinuxProg.Paging.Optimal
import LinuxProg.Paging.Recency

namespace LinuxProg
namespace Paging

open Belady Policies

variable {elem : ℕ → Option ℤ} {σ : List ℤ} {F h : ℕ}

/-- The fault count of LRU on a file. -/
def lruFaults (file : List ℕ) : Option ℕ :=
  let (frames, buf) := readInput 62 file
  (lru frames.toNat (byteAt buf)).map Lru.pageFault

/-- The strings on which the stack of LRU is the order of the last uses. -/
def LruOrdered (F : ℕ) (σ : List ℤ) : Prop := FillsDistinct F σ ∨ σ.toFinset.card ≤ F

instance (F : ℕ) (σ : List ℤ) : Decidable (LruOrdered F σ) :=
  inferInstanceAs (Decidable (_ ∨ _))

/-! ### The faults of the policies -/

/-- The faults of FIFO are those of the queue. -/
theorem Reads.fifo_misses (hF : 1 ≤ F) (h : Reads elem σ) :
    ∃ s, Paging.fifo F elem = some s ∧ s.pageFault = ((Policies.fifo F).misses [] σ).length := by
  obtain ⟨s, hs, -, -, hfault⟩ := (fifo_simulates hF h.marker).run σ [] (fifoInit F) []
    List.prefix_rfl (fifoSim_init F)
  refine ⟨s, ?_, ?_⟩
  · rw [Paging.fifo, mainLoop_eq elem (fun s r => some (fifoTurn F s r)), h.references]
    exact hs
  · rw [hfault]
    exact Nat.zero_add _

/-- The faults of LRU are those of the pages last used. -/
theorem Reads.lru_misses (hF : 1 ≤ F) (h : Reads elem σ) (hσ : LruOrdered F σ) :
    ∃ s, Paging.lru F elem = some s ∧ s.pageFault = ((Policies.lru F).misses [] σ).length := by
  have hrun : ∃ s, σ.foldlM (fun s r => some (lruTurn F s r)) (lruInit F) = some s ∧
      s.pageFault = (lruInit F).pageFault + ((Policies.lru F).misses [] σ).length := by
    rcases hσ with hfill | hfew
    · obtain ⟨s, hs, -, -, hfault⟩ := (lru_simulates hF h.marker hfill).run σ [] (lruInit F) []
        List.prefix_rfl (lruSim_init hF)
      exact ⟨s, hs, hfault⟩
    · obtain ⟨s, hs, -, -, hfault⟩ := (lru_simulates_few hF h.marker hfew).run σ [] (lruInit F) []
        List.prefix_rfl ⟨loaded_init F, List.take_nil.symm, Nat.zero_le _⟩
      exact ⟨s, hs, hfault⟩
  obtain ⟨s, hs, hfault⟩ := hrun
  refine ⟨s, ?_, ?_⟩
  · rw [Paging.lru, mainLoop_eq elem (fun s r => some (lruTurn F s r)), h.references]
    exact hs
  · rw [hfault]
    exact Nat.zero_add _

/-! ### On a file -/

variable {ds : List (Fin 10)}

theorem frames_inputFile (F : ℕ) (hlen : ds.length ≤ 31) (newline : Bool) :
    (readInput 62 (inputFile F ds newline)).1.toNat = F := by
  rw [readInput_inputFile F newline hlen le_rfl]
  exact Int.toNat_natCast F

theorem optFaults_inputFile (hF : 1 ≤ F) (hlen : ds.length ≤ 31) (newline : Bool) :
    ∃ k, optFaults (inputFile F ds newline) = some k ∧ Farthest F ∅ (pagesOf ds) k := by
  obtain ⟨s, hs, hfar⟩ := (reads_inputFile F newline hlen).opt hF
  refine ⟨s.pageFault, ?_, hfar⟩
  simp only [optFaults, frames_inputFile F hlen newline, hs, Option.map_some]

theorem fifoFaults_inputFile (hF : 1 ≤ F) (hlen : ds.length ≤ 31) (newline : Bool) :
    fifoFaults (inputFile F ds newline) =
      some ((Policies.fifo F).misses [] (pagesOf ds)).length := by
  obtain ⟨s, hs, hfault⟩ := (reads_inputFile F newline hlen).fifo_misses hF
  simp only [fifoFaults, frames_inputFile F hlen newline, hs, Option.map_some, hfault]

theorem lruFaults_inputFile (hF : 1 ≤ F) (hlen : ds.length ≤ 31) (newline : Bool)
    (hσ : LruOrdered F (pagesOf ds)) :
    lruFaults (inputFile F ds newline) =
      some ((Policies.lru F).misses [] (pagesOf ds)).length := by
  obtain ⟨s, hs, hfault⟩ := (reads_inputFile F newline hlen).lru_misses hF hσ
  simp only [lruFaults, frames_inputFile F hlen newline, hs, Option.map_some, hfault]

/-! ### Main results -/

/-- **FIFO and LRU are competitive.** On every line of pages, against OPT with
`h` frames, FIFO with `F` frames has faults `n` with
`(F - h + 1) * n ≤ F * (k + (F - h))`, where `k` are the faults of OPT; so has
LRU, if its stack is the order of the last uses. -/
theorem faults_competitive (F h : ℕ) (hh : 1 ≤ h) (hF : h ≤ F) (ds : List (Fin 10))
    (hlen : ds.length ≤ 31) (newline : Bool) :
    ∃ k n, optFaults (inputFile h ds newline) = some k ∧
      fifoFaults (inputFile F ds newline) = some n ∧ (F - h + 1) * n ≤ F * (k + (F - h)) ∧
      (LruOrdered F (pagesOf ds) → ∃ m, lruFaults (inputFile F ds newline) = some m ∧
        (F - h + 1) * m ≤ F * (k + (F - h))) := by
  have hF1 : 1 ≤ F := hh.trans hF
  obtain ⟨k, hk, hfar⟩ := optFaults_inputFile hh hlen newline
  have hrun := hfar.run
  refine ⟨k, _, hk, fifoFaults_inputFile hF1 hlen newline,
    (conservative_fifo hF1).competitive hF hrun, fun hσ => ?_⟩
  exact ⟨_, lruFaults_inputFile hF1 hlen newline hσ, conservative_lru.competitive hF hrun⟩

/-- Belady's string, four frames against three. -/
theorem faults_competitive_belady : ∃ k n,
    optFaults (inputFile 3 [1, 2, 3, 4, 1, 2, 5, 1, 2, 3, 4, 5] true) = some k ∧
    fifoFaults (inputFile 4 [1, 2, 3, 4, 1, 2, 5, 1, 2, 3, 4, 5] true) = some n ∧
    2 * n ≤ 4 * (k + 1) := by
  obtain ⟨k, n, hk, hn, hle, -⟩ := faults_competitive 4 3 (by decide) (by decide)
    [1, 2, 3, 4, 1, 2, 5, 1, 2, 3, 4, 5] (by decide) true
  exact ⟨k, n, hk, hn, hle⟩

/-- **More frames never cost OPT a fault**, nor LRU, if its stack is the order
of the last uses with both. -/
theorem faults_antitone (F F' : ℕ) (hF : 1 ≤ F) (hle : F ≤ F') (ds : List (Fin 10))
    (hlen : ds.length ≤ 31) (newline : Bool) :
    ∃ k k', optFaults (inputFile F ds newline) = some k ∧
      optFaults (inputFile F' ds newline) = some k' ∧ k' ≤ k ∧
      (LruOrdered F (pagesOf ds) → LruOrdered F' (pagesOf ds) →
        ∃ m m', lruFaults (inputFile F ds newline) = some m ∧
          lruFaults (inputFile F' ds newline) = some m' ∧ m' ≤ m) := by
  have hF' : 1 ≤ F' := hF.trans hle
  obtain ⟨k, hk, hfar⟩ := optFaults_inputFile hF hlen newline
  obtain ⟨k', hk', hfar'⟩ := optFaults_inputFile hF' hlen newline
  obtain ⟨n, hn, hrun⟩ := hfar.run.mono hle (Finset.Subset.refl ∅) (Nat.zero_le F')
  refine ⟨k, k', hk, hk', (farthest_le_run hfar' (Nat.zero_le F') hrun).trans hn,
    fun hσ hσ' => ?_⟩
  exact ⟨_, _, lruFaults_inputFile hF hlen newline hσ, lruFaults_inputFile hF' hlen newline hσ',
    (misses_lru_sublist hle _).length_le⟩

theorem faults_antitone_belady : ∃ m m',
    lruFaults (inputFile 3 [1, 2, 3, 4, 1, 2, 5, 1, 2, 3, 4, 5] true) = some m ∧
    lruFaults (inputFile 4 [1, 2, 3, 4, 1, 2, 5, 1, 2, 3, 4, 5] true) = some m' ∧ m' ≤ m := by
  obtain ⟨-, -, -, -, -, hlru⟩ := faults_antitone 3 4 (by decide) (by decide)
    [1, 2, 3, 4, 1, 2, 5, 1, 2, 3, 4, 5] (by decide) true
  exact hlru (by decide) (by decide)

-- Belady's anomaly of FIFO
example : fifoFaults (inputFile 3 [1, 2, 3, 4, 1, 2, 5, 1, 2, 3, 4, 5] true) = some 9 ∧
    fifoFaults (inputFile 4 [1, 2, 3, 4, 1, 2, 5, 1, 2, 3, 4, 5] true) = some 10 := by
  rw [fifoFaults_inputFile (by decide) (by decide), fifoFaults_inputFile (by decide) (by decide)]
  decide

end Paging
end LinuxProg
