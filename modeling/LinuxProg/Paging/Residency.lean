/-
# Residency

Right after a reference its page is stored in exactly one slot, and no page
occupies two. FIFO and SCR keep this on every reference string: their frames
fill in order and a fault stores its page in one slot (`fifo_serves`,
`scr_serves`).

LRU keeps it as long as its stack is a rearrangement of its page table. That
is so from the moment the frames are full, if the last `page_frame` references
are then pairwise distinct (`lru_serves`). While frames are free
`stack_update` pushes every reference, hits included, so the stack then is the
last `page_frame` references (`LruInv`); if one of them occurs twice, a page of
the table is missing from the stack, and `page_frame` new pages find a bottom
of the stack that is no longer in the table (`nodup_of_resident`). As long as no
more than `page_frame` pages are named nothing is replaced and the stack does not
matter (`lru_serves_few`).
-/
import Mathlib
import LinuxProg.Lib.Frames
import LinuxProg.Paging.Simulators

namespace LinuxProg
namespace Paging

open Frames

/-- The frame table after a reference string. -/
def fifoTable (F : ℕ) (σ : List ℤ) : Option (List ℤ) :=
  some (σ.foldl (fifoTurn F) (fifoInit F)).queue

def lruTable (F : ℕ) (σ : List ℤ) : Option (List ℤ) :=
  some (σ.foldl (lruTurn F) (lruInit F)).page

def scrTable (F : ℕ) (σ : List ℤ) : Option (List ℤ) :=
  (σ.foldlM (scrTurn F) (scrInit F)).map Scr.queue

/-- After every reference its page is in exactly one slot of the table, and no
page is in two. -/
def Resident (table : List ℤ → Option (List ℤ)) (σ : List ℤ) : Prop :=
  ∀ w r, w ++ [r] <+: σ →
    ∃ q, table (w ++ [r]) = some q ∧ q.count r = 1 ∧ ∀ p, p ≠ -1 → q.count p ≤ 1

/-- When the references have named `F` pages for the first time, the last `F`
of them are pairwise distinct. -/
def FillsDistinct (F : ℕ) (σ : List ℤ) : Prop :=
  ∀ t < σ.length, σ.getD t 0 ∉ σ.take t → (σ.take (t + 1)).toFinset.card = F →
    ((σ.take (t + 1)).reverse.take F).Nodup

instance (F : ℕ) (σ : List ℤ) : Decidable (FillsDistinct F σ) :=
  inferInstanceAs (Decidable (∀ t < σ.length, _))

/-! ### FIFO -/

structure FifoInv (F : ℕ) (s : Fifo) : Prop where
  length : s.queue.length = F
  cursor : s.queueNumber < F
  filled : Filled (-1) s.queue s.queueNumber ∨ -1 ∉ s.queue

theorem fifoInv_init {F : ℕ} (hF : 1 ≤ F) : FifoInv F (fifoInit F) :=
  ⟨List.length_replicate, hF, Or.inl (filled_replicate _ _)⟩

/-- The cursor goes round: past the last slot the table is full. -/
theorem filled_wrap {F n : ℕ} {q : List ℤ} (hlen : q.length = F) (hn : n < F)
    (h : Filled (-1) q (n + 1)) : Filled (-1) q ((n + 1) % F) ∨ -1 ∉ q := by
  rcases Nat.lt_or_ge (n + 1) F with hlt | hge
  · rw [Nat.mod_eq_of_lt hlt]
    exact Or.inl h
  · exact Or.inr (h.full (by omega))

theorem fifoTurn_step {F : ℕ} {s : Fifo} {r : ℤ} (h : FifoInv F s) (hr : r ≠ -1) :
    FifoInv F (fifoTurn F s r) ∧ ∃ d, (fifoTurn F s r).pageFault = s.pageFault + d ∧
      Step (-1) s.queue r (fifoTurn F s r).queue d := by
  unfold fifoTurn
  split
  · rename_i hfind
    exact ⟨h, 0, rfl, .hit (find_iff.mp hfind)⟩
  · rename_i hfind
    rw [find_iff] at hfind
    have hlt : s.queueNumber < s.queue.length := h.length ▸ h.cursor
    have hcur : (s.queueNumber + 1) % F < F := Nat.mod_lt _ (by have := h.cursor; omega)
    have hlen : (s.queue.set s.queueNumber r).length = F := by
      rw [List.length_set, h.length]
    simp only [queuePush]
    rcases h.filled with hfill | hfull
    · refine ⟨⟨hlen, hcur, filled_wrap hlen h.cursor (hfill.set hlt hr)⟩, 1, rfl, ?_⟩
      exact .load hfind (hfill.getElem? hlt)
    · refine ⟨⟨hlen, hcur, Or.inr (notMem_set hfull hr)⟩, 1, rfl, ?_⟩
      exact .evict hfind hfull hlt

theorem fifo_serves (F : ℕ) {σ : List ℤ} (hσ : ∀ r ∈ σ, r ≠ -1) :
    Serves (-1) (fun s r => some (fifoTurn F s r)) Fifo.queue Fifo.pageFault
      (fun _ => FifoInv F) σ := by
  intro w r s hw hi _
  obtain ⟨hi', d, hd, hstep⟩ := fifoTurn_step hi (hσ r (hw.subset (by simp)))
  exact ⟨_, d, rfl, hi', hd, hstep⟩

theorem fifo_resident {F : ℕ} (hF : 1 ≤ F) {σ : List ℤ} (hσ : ∀ r ∈ σ, r ≠ -1) :
    Resident (fifoTable F) σ := by
  intro w r hw
  obtain ⟨s, hs, hc, hsing⟩ := (fifo_serves F hσ).count_self hσ (fifoInv_init hF)
    (single_replicate _ _) hw
  rw [foldlM_some] at hs
  exact ⟨s.queue, by rw [fifoTable, Option.some.inj hs], hc, hsing⟩

/-! ### SCR -/

structure ScrInv (F : ℕ) (s : Scr) : Prop where
  length : s.queue.length = F
  bits : s.pageBit.length = F
  filled : Filled (-1) s.queue s.queueNumber

theorem scrInv_init (F : ℕ) : ScrInv F (scrInit F) :=
  ⟨List.length_replicate, List.length_replicate, filled_replicate _ _⟩

/-- The scan stops at a clear bit. -/
theorem chance_stop {F fuel : ℕ} {bits : List ℤ} {n : ℕ} (h : bits.getD (n % F) 0 = 0)
    (hfuel : 0 < fuel) : chance F fuel bits n = some (bits, n) := by
  obtain ⟨fuel, rfl⟩ := Nat.exists_eq_add_of_le' hfuel
  rw [chance, if_pos h]

/-- The scan ends after as many turns as there were bits set, at most: each
clears one. -/
theorem chance_ends {F : ℕ} (hF : 1 ≤ F) : ∀ (c : ℕ) (bits : List ℤ) (n : ℕ), bits.length = F →
    bits.countP (fun b => b ≠ 0) = c →
    ∃ k bits', k ≤ c ∧ bits'.length = F ∧
      ∀ fuel, k < fuel → chance F fuel bits n = some (bits', n + k) := by
  intro c
  induction c with
  | zero =>
    intro bits n hlen hc
    have hlt : n % F < bits.length := by
      rw [hlen]
      exact Nat.mod_lt n hF
    have hzero : bits.getD (n % F) 0 = 0 := by
      rw [List.getD_eq_getElem _ _ hlt]
      simpa using List.countP_eq_zero.mp hc _ (List.getElem_mem hlt)
    exact ⟨0, bits, le_rfl, hlen, fun fuel hfuel => chance_stop hzero hfuel⟩
  | succ c ih =>
    intro bits n hlen hc
    have hlt : n % F < bits.length := by
      rw [hlen]
      exact Nat.mod_lt n hF
    by_cases hzero : bits.getD (n % F) 0 = 0
    · exact ⟨0, bits, Nat.zero_le _, hlen, fun fuel hfuel => chance_stop hzero hfuel⟩
    · have hcount : (bits.set (n % F) 0).countP (fun b => b ≠ 0) = c := by
        rw [List.getD_eq_getElem _ _ hlt] at hzero
        rw [List.countP_set hlt, if_pos (by simpa using hzero), if_neg (by simp)]
        omega
      obtain ⟨k, bits', hk, hlen', hends⟩ := ih (bits.set (n % F) 0) (n + 1)
        (List.length_set.trans hlen) hcount
      refine ⟨k + 1, bits', by omega, hlen', fun fuel hfuel => ?_⟩
      obtain ⟨fuel, rfl⟩ : ∃ f, fuel = f + 1 := ⟨fuel - 1, by omega⟩
      rw [chance, if_neg hzero, hends fuel (by omega)]
      congr 2
      omega

/-- A scan of the whole table clears `page_frame` bits at most. -/
theorem ScrInv.scan {F : ℕ} {s : Scr} (hF : 1 ≤ F) (h : ScrInv F s) :
    ∃ k bits, k ≤ F ∧ bits.length = F ∧ ∀ fuel, k < fuel →
      chance F fuel s.pageBit s.queueNumber = some (bits, s.queueNumber + k) := by
  obtain ⟨k, bits, hk, hlen, hends⟩ := chance_ends hF _ s.pageBit s.queueNumber h.bits rfl
  exact ⟨k, bits, hk.trans (h.bits ▸ List.countP_le_length), hlen, hends⟩

theorem scrTurn_step {F : ℕ} (hF : 1 ≤ F) {s : Scr} {r : ℤ} (h : ScrInv F s) (hr : r ≠ -1) :
    ∃ s' d, scrTurn F s r = some s' ∧ ScrInv F s' ∧ s'.pageFault = s.pageFault + d ∧
      Step (-1) s.queue r s'.queue d := by
  unfold scrTurn
  split
  · rename_i hfind
    refine ⟨_, 0, rfl, ⟨h.length, ?_, h.filled⟩, rfl, .hit (find_iff.mp hfind)⟩
    rw [pagebitChange, List.length_set, h.bits]
  · rename_i hfind
    rw [find_iff] at hfind
    unfold queuePagebitChange
    split
    · rename_i hlt
      have hlt : s.queueNumber < s.queue.length := h.length ▸ hlt
      refine ⟨_, 1, rfl, ⟨?_, ?_, h.filled.set hlt hr⟩, rfl, .load hfind (h.filled.getElem? hlt)⟩
      · exact List.length_set.trans h.length
      · exact List.length_set.trans h.bits
    · rename_i hge
      have hfull : -1 ∉ s.queue := h.filled.full (h.length ▸ Nat.le_of_not_lt hge)
      obtain ⟨k, bits, hk, hb, hends⟩ := h.scan hF
      have hlt : (s.queueNumber + k) % F < s.queue.length := by
        rw [h.length]
        exact Nat.mod_lt _ hF
      simp only [Option.bind_eq_bind, hends _ (Nat.lt_succ_of_le hk), Option.bind_some]
      refine ⟨_, 1, rfl, ⟨List.length_set.trans h.length, hb, ?_⟩, rfl, .evict hfind hfull hlt⟩
      apply filled_of_full (notMem_set hfull hr)
      rw [List.length_set, h.length]
      exact (Nat.le_of_not_lt hge).trans (Nat.le_add_right _ (k + 1))

theorem scr_serves {F : ℕ} (hF : 1 ≤ F) {σ : List ℤ} (hσ : ∀ r ∈ σ, r ≠ -1) :
    Serves (-1) (scrTurn F) Scr.queue Scr.pageFault (fun _ => ScrInv F) σ := by
  intro w r s hw hi _
  exact scrTurn_step hF hi (hσ r (hw.subset (by simp)))

theorem scr_resident {F : ℕ} (hF : 1 ≤ F) {σ : List ℤ} (hσ : ∀ r ∈ σ, r ≠ -1) :
    Resident (scrTable F) σ := by
  intro w r hw
  obtain ⟨s, hs, hc, hsing⟩ := (scr_serves hF hσ).count_self hσ (scrInv_init F)
    (single_replicate _ _) hw
  exact ⟨s.queue, by rw [scrTable, hs]; rfl, hc, hsing⟩

/-! ### LRU: the stack -/

/-- Shifting down to slot `k` and storing at the top moves slot `k` out. -/
theorem shiftDown_set (r : ℤ) : ∀ (k : ℕ) (stack : List ℤ), k < stack.length →
    (shiftDown stack k).set 0 r = r :: stack.eraseIdx k
  | 0, stack, h => by
    cases stack with
    | nil => exact absurd h (Nat.not_lt_zero 0)
    | cons x stack => rfl
  | k + 1, stack, h => by
    rw [shiftDown, shiftDown_set r k _ (by rw [List.length_set]; omega)]
    congr 1
    rw [List.getD_eq_getElem _ _ (by omega : k < stack.length)]
    apply List.ext_getElem?
    intro i
    simp only [List.getElem?_eraseIdx, List.getElem?_set]
    split
    · rename_i hik
      rw [if_neg (by omega : ¬ k + 1 = i), if_pos (by omega : i < k + 1)]
    · rename_i hik
      by_cases hik' : i = k
      · subst hik'
        rw [if_pos rfl, if_pos (Nat.lt_succ_self i), List.getElem?_eq_getElem (by omega)]
      · rw [if_neg (by omega : ¬ k + 1 = i + 1), if_neg (by omega : ¬ i < k + 1)]

theorem stackUpdate_free {F n : ℕ} {stack : List ℤ} (hlen : stack.length = F) (hn : n < F)
    (r : ℤ) : stackUpdate F stack n r = r :: stack.eraseIdx n := by
  rw [stackUpdate, if_pos hn, shiftDown_set r n stack (hlen ▸ hn)]

theorem stackUpdate_full {F n : ℕ} {stack : List ℤ} (hn : F ≤ n) {r : ℤ} (hr : r ∈ stack) :
    stackUpdate F stack n r = r :: stack.erase r := by
  have hlt : stack.idxOf r < stack.length := List.idxOf_lt_length_iff.mpr hr
  rw [stackUpdate, if_neg (by omega), if_pos (find_iff.mpr hr)]
  simp only [List.getD_eq_getElem _ _ hlt, List.getElem_idxOf]
  rw [shiftDown_set r _ stack hlt, List.erase_eq_eraseIdx_of_idxOf rfl]

/-! ### LRU: what a turn does -/

variable {F : ℕ} {w : List ℤ} {s : Lru} {r : ℤ}

theorem lruTurn_hit (hr : r ∈ s.page) :
    lruTurn F s r = { s with stack := stackUpdate F s.stack s.stackNumber r } := by
  rw [lruTurn, if_pos (find_iff.mpr hr)]

/-- A fault with a free frame. -/
theorem lruTurn_load (hr : r ∉ s.page) (hlen : s.stack.length = F) (hn : s.stackNumber < F) :
    lruTurn F s r = ⟨r :: s.stack.eraseIdx s.stackNumber, s.page.set s.stackNumber r,
      s.stackNumber + 1, s.pageFault + 1⟩ := by
  rw [lruTurn, if_neg (by rwa [find_iff])]
  simp only [pageChange, if_pos hn, stackUpdate_free hlen hn]

/-- A fault with all frames in use: the page at the bottom of the stack is
searched in the table. -/
theorem lruTurn_evict (hF : 1 ≤ F) (hr : r ∉ s.page) (hlen : s.stack.length = F)
    (hn : F ≤ s.stackNumber) :
    lruTurn F s r = ⟨r :: s.stack.dropLast,
      s.page.set (s.page.idxOf (s.stack.getD (F - 1) (-1))) r, s.stackNumber + 1,
      s.pageFault + 1⟩ := by
  rw [lruTurn, if_neg (by rwa [find_iff])]
  simp only [pageChange, if_neg (Nat.not_lt.mpr hn)]
  rw [shiftDown_set r _ s.stack (by omega), stackUpdate_full hn List.mem_cons_self,
    List.erase_cons_head, ← hlen, List.eraseIdx_length_sub_one]

/-! ### LRU: the stack against the table -/

/-- What LRU keeps of the references `w`: while frames are free, the table
holds their pages and the top of the stack is the last of them; then the stack
is a rearrangement of the table. -/
structure LruInv (F : ℕ) (w : List ℤ) (s : Lru) : Prop where
  stackLength : s.stack.length = F
  pageLength : s.page.length = F
  filled : Filled (-1) s.page s.stackNumber
  card : s.stackNumber < F → w.toFinset.card = s.stackNumber
  mem : s.stackNumber < F → ∀ p, p ≠ -1 → (p ∈ w ↔ p ∈ s.page)
  top : s.stackNumber < F → s.stack.take s.stackNumber = w.reverse.take s.stackNumber
  perm : F ≤ s.stackNumber → s.stack.Perm s.page
  full : F ≤ s.stackNumber → F ≤ w.toFinset.card

theorem lruInv_init (hF : 1 ≤ F) : LruInv F [] (lruInit F) where
  stackLength := List.length_replicate
  pageLength := List.length_replicate
  filled := filled_replicate _ _
  card _ := rfl
  mem _ p hp := by
    rw [lruInit, List.mem_replicate]
    exact ⟨fun h => absurd h List.not_mem_nil, fun h => absurd h.2 hp⟩
  top _ := rfl
  perm h := absurd hF (Nat.not_le.mpr (Nat.lt_succ_of_le h))
  full h := h

theorem FillsDistinct.nodup {σ : List ℤ} (h : FillsDistinct F σ) (hw : w ++ [r] <+: σ)
    (hr : r ∉ w) (hcard : (w ++ [r]).toFinset.card = F) :
    ((w ++ [r]).reverse.take F).Nodup := by
  obtain ⟨τ, rfl⟩ := hw
  have htake : (w ++ [r] ++ τ).take (w.length + 1) = w ++ [r] := by
    rw [List.take_append_of_le_length (by simp), List.take_of_length_le (by simp)]
  have := h w.length (by simp)
  rw [htake] at this
  apply this _ hcard
  simpa using hr

/-- The top of the stack after a push while frames are free. -/
theorem take_push {n : ℕ} {stack w : List ℤ} (h : stack.take n = w.reverse.take n) (r : ℤ) :
    (r :: stack.eraseIdx n).take (n + 1) = (w ++ [r]).reverse.take (n + 1) := by
  rw [List.reverse_append, List.reverse_singleton, List.singleton_append, List.take_succ_cons,
    List.take_succ_cons, ← h, List.take_eraseIdx_eq_take_of_le _ _ _ le_rfl]

theorem toFinset_snoc (w : List ℤ) (r : ℤ) : (w ++ [r]).toFinset = insert r w.toFinset := by
  ext p
  simp

theorem card_le_snoc (w : List ℤ) (r : ℤ) : w.toFinset.card ≤ (w ++ [r]).toFinset.card := by
  rw [toFinset_snoc]
  exact Finset.card_le_card (Finset.subset_insert r _)

theorem lruInv_hit_free (h : LruInv F w s) (hn : s.stackNumber < F) (hr : r ≠ -1)
    (hmem : r ∈ s.page) : LruInv F (w ++ [r]) (lruTurn F s r) := by
  have hw : r ∈ w := (h.mem hn r hr).mpr hmem
  rw [lruTurn_hit hmem, stackUpdate_free h.stackLength hn]
  refine ⟨?_, h.pageLength, h.filled, fun _ => ?_, fun _ p hp => ?_, fun _ => ?_,
    fun hge => absurd hn (Nat.not_lt.mpr hge), fun hge => absurd hn (Nat.not_lt.mpr hge)⟩
  · have := h.stackLength
    rw [List.length_cons, List.length_eraseIdx_of_lt (by omega)]
    omega
  · rw [toFinset_snoc, Finset.insert_eq_of_mem (List.mem_toFinset.mpr hw)]
    exact h.card hn
  · rw [List.mem_append, List.mem_singleton, ← h.mem hn p hp]
    exact ⟨fun h => h.elim id fun h => h ▸ hw, Or.inl⟩
  · have := congrArg (List.take s.stackNumber) (take_push (h.top hn) r)
    rwa [List.take_take, List.take_take, Nat.min_eq_left (Nat.le_succ _)] at this

/-- The stack of a table that has just been filled. -/
theorem perm_of_filled {stack page : List ℤ} (hs : stack.length = F) (hp : page.length = F)
    (hnd : stack.Nodup) (hsub : stack ⊆ page) : stack.Perm page :=
  (List.subperm_of_subset hnd hsub).perm_of_length_le (by omega)

theorem lruInv_load {σ : List ℤ} (hσ : FillsDistinct F σ) (hw : w ++ [r] <+: σ)
    (h1 : ∀ p ∈ w, p ≠ -1) (h : LruInv F w s) (hn : s.stackNumber < F) (hr : r ≠ -1)
    (hmem : r ∉ s.page) : LruInv F (w ++ [r]) (lruTurn F s r) := by
  have hwr : r ∉ w := fun hc => hmem ((h.mem hn r hr).mp hc)
  have hlt : s.stackNumber < s.page.length := h.pageLength ▸ hn
  have hcard : (w ++ [r]).toFinset.card = s.stackNumber + 1 := by
    rw [toFinset_snoc, Finset.card_insert_of_notMem (by rwa [List.mem_toFinset]), h.card hn]
  have hlen : (r :: s.stack.eraseIdx s.stackNumber).length = F := by
    have := h.stackLength
    rw [List.length_cons, List.length_eraseIdx_of_lt (by omega)]
    omega
  have hin : ∀ p, p ≠ -1 → (p ∈ w ++ [r] ↔ p ∈ s.page.set s.stackNumber r) := by
    intro p hp
    rw [List.mem_append, List.mem_singleton, h.mem hn p hp]
    exact (h.filled.mem_set hlt hp).symm
  have htop := take_push (h.top hn) r
  rw [lruTurn_load hmem h.stackLength hn]
  refine ⟨hlen, List.length_set.trans h.pageLength, h.filled.set hlt hr, fun _ => hcard,
    fun _ => hin, fun _ => htop, fun hge => ?_, fun hge => hge.trans hcard.ge⟩
  -- the last free frame is taken: the stack is the last `F` references
  have hF : s.stackNumber + 1 = F := Nat.le_antisymm hn hge
  rw [hF, List.take_of_length_le hlen.le] at htop
  have hnd := hσ.nodup hw hwr (hcard.trans hF)
  rw [← htop] at hnd
  apply perm_of_filled hlen (List.length_set.trans h.pageLength) hnd
  intro p hp
  rw [htop] at hp
  have hp' : p ∈ w ++ [r] := List.mem_reverse.mp (List.mem_of_mem_take hp)
  refine (hin p ?_).mp hp'
  rcases List.mem_append.mp hp' with hc | hc
  · exact h1 p hc
  · rwa [List.mem_singleton.mp hc]

theorem lruInv_hit_full (h : LruInv F w s) (hn : F ≤ s.stackNumber) (hmem : r ∈ s.page) :
    LruInv F (w ++ [r]) (lruTurn F s r) := by
  have hr : r ∈ s.stack := (h.perm hn).mem_iff.mpr hmem
  have hperm : (r :: s.stack.erase r).Perm s.stack := (List.perm_cons_erase hr).symm
  have hlt : ¬ s.stackNumber < F := Nat.not_lt.mpr hn
  rw [lruTurn_hit hmem, stackUpdate_full hn hr]
  exact ⟨hperm.length_eq.trans h.stackLength, h.pageLength, h.filled, fun hc => absurd hc hlt,
    fun hc => absurd hc hlt, fun hc => absurd hc hlt, fun _ => hperm.trans (h.perm hn),
    fun _ => (h.full hn).trans (card_le_snoc w r)⟩

/-- The stack is its bottom below the rest. -/
theorem stack_bottom {stack : List ℤ} (hF : 1 ≤ F) (hlen : stack.length = F) :
    stack = stack.dropLast ++ [stack.getD (F - 1) (-1)] := by
  have hne : stack ≠ [] := fun h => by rw [h, List.length_nil] at hlen; omega
  have := List.dropLast_concat_getLast hne
  rw [List.getLast_eq_getElem] at this
  rw [← hlen, List.getD_eq_getElem _ _ (by omega)]
  exact this.symm

/-- Overwriting the slot of a page replaces that page. -/
theorem set_idxOf_perm {page : List ℤ} {b : ℤ} (hb : b ∈ page) (r : ℤ) :
    (page.set (page.idxOf b) r).Perm (r :: page.erase b) := by
  rw [List.erase_eq_eraseIdx_of_idxOf rfl]
  exact List.set_perm_cons_eraseIdx (List.idxOf_lt_length_iff.mpr hb) r

/-- A stack that has the pages of the table: the page at its bottom goes from
both. -/
theorem bottom_replaced {stack page : List ℤ} (hF : 1 ≤ F) (hlen : stack.length = F)
    (hperm : stack.Perm page) (r : ℤ) : stack.getD (F - 1) (-1) ∈ page ∧
      (r :: stack.dropLast).Perm (page.set (page.idxOf (stack.getD (F - 1) (-1))) r) := by
  set b := stack.getD (F - 1) (-1) with hb
  have hstack : stack = stack.dropLast ++ [b] := stack_bottom hF hlen
  have hbs : b ∈ stack := by
    rw [hstack]
    exact List.mem_append_right _ List.mem_cons_self
  have hbp : b ∈ page := hperm.mem_iff.mp hbs
  have hrest : stack.dropLast.Perm (page.erase b) := by
    have h1 : (b :: stack.dropLast).Perm stack := by
      conv_rhs => rw [hstack]
      exact (List.perm_append_singleton b _).symm
    exact ((h1.trans hperm).trans (List.perm_cons_erase hbp)).cons_inv
  exact ⟨hbp, (hrest.cons r).trans (set_idxOf_perm hbp r).symm⟩

theorem lruInv_evict (hF : 1 ≤ F) (h : LruInv F w s) (hn : F ≤ s.stackNumber) (hr : r ≠ -1)
    (hmem : r ∉ s.page) : LruInv F (w ++ [r]) (lruTurn F s r) ∧
      s.stack.getD (F - 1) (-1) ∈ s.page := by
  obtain ⟨hbp, hperm⟩ := bottom_replaced hF h.stackLength (h.perm hn) r
  set b := s.stack.getD (F - 1) (-1) with hb
  have hlen : (s.page.set (s.page.idxOf b) r).length = F := List.length_set.trans h.pageLength
  have hlt : ¬ s.stackNumber + 1 < F := by omega
  refine ⟨?_, hbp⟩
  rw [lruTurn_evict hF hmem h.stackLength hn]
  refine ⟨hperm.length_eq.trans hlen, hlen, ?_, fun hc => absurd hc hlt,
    fun hc => absurd hc hlt, fun hc => absurd hc hlt, fun _ => hperm,
    fun _ => (h.full hn).trans (card_le_snoc w r)⟩
  exact filled_of_full (notMem_set (h.filled.full (h.pageLength ▸ hn)) hr)
    (hlen.trans_le (hn.trans (Nat.le_succ _)))

/-- **LRU serves** the strings that fill its frames by distinct references. -/
theorem lru_serves (hF : 1 ≤ F) {σ : List ℤ} (hσ : ∀ r ∈ σ, r ≠ -1) (hfill : FillsDistinct F σ) :
    Serves (-1) (fun s r => some (lruTurn F s r)) Lru.page Lru.pageFault (LruInv F) σ := by
  intro w r s hw hi _
  have hr : r ≠ -1 := hσ r (hw.subset (by simp))
  have h1 : ∀ p ∈ w, p ≠ -1 := fun p hp => hσ p (hw.subset (List.mem_append_left _ hp))
  by_cases hmem : r ∈ s.page
  · refine ⟨_, 0, rfl, ?_, by rw [lruTurn_hit hmem]; rfl, by rw [lruTurn_hit hmem]; exact .hit hmem⟩
    rcases Nat.lt_or_ge s.stackNumber F with hn | hn
    · exact lruInv_hit_free hi hn hr hmem
    · exact lruInv_hit_full hi hn hmem
  · rcases Nat.lt_or_ge s.stackNumber F with hn | hn
    · refine ⟨_, 1, rfl, lruInv_load hfill hw h1 hi hn hr hmem, ?_, ?_⟩
      · rw [lruTurn_load hmem hi.stackLength hn]
      · rw [lruTurn_load hmem hi.stackLength hn]
        exact .load hmem (hi.filled.getElem? (hi.pageLength ▸ hn))
    · obtain ⟨hi', hb⟩ := lruInv_evict hF hi hn hr hmem
      refine ⟨_, 1, rfl, hi', ?_, ?_⟩
      · rw [lruTurn_evict hF hmem hi.stackLength hn]
      · rw [lruTurn_evict hF hmem hi.stackLength hn]
        exact .evict hmem (hi.filled.full (hi.pageLength ▸ hn)) (List.idxOf_lt_length_iff.mpr hb)

theorem lru_resident (hF : 1 ≤ F) {σ : List ℤ} (hσ : ∀ r ∈ σ, r ≠ -1) (hfill : FillsDistinct F σ) :
    Resident (lruTable F) σ := by
  intro w r hw
  obtain ⟨s, hs, hc, hsing⟩ := (lru_serves hF hσ hfill).count_self hσ (lruInv_init hF)
    (single_replicate _ _) hw
  rw [foldlM_some] at hs
  exact ⟨s.page, by rw [lruTable, Option.some.inj hs], hc, hsing⟩

/-! ### LRU: a page missing from the stack -/

/-- All frames in use, whatever the stack has. -/
structure AllUsed (F : ℕ) (s : Lru) : Prop where
  stackLength : s.stack.length = F
  number : F ≤ s.stackNumber
  marker : -1 ∉ s.stack
  single : Single (-1) s.page

/-- A new page that gets a slot was stored in the place of the bottom `b` of
the stack. -/
theorem AllUsed.evict {A B : List ℤ} {b : ℤ} (hF : 1 ≤ F) (h : AllUsed F s)
    (hst : s.stack = A ++ (B ++ [b])) (hr : r ≠ -1) (hp : r ∉ s.page) (hs : r ∉ s.stack)
    (hcount : (lruTurn F s r).page.count r = 1) :
    AllUsed F (lruTurn F s r) ∧ (lruTurn F s r).stack = (r :: A) ++ B ∧ b ∈ s.page ∧
      b ∉ (lruTurn F s r).page ∧ ∀ x ∈ (lruTurn F s r).page, x ∈ s.page ∨ x = r := by
  obtain ⟨hbot, hrest⟩ : s.stack.getD (F - 1) (-1) = b ∧ s.stack.dropLast = A ++ B := by
    have := stack_bottom hF h.stackLength
    rw [hst, ← List.append_assoc] at this
    rw [hst, ← List.append_assoc]
    obtain ⟨h1, h2⟩ := List.append_inj' this rfl
    exact ⟨(List.singleton_inj.mp h2).symm, h1.symm⟩
  have hlen := congrArg List.length hst
  rw [h.stackLength] at hlen
  have hbst : b ∈ s.stack := by simp [hst]
  have hb1 : b ≠ -1 := fun hc => h.marker (hc ▸ hbst)
  have hrb : ¬ r = b := fun hc => hs (hc ▸ hbst)
  rw [lruTurn_evict hF hp h.stackLength h.number, hbot, hrest] at hcount ⊢
  simp only at hcount ⊢
  -- the bottom was found, else the page would not have been stored
  have hb : b ∈ s.page := by
    by_contra hb
    rw [List.idxOf_of_notMem hb, List.set_eq_of_length_le le_rfl, List.count_eq_zero.mpr hp]
      at hcount
    omega
  refine ⟨⟨?_, h.number.trans (Nat.le_succ _), ?_, single_set h.single hp⟩, rfl, hb, ?_,
    fun x hx => List.mem_or_eq_of_mem_set hx⟩
  · simp only [List.length_cons, List.length_append, List.length_nil] at hlen ⊢
    omega
  · intro hc
    rcases List.mem_cons.mp hc with hc | hc
    · exact hr hc.symm
    · exact h.marker (by rw [hst, ← List.append_assoc]; exact List.mem_append_left _ hc)
  · have hc := count_set_add (List.getElem?_idxOf hb) r b
    have := h.single b hb1
    rw [if_pos rfl, if_neg hrb] at hc
    exact List.count_eq_zero.mp (by omega)

/-- A full LRU that keeps new pages `gs` resident, as many as there are pages
in the lower part `B` of its stack, has the pages of `B` in its table and has
none of them twice: each one is what the search of a fault finds. -/
theorem nodup_of_resident (hF : 1 ≤ F) : ∀ (gs A B : List ℤ) (s : Lru), s.stack = A ++ B →
    AllUsed F s → gs.length = B.length → gs.Nodup →
    (∀ g ∈ gs, g ≠ -1 ∧ g ∉ s.page ∧ g ∉ s.stack) →
    (∀ v g, v ++ [g] <+: gs → ((v ++ [g]).foldl (lruTurn F) s).page.count g = 1) →
    B.Nodup ∧ B ⊆ s.page
  | [], A, B, s, _, _, hlen, _, _, _ => by
    rw [List.length_nil] at hlen
    rw [List.length_eq_zero_iff.mp hlen.symm]
    exact ⟨List.nodup_nil, List.nil_subset _⟩
  | g :: gs, A, B, s, hst, hu, hgs, hnd, hfresh, hres => by
    obtain rfl | ⟨B, b, rfl⟩ := List.eq_nil_or_concat' B
    · simp at hgs
    obtain ⟨hg1, hgp, hgst⟩ := hfresh g List.mem_cons_self
    obtain ⟨hu', hst', hb, hgone, hin⟩ := hu.evict hF hst hg1 hgp hgst (hres [] g ⟨gs, rfl⟩)
    rw [List.nodup_cons] at hnd
    have hstack : ∀ x ∈ (lruTurn F s g).stack, x = g ∨ x ∈ s.stack := by
      intro x hx
      rw [hst'] at hx
      rw [hst]
      simp only [List.mem_append, List.mem_cons] at hx ⊢
      tauto
    obtain ⟨hnd', hsub'⟩ := nodup_of_resident hF gs (g :: A) B (lruTurn F s g) hst' hu'
      (by simpa using hgs) hnd.2
      (by
        intro x hx
        obtain ⟨hx1, hxp, hxst⟩ := hfresh x (List.mem_cons_of_mem g hx)
        have hxg : x ≠ g := fun h => hnd.1 (h ▸ hx)
        exact ⟨hx1, fun h => (hin x h).elim hxp hxg, fun h => (hstack x h).elim hxg hxst⟩)
      (by
        intro v x hv
        have := hres (g :: v) x (by simpa using hv)
        simpa using this)
    constructor
    · rw [List.nodup_append]
      refine ⟨hnd', List.nodup_singleton b, fun x hx y hy => ?_⟩
      rw [List.mem_singleton] at hy
      rintro rfl
      exact hgone (hy ▸ hsub' hx)
    · intro x hx
      rcases List.mem_append.mp hx with hx | hx
      · refine (hin x (hsub' hx)).resolve_right fun h => hgst ?_
        rw [← h, hst]
        exact List.mem_append_right _ (List.mem_append_left _ hx)
      · rwa [List.mem_singleton.mp hx]

/-- There are always new pages. -/
theorem exists_fresh (n : ℕ) (avoid : Finset ℤ) :
    ∃ gs : List ℤ, gs.length = n ∧ gs.Nodup ∧ ∀ g ∈ gs, g ∉ avoid := by
  obtain ⟨t, ht, hcard⟩ := avoid.finite_toSet.infinite_compl.exists_subset_card_eq n
  refine ⟨t.toList, by rw [Finset.length_toList, hcard], t.nodup_toList, fun g hg => ?_⟩
  exact ht (Finset.mem_toList.mp hg)

/-- LRU when its last free frame is taken: the stack is the last references. -/
theorem lru_filled (hF : 1 ≤ F) (hσ : ∀ p ∈ w ++ [r], p ≠ -1) (hr : r ∉ w)
    (hcard : (w ++ [r]).toFinset.card = F) :
    ∃ s, (w ++ [r]).foldl (lruTurn F) (lruInit F) = s ∧ s.stack = (w ++ [r]).reverse.take F ∧
      s.stack.length = F ∧ s.stackNumber = F ∧ Single (-1) s.page := by
  have hw : ∀ p ∈ w, p ≠ -1 := fun p hp => hσ p (List.mem_append_left _ hp)
  rw [toFinset_snoc, Finset.card_insert_of_notMem (by rwa [List.mem_toFinset])] at hcard
  -- before that no prefix has named `F` pages
  have hfill : FillsDistinct F w := by
    intro t _ _ hc
    have : ((w.take (t + 1)).toFinset).card ≤ w.toFinset.card :=
      Finset.card_le_card fun p hp =>
        List.mem_toFinset.mpr (List.mem_of_mem_take (List.mem_toFinset.mp hp))
    omega
  obtain ⟨s, k, hs, hi, hsing, -, -⟩ := (lru_serves hF hw hfill).run hw w [] (lruInit F)
    List.prefix_rfl (lruInv_init hF) (single_replicate _ _)
  rw [foldlM_some] at hs
  rw [List.nil_append] at hi
  have hn : s.stackNumber < F := by
    by_contra hge
    have := hi.full (Nat.le_of_not_lt hge)
    omega
  have hnum : s.stackNumber + 1 = F := by
    have := hi.card hn
    omega
  have hmem : r ∉ s.page := fun hc =>
    hr ((hi.mem hn r (hσ r (by simp))).mpr hc)
  have hlen : (r :: s.stack.eraseIdx s.stackNumber).length = F := by
    have := hi.stackLength
    rw [List.length_cons, List.length_eraseIdx_of_lt (by omega)]
    omega
  have htop := take_push (hi.top hn) r
  rw [hnum, List.take_of_length_le hlen.le] at htop
  refine ⟨_, rfl, ?_⟩
  rw [List.foldl_append, Option.some.inj hs, List.foldl_cons, List.foldl_nil,
    lruTurn_load hmem hi.stackLength hn]
  exact ⟨htop, hlen, hnum, single_set hsing hmem⟩

/-- **LRU loses a page** after some continuation, if the last references are
not pairwise distinct when its frames are full. -/
theorem lru_breaks (hF : 1 ≤ F) (hσ : ∀ p ∈ w ++ [r], p ≠ -1) (hr : r ∉ w)
    (hcard : (w ++ [r]).toFinset.card = F) (hnd : ¬ ((w ++ [r]).reverse.take F).Nodup) :
    ∃ τ : List ℤ, (∀ p ∈ τ, p ≠ -1) ∧ ¬ Resident (lruTable F) (w ++ [r] ++ τ) := by
  obtain ⟨s, hs, hstack, hlen, hnum, hsing⟩ := lru_filled hF hσ hr hcard
  obtain ⟨gs, hgl, hgn, hgf⟩ := exists_fresh F (insert (-1) (s.page.toFinset ∪ s.stack.toFinset))
  have hfresh : ∀ g ∈ gs, g ≠ -1 ∧ g ∉ s.page ∧ g ∉ s.stack := by
    intro g hg
    have := hgf g hg
    simp only [Finset.mem_insert, Finset.mem_union, List.mem_toFinset, not_or] at this
    exact this
  refine ⟨gs, fun g hg => (hfresh g hg).1, fun hres => hnd ?_⟩
  rw [← hstack]
  have hmarker : -1 ∉ s.stack := by
    rw [hstack]
    exact fun h => hσ _ (List.mem_reverse.mp (List.mem_of_mem_take h)) rfl
  refine (nodup_of_resident hF gs [] s.stack s rfl ⟨hlen, hnum.ge, hmarker, hsing⟩
    (hgl.trans hlen.symm) hgn hfresh ?_).1
  · intro v g hv
    obtain ⟨q, hq, hcount, -⟩ := hres (w ++ [r] ++ v) g (by
      rw [List.append_assoc]
      exact (List.prefix_append_right_inj _).mpr hv)
    rw [lruTable, List.append_assoc, List.foldl_append, hs] at hq
    rw [Option.some.inj hq]
    exact hcount

/-! ### LRU: no page is replaced -/

/-- `shiftUp` copies the top of the stack into every slot. -/
theorem shiftUp_eq (top : ℤ) (rest : List ℤ) :
    shiftUp (rest.length + 1) (top :: rest) = List.replicate (rest.length + 1) top := by
  have hloop : ∀ k ≤ rest.length,
      (List.range' 1 k).foldl (fun a i => a.set i (a.getD (i - 1) (-1))) (top :: rest) =
        List.replicate (k + 1) top ++ rest.drop k := by
    intro k
    induction k with
    | zero => intro _; rfl
    | succ k ih =>
      intro hk
      have hget : (List.replicate (k + 1) top ++ rest.drop k).getD k (-1) = top := by
        rw [List.getD_append _ _ _ _ (by simp), List.getD_replicate _ (by omega)]
      rw [List.range'_1_concat, List.foldl_append, ih (by omega), List.foldl_cons, List.foldl_nil,
        show 1 + k - 1 = k by omega, hget,
        List.set_append_right _ _ (by rw [List.length_replicate]; omega), List.length_replicate,
        show 1 + k - (k + 1) = 0 by omega, List.drop_eq_getElem_cons (by omega), List.set_cons_zero,
        List.replicate_succ' (n := k + 1), List.append_assoc, List.singleton_append]
  rw [shiftUp, Nat.add_sub_cancel, hloop _ le_rfl, List.drop_length, List.append_nil]

/-- A hit on a page that is missing from the stack of a full table. -/
theorem stackUpdate_missing {n : ℕ} {top : ℤ} {rest : List ℤ} (hlen : (top :: rest).length = F)
    (hn : F ≤ n) (hr : r ∉ top :: rest) :
    stackUpdate F (top :: rest) n r = r :: List.replicate (F - 1) top := by
  rw [List.length_cons] at hlen
  subst hlen
  rw [stackUpdate, if_neg (Nat.not_lt.mpr hn), if_neg (by rwa [find_iff]), shiftUp_eq,
    List.replicate_succ, List.set_cons_zero, Nat.add_sub_cancel]

/-- Every reference goes to the top of the stack. -/
theorem stackUpdate_top {n : ℕ} {stack : List ℤ} (hF : 1 ≤ F) (hlen : stack.length = F) (r : ℤ) :
    ∃ t, stackUpdate F stack n r = r :: t ∧ (r :: t).length = F := by
  rcases Nat.lt_or_ge n F with hn | hn
  · refine ⟨_, stackUpdate_free hlen hn r, ?_⟩
    rw [List.length_cons, List.length_eraseIdx_of_lt (by omega)]
    omega
  · by_cases hr : r ∈ stack
    · refine ⟨_, stackUpdate_full hn hr, ?_⟩
      rw [(List.perm_cons_erase hr).symm.length_eq, hlen]
    · obtain ⟨top, rest, rfl⟩ : ∃ top rest, stack = top :: rest :=
        List.exists_cons_of_length_pos (by omega)
      refine ⟨_, stackUpdate_missing hlen hn hr, ?_⟩
      rw [List.length_cons, List.length_replicate]
      omega

/-- LRU after references to at most `F` pages: all of them are in the table,
and the last reference is on top of the stack. -/
structure Loaded (F : ℕ) (w : List ℤ) (s : Lru) : Prop where
  stackLength : s.stack.length = F
  pageLength : s.page.length = F
  filled : Filled (-1) s.page s.stackNumber
  number : s.stackNumber = w.toFinset.card
  mem : ∀ p, p ≠ -1 → (p ∈ w ↔ p ∈ s.page)
  top : ∀ u x, w = u ++ [x] → ∃ t, s.stack = x :: t

theorem loaded_init (F : ℕ) : Loaded F [] (lruInit F) where
  stackLength := List.length_replicate
  pageLength := List.length_replicate
  filled := filled_replicate _ _
  number := rfl
  mem p hp := by
    rw [lruInit, List.mem_replicate]
    exact ⟨fun h => absurd h List.not_mem_nil, fun h => absurd h.2 hp⟩
  top u x h := absurd h.symm (List.append_ne_nil_of_right_ne_nil u (List.cons_ne_nil x []))

theorem top_snoc {t : List ℤ} {stack : List ℤ} (h : stack = r :: t) :
    ∀ u x, w ++ [r] = u ++ [x] → ∃ t, stack = x :: t := by
  intro u x he
  obtain ⟨-, hx⟩ := List.append_inj' he rfl
  exact ⟨t, by rw [h, List.singleton_inj.mp hx]⟩

theorem card_snoc_of_mem (h : r ∈ w) : (w ++ [r]).toFinset.card = w.toFinset.card := by
  rw [toFinset_snoc, Finset.insert_eq_of_mem (List.mem_toFinset.mpr h)]

theorem card_snoc_of_notMem (h : r ∉ w) : (w ++ [r]).toFinset.card = w.toFinset.card + 1 := by
  rw [toFinset_snoc, Finset.card_insert_of_notMem (by rwa [List.mem_toFinset])]

theorem Loaded.hit (hF : 1 ≤ F) (h : Loaded F w s) (hr : r ≠ -1) (hmem : r ∈ w) :
    Loaded F (w ++ [r]) (lruTurn F s r) := by
  obtain ⟨t, ht, hlen⟩ := stackUpdate_top (n := s.stackNumber) hF h.stackLength r
  rw [lruTurn_hit ((h.mem r hr).mp hmem), ht]
  refine ⟨hlen, h.pageLength, h.filled, ?_, fun p hp => ?_, top_snoc rfl⟩
  · rw [card_snoc_of_mem hmem]
    exact h.number
  · rw [List.mem_append, List.mem_singleton, ← h.mem p hp]
    exact ⟨fun hc => hc.elim id fun hc => hc ▸ hmem, Or.inl⟩

theorem Loaded.load (h : Loaded F w s) (hr : r ≠ -1) (hmem : r ∉ w)
    (hcard : (w ++ [r]).toFinset.card ≤ F) :
    s.stackNumber < F ∧ Loaded F (w ++ [r]) (lruTurn F s r) := by
  have hnum := h.number
  rw [card_snoc_of_notMem hmem] at hcard
  have hn : s.stackNumber < F := by omega
  have hlt : s.stackNumber < s.page.length := h.pageLength ▸ hn
  have hlen : (r :: s.stack.eraseIdx s.stackNumber).length = F := by
    have := h.stackLength
    rw [List.length_cons, List.length_eraseIdx_of_lt (by omega)]
    omega
  rw [lruTurn_load (fun hc => hmem ((h.mem r hr).mpr hc)) h.stackLength hn]
  refine ⟨hn, hlen, List.length_set.trans h.pageLength, h.filled.set hlt hr, ?_, fun p hp => ?_,
    top_snoc rfl⟩
  · rw [card_snoc_of_notMem hmem, hnum]
  · rw [List.mem_append, List.mem_singleton, h.mem p hp]
    exact (h.filled.mem_set hlt hp).symm

/-- **LRU serves** the strings of at most `F` pages: it replaces none. -/
theorem lru_serves_few (hF : 1 ≤ F) {σ : List ℤ} (hσ : ∀ r ∈ σ, r ≠ -1)
    (hfew : σ.toFinset.card ≤ F) :
    Serves (-1) (fun s r => some (lruTurn F s r)) Lru.page Lru.pageFault (Loaded F) σ := by
  intro w r s hw hi _
  have hr : r ≠ -1 := hσ r (hw.subset (by simp))
  have hcard : (w ++ [r]).toFinset.card ≤ F := by
    refine (Finset.card_le_card fun p hp => ?_).trans hfew
    exact List.mem_toFinset.mpr (hw.subset (List.mem_toFinset.mp hp))
  by_cases hmem : r ∈ w
  · have hp : r ∈ s.page := (hi.mem r hr).mp hmem
    refine ⟨_, 0, rfl, hi.hit hF hr hmem, by rw [lruTurn_hit hp]; rfl, ?_⟩
    rw [lruTurn_hit hp]
    exact .hit hp
  · have hp : r ∉ s.page := fun hc => hmem ((hi.mem r hr).mpr hc)
    obtain ⟨hn, hload⟩ := hi.load hr hmem hcard
    refine ⟨_, 1, rfl, hload, by rw [lruTurn_load hp hi.stackLength hn], ?_⟩
    rw [lruTurn_load hp hi.stackLength hn]
    exact .load hp (hi.filled.getElem? (hi.pageLength ▸ hn))

theorem lru_resident_few (hF : 1 ≤ F) {σ : List ℤ} (hσ : ∀ r ∈ σ, r ≠ -1)
    (hfew : σ.toFinset.card ≤ F) : Resident (lruTable F) σ := by
  intro w r hw
  obtain ⟨s, hs, hc, hsing⟩ := (lru_serves_few hF hσ hfew).count_self hσ (loaded_init F)
    (single_replicate _ _) hw
  rw [foldlM_some] at hs
  exact ⟨s.page, by rw [lruTable, Option.some.inj hs], hc, hsing⟩

/-! ### Main results -/

/-- **Residency of the simulators.** FIFO and SCR keep the page just
referenced in exactly one slot, and no page in two, on every string; LRU does
on every string that fills its frames by distinct references or names at most `F`
pages, and after a filling by references that are not distinct it fails on some
continuation. -/
theorem residency (F : ℕ) (hF : 1 ≤ F) (σ : List ℤ) (hσ : ∀ r ∈ σ, r ≠ -1) :
    Resident (fifoTable F) σ ∧ Resident (scrTable F) σ ∧
      (FillsDistinct F σ ∨ σ.toFinset.card ≤ F → Resident (lruTable F) σ) ∧
      (¬ FillsDistinct F σ → ∃ t τ, (∀ r ∈ τ, r ≠ -1) ∧
        ¬ Resident (lruTable F) (σ.take t ++ τ)) := by
  refine ⟨fifo_resident hF hσ, scr_resident hF hσ, fun hlru => ?_, fun hbad => ?_⟩
  · rcases hlru with hfill | hfew
    · exact lru_resident hF hσ hfill
    · exact lru_resident_few hF hσ hfew
  simp only [FillsDistinct, not_forall] at hbad
  obtain ⟨t, ht, hr, hcard, hnd⟩ := hbad
  have htake : σ.take (t + 1) = σ.take t ++ [σ.getD t 0] := by
    rw [List.take_succ_eq_append_getElem ht, List.getD_eq_getElem _ _ ht]
  rw [htake] at hcard hnd
  obtain ⟨τ, hτ, h⟩ := lru_breaks hF
    (fun p hp => hσ p (List.mem_of_mem_take (htake ▸ hp : p ∈ σ.take (t + 1)))) hr hcard hnd
  exact ⟨t + 1, τ, hτ, by rwa [htake]⟩

/-- Three frames filled by `1 2 3`, with hits in between. -/
theorem residency_three : FillsDistinct 3 [1, 2, 1, 3, 4, 1] ∧
    Resident (lruTable 3) [1, 2, 1, 3, 4, 1] :=
  ⟨by decide, (residency 3 (by decide) [1, 2, 1, 3, 4, 1] (by decide)).2.2.1 (.inl (by decide))⟩

/-- Two hits on page `1` while a frame is free: the stack is `3 1 1`, page `4`
replaces `1`, and page `5` finds no `1` to replace and is not stored. -/
theorem lru_not_resident : ¬ Resident (lruTable 3) [1, 2, 1, 1, 3, 4, 5] := by
  intro h
  obtain ⟨q, hq, hc, -⟩ := h [1, 2, 1, 1, 3, 4] 5 List.prefix_rfl
  rw [show lruTable 3 ([1, 2, 1, 1, 3, 4] ++ [5]) = some [4, 2, 3] by decide] at hq
  rw [← Option.some.inj hq] at hc
  exact absurd hc (by decide)

end Paging
end LinuxProg
