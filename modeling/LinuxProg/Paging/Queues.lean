/-
# The queues of FIFO and SCR

FIFO writes its array round a cursor, one slot a fault; read from the cursor
the array is the queue of the pages loaded last (`fifo_simulates`), so it
holds the pages of the last faults and replaces the one loaded longest ago
(`fifo_lastFaults`).

SCR keeps a bit for each slot and a counter that is only reduced modulo
`page_frame` when it is used. Read circularly from the counter's slot the
array is the queue of the second-chance policy: clearing a bit and moving on
is moving the head to the tail (`chance_spare`), storing the page and moving
on is dropping the head and appending (`scr_simulates`). A scan of a full
table clears at most `page_frame` bits (`ScrInv.scan`).
-/
import Mathlib
import LinuxProg.Lib.Rings
import LinuxProg.Lib.Policies
import LinuxProg.Paging.Residency

namespace LinuxProg
namespace Paging

open Frames Rings Policies

variable {F : ℕ}

/-- The pages written so far are the pages of the table. -/
theorem mem_ring {q : List ℤ} {n : ℕ} {r : ℤ} (h : Filled (-1) q n) (hr : r ≠ -1) :
    r ∈ ring q n ↔ r ∈ q := by
  rcases Nat.lt_or_ge n q.length with hn | hn
  · rw [ring_free hn]
    constructor
    · exact List.mem_of_mem_take
    · intro hmem
      rw [← List.take_append_drop n q, List.mem_append] at hmem
      exact hmem.resolve_right fun hd => hr (h.2 r hd)
  · rw [ring_full hn, List.mem_rotate]

/-! ### FIFO -/

/-- The array of FIFO is the queue `L`. -/
structure FifoSim (F : ℕ) (s : Fifo) (L : List ℤ) : Prop where
  length : s.queue.length = F
  cursor : s.queueNumber = s.pageFault % F
  filled : Filled (-1) s.queue s.pageFault
  view : ring s.queue s.pageFault = L
  nodup : L.Nodup

theorem fifoSim_init (F : ℕ) : FifoSim F (fifoInit F) [] where
  length := List.length_replicate
  cursor := (Nat.zero_mod F).symm
  filled := filled_replicate _ _
  view := by
    apply List.length_eq_zero_iff.mp
    rw [length_ring]
    exact Nat.zero_min _
  nodup := List.nodup_nil

/-- A miss stores its page at the cursor. -/
theorem fifoTurn_miss {s : Fifo} {r : ℤ} (h : r ∉ s.queue) :
    fifoTurn F s r =
      ⟨s.queue.set s.queueNumber r, (s.queueNumber + 1) % F, s.pageFault + 1⟩ := by
  rw [fifoTurn, if_neg (by rwa [find_iff])]
  rfl

theorem FifoSim.turn {s : Fifo} {L : List ℤ} {r : ℤ} (hF : 1 ≤ F) (h : FifoSim F s L)
    (hr : r ≠ -1) :
    FifoSim F (fifoTurn F s r) (Policies.fifo F L r).1 ∧
      (fifoTurn F s r).pageFault = s.pageFault + (Policies.fifo F L r).2.faults ∧
      Answered (-1) s.queue r (fifoTurn F s r).queue (Policies.fifo F L r).2 := by
  have hmem : r ∈ L ↔ r ∈ s.queue := by
    rw [← h.view]
    exact mem_ring h.filled hr
  have hlen : L.length = min s.pageFault F := by rw [← h.view, length_ring, h.length]
  have hcur : (s.queueNumber + 1) % F = (s.pageFault + 1) % F := by
    rw [h.cursor, Nat.mod_add_mod]
  unfold Policies.fifo
  by_cases hL : r ∈ L
  · have hq := hmem.mp hL
    rw [if_pos hL, fifoTurn, if_pos (find_iff.mpr hq)]
    exact ⟨h, rfl, .hit hq⟩
  have hq : r ∉ s.queue := fun hq => hL (hmem.mpr hq)
  rw [if_neg hL, fifoTurn_miss hq]
  rcases Nat.lt_or_ge s.pageFault F with hlt | hge
  · -- a free frame
    have hlt' : s.pageFault < s.queue.length := h.length ▸ hlt
    have hslot : s.queueNumber = s.pageFault := by rw [h.cursor, Nat.mod_eq_of_lt hlt]
    rw [if_pos (by omega), hslot]
    refine ⟨⟨List.length_set.trans h.length, ?_, h.filled.set hlt' hr, ?_, ?_⟩, rfl,
      .load hq (h.filled.getElem? hlt')⟩
    · rw [← hcur, hslot]
    · rw [← h.view, ring_set_free hlt']
    · exact List.nodup_append.mpr ⟨h.nodup, List.nodup_singleton r, fun a ha b hb hab =>
        hL (by rw [List.mem_singleton.mp hb] at hab; exact hab ▸ ha)⟩
  · -- the page at the cursor goes
    have hpos : 0 < s.queue.length := by rw [h.length]; exact hF
    have hfull : -1 ∉ s.queue := h.filled.full (h.length ▸ hge)
    have hlt : s.pageFault % s.queue.length < s.queue.length := Nat.mod_lt _ hpos
    have hslot := List.getElem?_eq_getElem hlt
    obtain ⟨t, ht⟩ := rotate_eq_cons hpos hslot
    have hview : L = s.queue[s.pageFault % s.queue.length] :: t := by
      rw [← h.view, ring_full (h.length ▸ hge), ht]
    have hnd := h.nodup
    have hc : s.queueNumber = s.pageFault % s.queue.length := by rw [h.length]; exact h.cursor
    rw [if_neg (by omega)]
    subst hview
    rw [List.nodup_cons] at hnd
    rw [List.mem_cons, not_or] at hL
    rw [hc]
    refine ⟨⟨List.length_set.trans h.length, ?_, ?_, ?_, ?_⟩, rfl, .evict hq hfull hslot⟩
    · simp only [h.length, Nat.mod_add_mod]
    · apply filled_of_full (notMem_set hfull hr)
      rw [List.length_set, h.length]
      exact hge.trans (Nat.le_succ _)
    · rw [ring_set_full hpos (h.length ▸ hge), ring_full (h.length ▸ hge), ht, List.tail_cons]
    · exact List.nodup_append.mpr ⟨hnd.2, List.nodup_singleton r, fun a ha b hb hab =>
        hL.2 (by rw [List.mem_singleton.mp hb] at hab; exact hab ▸ ha)⟩

/-- FIFO is the queue policy on every reference string. -/
theorem fifo_simulates (hF : 1 ≤ F) {σ : List ℤ} (hσ : ∀ r ∈ σ, r ≠ -1) :
    Simulates (-1) (fun s r => some (fifoTurn F s r)) Fifo.queue Fifo.pageFault (Policies.fifo F)
      (fun _ => FifoSim F) σ := by
  intro w r s L hw h
  obtain ⟨hsim, hfault, hans⟩ := h.turn hF (hσ r (hw.subset (by simp)))
  exact ⟨_, rfl, hsim, hfault, hans⟩

/-- The pages of the last faults, at most `F` of them. -/
def lastFaults (F : ℕ) (H : List ℤ) : List ℤ := H.drop (H.length - F)

/-- The queue of FIFO against the pages `H` of all its faults, in order: from
the cursor on it has the unused frames and then the pages of the last faults,
each once; a reference faults if its page is not one of them, and on a full
table it replaces the first. -/
structure HoldsLastFaults (F : ℕ) (s : Fifo) (H : List ℤ) : Prop where
  faults : s.pageFault = H.length
  queue : s.queue.rotate s.queueNumber =
    List.replicate (F - s.pageFault) (-1) ++ lastFaults F H
  number : (lastFaults F H).length = min s.pageFault F
  nodup : (lastFaults F H).Nodup
  oldest : F ≤ s.pageFault → s.queue[s.queueNumber]? = (lastFaults F H).head?
  fault : ∀ r, r ≠ -1 → (fifoTurn F s r).pageFault =
    if r ∈ lastFaults F H then s.pageFault else s.pageFault + 1
  replaced : ∀ r, r ≠ -1 → r ∉ lastFaults F H → F ≤ s.pageFault →
    ∃ v, (lastFaults F H).head? = some v ∧
      Answered (-1) s.queue r (fifoTurn F s r).queue (.evict v)

/-- The array read from the cursor: unused frames, then the queue. -/
theorem FifoSim.rotate {s : Fifo} {L : List ℤ} (h : FifoSim F s L) :
    s.queue.rotate s.queueNumber = List.replicate (F - s.pageFault) (-1) ++ L := by
  rcases Nat.lt_or_ge s.pageFault F with hlt | hge
  · have hdrop : s.queue.drop s.pageFault = List.replicate (F - s.pageFault) (-1) := by
      rw [List.eq_replicate_iff, List.length_drop, h.length]
      exact ⟨rfl, h.filled.2⟩
    rw [h.cursor, Nat.mod_eq_of_lt hlt, List.rotate_eq_drop_append_take (h.length ▸ hlt.le), hdrop,
      ← ring_free (h.length ▸ hlt), h.view]
  · rw [Nat.sub_eq_zero_of_le hge, List.replicate_zero, List.nil_append, h.cursor, ← h.view,
      ring_full (h.length ▸ hge), ← List.rotate_mod s.queue s.pageFault, h.length]

theorem FifoSim.holdsLastFaults {s : Fifo} {H : List ℤ} (hF : 1 ≤ F)
    (h : FifoSim F s (lastFaults F H)) (hH : s.pageFault = H.length) : HoldsLastFaults F s H where
  faults := hH
  queue := h.rotate
  number := by rw [← h.view, length_ring, h.length]
  nodup := h.nodup
  oldest hge := by
    have hlt : s.queueNumber < s.queue.length := by
      rw [h.cursor, h.length]
      exact Nat.mod_lt _ hF
    rw [← List.head?_rotate hlt, h.rotate, Nat.sub_eq_zero_of_le hge, List.replicate_zero,
      List.nil_append]
  fault r hr := by
    obtain ⟨-, hfault, -⟩ := h.turn hF hr
    rw [hfault]
    unfold Policies.fifo
    split_ifs
    · rfl
    · rfl
    · cases lastFaults F H <;> rfl
  replaced r hr hnot hge := by
    have hlen : (lastFaults F H).length = min s.pageFault F := by
      rw [← h.view, length_ring, h.length]
    obtain ⟨-, -, hans⟩ := h.turn hF hr
    unfold Policies.fifo at hans
    rw [if_neg hnot, if_neg (by omega)] at hans
    cases hL : lastFaults F H with
    | nil =>
      rw [hL, List.length_nil] at hlen
      omega
    | cons v L =>
      rw [hL] at hans
      exact ⟨v, rfl, hans⟩

/-- **FIFO replaces the page loaded longest ago.** After every reference
string its queue holds the pages of its last faults. -/
theorem fifo_lastFaults (F : ℕ) (hF : 1 ≤ F) (σ : List ℤ) (hσ : ∀ r ∈ σ, r ≠ -1) :
    HoldsLastFaults F (σ.foldl (fifoTurn F) (fifoInit F))
      (faulted (fun s r => some (fifoTurn F s r)) Fifo.pageFault (fifoInit F) σ) := by
  obtain ⟨s, hs, hsim, hmiss, hfault⟩ := (fifo_simulates hF hσ).run σ [] (fifoInit F) []
    List.prefix_rfl (fifoSim_init F)
  rw [foldlM_some, Option.some.injEq] at hs
  rw [hs, hmiss]
  rw [after_fifo hF] at hsim
  apply hsim.holdsLastFaults hF
  rw [hfault]
  exact Nat.zero_add _

/-- Three frames, with hits before and after they are full. -/
theorem fifo_lastFaults_three :
    faulted (fun s r => some (fifoTurn 3 s r)) Fifo.pageFault (fifoInit 3) [1, 2, 1, 3, 4, 2, 1] =
      [1, 2, 3, 4, 1] ∧
    HoldsLastFaults 3 ([1, 2, 1, 3, 4, 2, 1].foldl (fifoTurn 3) (fifoInit 3)) [1, 2, 3, 4, 1] :=
  ⟨by decide, fifo_lastFaults 3 (by decide) [1, 2, 1, 3, 4, 2, 1] (by decide)⟩

/-! ### SCR -/

/-- The slots of SCR: a page and its bit. -/
def Scr.entries (s : Scr) : List (ℤ × Bool) := s.queue.zip (s.pageBit.map (· != 0))

/-- The queue of SCR: its slots read circularly from `queue_number` on, from
slot 0 while there are free frames. -/
def Scr.list (s : Scr) : List (ℤ × Bool) := ring s.entries s.queueNumber

theorem zip_set {α β : Type*} (a : α) (b : β) : ∀ (q : List α) (p : List β) (i : ℕ),
    (q.set i a).zip (p.set i b) = (q.zip p).set i (a, b)
  | [], _, _ => rfl
  | _ :: _, [], _ => by simp
  | _ :: _, _ :: _, 0 => rfl
  | x :: q, y :: p, i + 1 => by
    simp only [List.set_cons_succ, List.zip_cons_cons, zip_set a b q p i]

/-- The slots of a table and its bits. -/
theorem zip_bits_set (q bits : List ℤ) (i : ℕ) (r b : ℤ) :
    (q.set i r).zip ((bits.set i b).map (· != 0)) =
      (q.zip (bits.map (· != 0))).set i (r, b != 0) := by
  rw [List.map_set, zip_set]

theorem length_zip_bits {q bits : List ℤ} (hq : q.length = F) (hb : bits.length = F) :
    (q.zip (bits.map (· != 0))).length = F := by
  rw [List.length_zip, List.length_map, hq, hb, Nat.min_self]

theorem getElem?_zip_bits {q bits : List ℤ} (hq : q.length = F) (hb : bits.length = F) {i : ℕ}
    (hi : i < F) : (q.zip (bits.map (· != 0)))[i]? =
      some (q.getD i (-1), bits.getD i 0 != 0) := by
  have h1 : i < q.length := hq ▸ hi
  have h2 : i < bits.length := hb ▸ hi
  rw [List.getElem?_eq_getElem (by rw [length_zip_bits hq hb]; exact hi), List.getElem_zip,
    List.getElem_map, List.getD_eq_getElem _ _ h1, List.getD_eq_getElem _ _ h2]

theorem spare_true (p : ℤ) (L : List (ℤ × Bool)) :
    spare ((p, true) :: L) = spare (L ++ [(p, false)]) := by
  rw [spare]

theorem spare_false (p : ℤ) (L : List (ℤ × Bool)) :
    spare ((p, false) :: L) = (p, false) :: L := by
  rw [spare]

/-- The scan is the policy's: it ends at the queue that the policy leaves when
it has moved its spared heads, with a clear bit at the cursor. -/
theorem chance_spare {q : List ℤ} (hF : 1 ≤ F) (hq : q.length = F) :
    ∀ (fuel : ℕ) (bits : List ℤ) (n : ℕ) {bits' : List ℤ} {n' : ℕ}, bits.length = F →
    chance F fuel bits n = some (bits', n') →
    (q.zip (bits'.map (· != 0))).rotate n' = spare ((q.zip (bits.map (· != 0))).rotate n) ∧
      bits'.getD (n' % F) 0 = 0 ∧ n ≤ n' ∧ ∀ b ∈ bits', b ∈ bits ∨ b = 0
  | 0, _, _, _, _, _, h => by cases h
  | fuel + 1, bits, n, bits', n', hb, h => by
    have hlen := length_zip_bits hq hb
    have hlt : n % F < F := Nat.mod_lt n hF
    have hslot := getElem?_zip_bits hq hb hlt
    rw [← hlen] at hslot
    obtain ⟨t, ht⟩ := rotate_eq_cons (by rw [hlen]; exact hF) hslot
    rw [hlen] at ht
    unfold chance at h
    split at h
    · rename_i hzero
      obtain ⟨rfl, rfl⟩ := Prod.mk.inj (Option.some.inj h)
      rw [hzero] at ht
      refine ⟨?_, hzero, le_rfl, fun b hb => .inl hb⟩
      rw [ht]
      exact (spare_false _ t).symm
    · rename_i hone
      have hbit : (bits.getD (n % F) 0 != 0) = true := by simpa using hone
      obtain ⟨h1, h2, h3, h4⟩ := chance_spare hF hq fuel _ (n + 1)
        (List.length_set.trans hb) h
      refine ⟨?_, h2, by omega, fun b hb => ?_⟩
      · -- clearing the bit and moving on moves the head to the tail
        have hset : q = q.set (n % F) (q.getD (n % F) (-1)) := by
          rw [List.getD_eq_getElem _ _ (hq ▸ hlt), List.set_getElem_self]
        have hmove := rotate_set (q := q.zip (bits.map (· != 0))) (n := n)
          (by rw [hlen]; exact hF) (q.getD (n % F) (-1), (0 : ℤ) != 0)
        rw [hlen, ← zip_bits_set, ← hset, ht, List.tail_cons] at hmove
        rw [h1, hmove, ht, hbit]
        exact (spare_true _ t).symm
      · rcases h4 b hb with hb | hb
        · exact List.mem_or_eq_of_mem_set hb
        · exact .inr hb

/-- The arrays of SCR are the queue `L`. -/
structure ScrSim (F : ℕ) (s : Scr) (L : List (ℤ × Bool)) : Prop where
  inv : ScrInv F s
  bit : ∀ b ∈ s.pageBit, b = 0 ∨ b = 1
  single : Single (-1) s.queue
  view : s.list = L

theorem scrSim_init (F : ℕ) : ScrSim F (scrInit F) [] where
  inv := scrInv_init F
  bit b hb := .inl (List.eq_of_mem_replicate hb)
  single := single_replicate _ _
  view := by
    apply List.length_eq_zero_iff.mp
    rw [Scr.list, length_ring]
    exact Nat.zero_min _

section Turn

variable {s : Scr} {L : List (ℤ × Bool)} {r : ℤ}

theorem ScrSim.length_entries (h : ScrSim F s L) : s.entries.length = F :=
  length_zip_bits h.inv.length h.inv.bits

theorem ScrSim.mem (h : ScrSim F s L) (hr : r ≠ -1) : r ∈ L.map Prod.fst ↔ r ∈ s.queue := by
  have hfst : s.entries.map Prod.fst = s.queue := by
    apply List.map_fst_zip
    rw [List.length_map, h.inv.length, h.inv.bits]
  rw [← h.view, Scr.list, ← ring_map, hfst]
  exact mem_ring h.inv.filled hr

theorem ScrSim.length (h : ScrSim F s L) : L.length = min s.queueNumber F := by
  rw [← h.view, Scr.list, length_ring, h.length_entries]

/-- A page is in one slot only. -/
theorem eq_of_single {q : List ℤ} (h : Single (-1) q) (hr : r ≠ -1) {i j : ℕ}
    (hi : q[i]? = some r) (hj : q[j]? = some r) : j = i := by
  by_contra hne
  have hcount := count_set_add hj (r + 1) r
  have hmem : r ∈ q.set j (r + 1) :=
    List.mem_of_getElem? (by rw [List.getElem?_set_ne hne]; exact hi)
  have hpos := List.count_pos_iff.mpr hmem
  have := h r hr
  rw [if_pos rfl, if_neg (by omega)] at hcount
  omega

/-- Setting the bit of the slot that has the page sets the bit of the page. -/
theorem entries_pagebitChange (h : ScrSim F s L) (hr : r ≠ -1) (hmem : r ∈ s.queue) :
    (pagebitChange s r).entries =
      s.entries.map fun x => if x.1 = r then (x.1, true) else x := by
  have hslot : s.queue[s.queue.idxOf r]? = some r := List.getElem?_idxOf hmem
  have hlt : s.queue.idxOf r < s.queue.length := List.idxOf_lt_length_iff.mpr hmem
  have hset : (pagebitChange s r).entries = s.entries.set (s.queue.idxOf r) (r, true) := by
    have hsame : s.queue.set _ s.queue[s.queue.idxOf r] = s.queue := List.set_getElem_self hlt
    rw [List.getElem_idxOf hlt] at hsame
    have hzip := zip_bits_set s.queue s.pageBit (s.queue.idxOf r) r 1
    rwa [hsame] at hzip
  rw [hset]
  apply List.ext_getElem?
  intro j
  rw [List.getElem?_map]
  rcases Nat.lt_or_ge j F with hj | hj
  · have hentry := getElem?_zip_bits h.inv.length h.inv.bits hj
    by_cases hjr : j = s.queue.idxOf r
    · subst hjr
      rw [List.getElem?_set_self (by rw [h.length_entries]; exact hj), Scr.entries, hentry,
        Option.map_some, if_pos]
      all_goals rw [List.getD_eq_getElem?_getD, hslot, Option.getD_some]
    · have hne : s.queue.getD j (-1) ≠ r := by
        intro he
        apply hjr
        apply eq_of_single h.single hr hslot
        rw [← he, List.getD_eq_getElem _ _ (h.inv.length ▸ hj), List.getElem?_eq_getElem]
      rw [List.getElem?_set_ne (Ne.symm hjr), Scr.entries, hentry, Option.map_some, if_neg hne]
  · rw [List.getElem?_eq_none (by rw [List.length_set, h.length_entries]; exact hj),
      List.getElem?_eq_none (by rw [h.length_entries]; exact hj), Option.map_none]

theorem ScrSim.hit (h : ScrSim F s L) (hr : r ≠ -1) (hmem : r ∈ s.queue) :
    ScrSim F (pagebitChange s r) (L.map fun x => if x.1 = r then (x.1, true) else x) where
  inv := ⟨h.inv.length, List.length_set.trans h.inv.bits, h.inv.filled⟩
  bit b hb := by
    rcases List.mem_or_eq_of_mem_set hb with hb | hb
    · exact h.bit b hb
    · exact .inr hb
  single := h.single
  view := by
    rw [Scr.list, entries_pagebitChange h hr hmem, ring_map, ← h.view]
    rfl

/-- A miss with a free frame. -/
theorem ScrSim.load (h : ScrSim F s L) (hr : r ≠ -1) (hmem : r ∉ s.queue)
    (hn : s.queueNumber < F) :
    ScrSim F ⟨s.queue.set s.queueNumber r, s.pageBit.set s.queueNumber 0, s.queueNumber + 1,
      s.pageFault + 1⟩ (L ++ [(r, false)]) where
  inv := ⟨List.length_set.trans h.inv.length, List.length_set.trans h.inv.bits,
    h.inv.filled.set (h.inv.length ▸ hn) hr⟩
  bit b hb := by
    rcases List.mem_or_eq_of_mem_set hb with hb | hb
    · exact h.bit b hb
    · exact .inl hb
  single := single_set h.single hmem
  view := by
    rw [Scr.list, Scr.entries, zip_bits_set, ← h.view]
    exact ring_set_free (by rw [← Scr.entries, h.length_entries]; exact hn) _

/-- A miss with all frames in use, after its scan. -/
theorem ScrSim.evict (hF : 1 ≤ F) (h : ScrSim F s L) (hr : r ≠ -1) (hmem : r ∉ s.queue)
    (hn : F ≤ s.queueNumber) {bits : List ℤ} {n : ℕ} (hlen : bits.length = F)
    (hc : chance F (F + 1) s.pageBit s.queueNumber = some (bits, n)) :
    ScrSim F ⟨s.queue.set (n % F) r, bits, n + 1, s.pageFault + 1⟩ (secondChance F L r).1 ∧
      (secondChance F L r).2.faults = 1 ∧
      Answered (-1) s.queue r (s.queue.set (n % F) r) (secondChance F L r).2 := by
  obtain ⟨hspare, hzero, hle, hbits⟩ := chance_spare hF h.inv.length _ _ _ h.inv.bits hc
  have hfull : -1 ∉ s.queue := h.inv.filled.full (h.inv.length ▸ hn)
  have hlt : n % F < F := Nat.mod_lt n hF
  have hslots := length_zip_bits h.inv.length hlen
  -- the slot where the scan ends is the head of the policy's queue
  have hslot := getElem?_zip_bits h.inv.length hlen hlt
  rw [← hslots] at hslot
  obtain ⟨t, ht⟩ := rotate_eq_cons (by rw [hslots]; exact hF) hslot
  rw [hslots, hzero] at ht
  have hL : spare L = (s.queue.getD (n % F) (-1), false) :: t := by
    rw [← h.view, Scr.list, ring_full (by rw [h.length_entries]; exact hn), Scr.entries, ← hspare, ht]
    rfl
  have hpolicy : secondChance F L r = (t ++ [(r, false)], .evict (s.queue.getD (n % F) (-1))) := by
    unfold secondChance
    rw [if_neg (by rwa [h.mem hr]), if_neg (by rw [h.length]; omega), hL]
  rw [hpolicy]
  refine ⟨⟨⟨List.length_set.trans h.inv.length, hlen, ?_⟩, fun b hb => ?_,
    single_set h.single hmem, ?_⟩, rfl, .evict hmem hfull ?_⟩
  · apply filled_of_full (notMem_set hfull hr)
    rw [List.length_set, h.inv.length]
    exact hn.trans (hle.trans (Nat.le_succ n))
  · rcases hbits b hb with hb | hb
    · exact h.bit b hb
    · exact .inl hb
  · have hsame : bits = bits.set (n % F) 0 := by
      rw [List.getD_eq_getElem _ _ (hlen ▸ hlt)] at hzero
      conv_rhs => rw [← hzero]
      exact (List.set_getElem_self _).symm
    have hmove := rotate_set (q := s.queue.zip (bits.map (· != 0))) (n := n)
      (by rw [hslots]; exact hF) (r, (0 : ℤ) != 0)
    rw [hslots, ← zip_bits_set, ← hsame, ht, List.tail_cons] at hmove
    rw [Scr.list, ring_full]
    · exact hmove
    · simp only [Scr.entries]
      rw [length_zip_bits (List.length_set.trans h.inv.length) hlen]
      omega
  · rw [List.getD_eq_getElem _ _ (h.inv.length ▸ hlt), List.getElem?_eq_getElem]

theorem ScrSim.turn (hF : 1 ≤ F) (h : ScrSim F s L) (hr : r ≠ -1) :
    ∃ s', scrTurn F s r = some s' ∧ ScrSim F s' (secondChance F L r).1 ∧
      s'.pageFault = s.pageFault + (secondChance F L r).2.faults ∧
      Answered (-1) s.queue r s'.queue (secondChance F L r).2 := by
  unfold scrTurn
  by_cases hmem : r ∈ s.queue
  · have hL := (h.mem hr).mpr hmem
    rw [if_pos (find_iff.mpr hmem), secondChance, if_pos hL]
    exact ⟨_, rfl, h.hit hr hmem, rfl, .hit hmem⟩
  rw [if_neg (by rwa [find_iff])]
  unfold queuePagebitChange
  rcases Nat.lt_or_ge s.queueNumber F with hn | hn
  · rw [if_pos hn, secondChance, if_neg (by rwa [h.mem hr]), if_pos (by rw [h.length]; omega)]
    exact ⟨_, rfl, h.load hr hmem hn, rfl,
      .load hmem (h.inv.filled.getElem? (h.inv.length ▸ hn))⟩
  · obtain ⟨k, bits, hk, hlen, hends⟩ := h.inv.scan hF
    have hc := hends (F + 1) (by omega)
    obtain ⟨hsim, hone, hans⟩ := h.evict hF hr hmem hn hlen hc
    rw [if_neg (Nat.not_lt.mpr hn)]
    simp only [hc, Option.bind_eq_bind, Option.bind_some]
    exact ⟨_, rfl, hsim, by rw [hone], hans⟩

end Turn

/-- SCR is the second-chance policy on every reference string. -/
theorem scr_simulates (hF : 1 ≤ F) {σ : List ℤ} (hσ : ∀ r ∈ σ, r ≠ -1) :
    Simulates (-1) (scrTurn F) Scr.queue Scr.pageFault (secondChance F) (fun _ => ScrSim F) σ := by
  intro w r s L hw h
  exact h.turn hF (hσ r (hw.subset (by simp)))

/-- **SCR refines the second-chance queue.** Every reference string is served;
after it the slots of SCR, read from the hand on, are the queue of the policy
with the same number of faults, and whatever page comes next, SCR answers as
the policy does. A scan for a clear bit ends after at most `F` bits were
cleared. -/
theorem scr_refines (F : ℕ) (hF : 1 ≤ F) (σ : List ℤ) (hσ : ∀ r ∈ σ, r ≠ -1) :
    ∃ s, σ.foldlM (scrTurn F) (scrInit F) = some s ∧
      s.list = (secondChance F).after [] σ ∧ (∀ b ∈ s.pageBit, b = 0 ∨ b = 1) ∧
      s.pageFault = ((secondChance F).misses [] σ).length ∧
      (∀ r, r ≠ -1 → ∃ s', scrTurn F s r = some s' ∧
        Answered (-1) s.queue r s'.queue (secondChance F s.list r).2) ∧
      ∃ k bits, k ≤ F ∧ ∀ fuel, k < fuel →
        chance F fuel s.pageBit s.queueNumber = some (bits, s.queueNumber + k) := by
  obtain ⟨s, hs, hsim, -, hfault⟩ := (scr_simulates hF hσ).run σ [] (scrInit F) []
    List.prefix_rfl (scrSim_init F)
  refine ⟨s, hs, hsim.view, hsim.bit, ?_, fun r hr => ?_, ?_⟩
  · rw [hfault]
    exact Nat.zero_add _
  · obtain ⟨s', hturn, -, -, hans⟩ := hsim.turn hF hr
    rw [hsim.view]
    exact ⟨s', hturn, hans⟩
  · obtain ⟨k, bits, hk, -, hends⟩ := hsim.inv.scan hF
    exact ⟨k, bits, hk, hends⟩

/-- Two frames: page `1` is used again before page `3` comes, so `3` goes to
the slot of page `2`. -/
theorem scr_refines_two : ∃ s, [1, 2, 1, 3].foldlM (scrTurn 2) (scrInit 2) = some s ∧
    s.list = (secondChance 2).after [] [1, 2, 1, 3] := by
  obtain ⟨s, hs, hlist, -⟩ := scr_refines 2 (by decide) [1, 2, 1, 3] (by decide)
  exact ⟨s, hs, hlist⟩

end Paging
end LinuxProg
