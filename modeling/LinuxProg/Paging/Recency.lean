/-
# LRU and the order of last uses

LRU is meant to replace the page whose last use is oldest. Its stack is the
order of the last uses, and the simulator is the LRU policy, if its last
free frame is taken at a time when the last `page_frame` references are
pairwise distinct (`lru_simulates`). As long as no more than `page_frame`
pages are named nothing is replaced and the stack does not matter
(`lru_simulates_few`).

Otherwise the stack then has a page twice and another page not at all. Hits
never repair this: one on a page of the stack permutes it, one on a missing
page overwrites all of it but the top (`shiftUp_eq`), and a page that was used
before all pages of the stack is still there (`OutOfOrder`). So the next page
that is new is stored in a wrong slot, and the two conditions are exact
(`leastRecentlyUsed_iff`).
-/
import Mathlib
import LinuxProg.Paging.Queues

namespace LinuxProg
namespace Paging

open Frames Policies

/-- LRU after a reference string. -/
def lruAfter (F : ℕ) (w : List ℤ) : Lru := w.foldl (lruTurn F) (lruInit F)

theorem lruAfter_snoc (F : ℕ) (w : List ℤ) (r : ℤ) :
    lruAfter F (w ++ [r]) = lruTurn F (lruAfter F w) r := by
  rw [lruAfter, List.foldl_append]
  rfl

/-- The turn from `s` to `s'` serves `r`, after the references `w`, as LRU
should: it faults if the page is not one of the `F` pages last used, and a
fault on a full table replaces the page of the table whose last use is oldest. -/
structure ServedLru (F : ℕ) (w : List ℤ) (s : Lru) (r : ℤ) (s' : Lru) : Prop where
  fault : s'.pageFault = if r ∈ (recent w).take F then s.pageFault else s.pageFault + 1
  victim : s'.pageFault ≠ s.pageFault → -1 ∉ s.page →
    ∃ v, Answered (-1) s.page r s'.page (.evict v) ∧ ∀ p ∈ s.page, p ≠ v → age w p < age w v

/-- LRU is least recently used along the string, with the faults of the
policy. -/
structure LeastRecentlyUsed (F : ℕ) (σ : List ℤ) : Prop where
  served : ∀ w r, w ++ [r] <+: σ →
    ServedLru F w (lruAfter F w) r (lruTurn F (lruAfter F w) r)
  faults : (lruAfter F σ).pageFault = ((Policies.lru F).misses [] σ).length

/-! ### From the policy -/

variable {F : ℕ} {w σ : List ℤ} {s : Lru} {L : List ℤ} {r : ℤ}

/-- A simulation of the policy, with a table of the pages last used, is least
recently used. -/
theorem leastRecentlyUsed_of_simulates {R : List ℤ → Lru → List ℤ → Prop}
    (h : Simulates (-1) (fun s r => some (lruTurn F s r)) Lru.page Lru.pageFault (Policies.lru F) R σ)
    (h0 : R [] (lruInit F) [])
    (hpage : ∀ w s L, R w s L → ∀ p ∈ s.page, p ≠ -1 → p ∈ L) : LeastRecentlyUsed F σ where
  served w r hw := by
    obtain ⟨s1, s2, hs1, hR, -, hturn, hfault, hans⟩ := h.next h0 hw
    rw [foldlM_some, Option.some.injEq] at hs1
    rw [Option.some.injEq] at hturn
    subst hturn
    have hs : lruAfter F w = s1 := hs1
    rw [hs]
    rw [after_lru] at hR hans hfault
    rw [faults_lru] at hfault
    refine ⟨by rw [hfault]; split <;> rfl, fun hne hfull => ?_⟩
    have hr : r ∉ (recent w).take F := by
      intro hr
      rw [if_pos hr] at hfault
      exact hne hfault
    have hp : r ∉ s1.page := fun hp => hr (hpage w s1 _ hR r hp fun h1 => hfull (h1 ▸ hp))
    obtain ⟨v, hv⟩ := hans.full hp hfull
    rw [hv] at hans
    refine ⟨v, hans, fun p hp hne => ?_⟩
    apply age_lt_of_getLast (getLast?_of_lru_evict hv) _ hne
    exact hpage w s1 _ hR p hp fun h1 => hfull (h1 ▸ hp)
  faults := by
    obtain ⟨s1, hs1, -, -, hfault⟩ := h.run σ [] (lruInit F) [] List.prefix_rfl h0
    rw [foldlM_some, Option.some.injEq] at hs1
    rw [lruAfter, hs1, hfault]
    exact Nat.zero_add _

/-! ### Frames filled by distinct references -/

/-- LRU against the policy: the stack of a full table is the order of the last
uses. -/
structure LruSim (F : ℕ) (w : List ℤ) (s : Lru) (L : List ℤ) : Prop where
  inv : LruInv F w s
  view : L = (recent w).take F
  stack : F ≤ s.stackNumber → s.stack = L

theorem lruSim_init (hF : 1 ≤ F) : LruSim F [] (lruInit F) [] where
  inv := lruInv_init hF
  view := List.take_nil.symm
  stack h := absurd hF (Nat.not_le.mpr (Nat.lt_succ_of_le h))

/-- All pages fit in the list of the pages last used. -/
theorem take_recent_of_card (h : w.toFinset.card ≤ F) : (recent w).take F = recent w :=
  List.take_of_length_le (by rw [length_recent]; exact h)

theorem LruSim.mem (h : LruSim F w s L) (hr : r ≠ -1) : r ∈ L ↔ r ∈ s.page := by
  rcases Nat.lt_or_ge s.stackNumber F with hn | hn
  · rw [h.view, take_recent_of_card (by rw [h.inv.card hn]; exact hn.le), mem_recent]
    exact h.inv.mem hn r hr
  · rw [← h.stack hn]
    exact (h.inv.perm hn).mem_iff

theorem LruSim.length_lt (h : LruSim F w s L) (hn : s.stackNumber < F) : L.length < F := by
  rw [h.view, take_recent_of_card (by rw [h.inv.card hn]; exact hn.le), length_recent, h.inv.card hn]
  exact hn

theorem LruSim.length (h : LruSim F w s L) (hn : F ≤ s.stackNumber) : L.length = F := by
  rw [← h.stack hn]
  exact h.inv.stackLength

/-- The policy's next list. -/
theorem LruSim.next (h : LruSim F w s L) (r : ℤ) :
    (Policies.lru F L r).1 = (recent (w ++ [r])).take F := by
  rw [h.view]
  exact lru_take_recent F w r

theorem LruSim.hit (h : LruSim F w s L) (hr : r ≠ -1) (hmem : r ∈ s.page) :
    LruSim F (w ++ [r]) (lruTurn F s r) (Policies.lru F L r).1 := by
  rcases Nat.lt_or_ge s.stackNumber F with hn | hn
  · refine ⟨lruInv_hit_free h.inv hn hr hmem, h.next r, fun hge => ?_⟩
    rw [lruTurn_hit hmem] at hge
    exact absurd hn (Nat.not_lt.mpr hge)
  · refine ⟨lruInv_hit_full h.inv hn hmem, h.next r, fun _ => ?_⟩
    have hL : r ∈ L := (h.mem hr).mpr hmem
    have hlen := h.length hn
    have herase : (L.erase r).length = F - 1 := by rw [List.length_erase_of_mem hL, hlen]
    have hpos : 0 < L.length := List.length_pos_of_mem hL
    rw [lruTurn_hit hmem, h.stack hn, stackUpdate_full hn hL]
    apply (List.take_of_length_le _).symm
    rw [List.length_cons]
    omega

theorem LruSim.load (hfill : FillsDistinct F σ) (hw : w ++ [r] <+: σ) (h1 : ∀ p ∈ w, p ≠ -1)
    (h : LruSim F w s L) (hn : s.stackNumber < F) (hr : r ≠ -1) (hmem : r ∉ s.page) :
    LruSim F (w ++ [r]) (lruTurn F s r) (Policies.lru F L r).1 := by
  have hinv := lruInv_load hfill hw h1 h.inv hn hr hmem
  refine ⟨hinv, h.next r, fun hge => ?_⟩
  -- the last free frame is taken: the stack is the last `F` references
  have hwr : r ∉ w := fun hc => hmem ((h.inv.mem hn r hr).mp hc)
  have hnum : s.stackNumber + 1 = F := by
    rw [lruTurn_load hmem h.inv.stackLength hn] at hge
    exact Nat.le_antisymm hn hge
  have hcard : (w ++ [r]).toFinset.card = F := by
    rw [toFinset_snoc, Finset.card_insert_of_notMem (by rwa [List.mem_toFinset]), h.inv.card hn, hnum]
  have htop := take_push (h.inv.top hn) r
  rw [hnum] at htop
  rw [h.next r, take_recent_of_nodup F _ (hfill.nodup hw hwr hcard), ← htop,
    lruTurn_load hmem h.inv.stackLength hn, List.take_of_length_le]
  have hlen := hinv.stackLength
  rw [lruTurn_load hmem h.inv.stackLength hn] at hlen
  exact hlen.le

theorem LruSim.evict (hF : 1 ≤ F) (h : LruSim F w s L) (hn : F ≤ s.stackNumber) (hr : r ≠ -1)
    (hmem : r ∉ s.page) :
    LruSim F (w ++ [r]) (lruTurn F s r) (Policies.lru F L r).1 ∧
      Answered (-1) s.page r (lruTurn F s r).page (Policies.lru F L r).2 := by
  obtain ⟨hinv, hbot⟩ := lruInv_evict hF h.inv hn hr hmem
  have hL : r ∉ L := by rwa [h.mem hr]
  have hlen := h.length hn
  have hfull : -1 ∉ s.page := h.inv.filled.full (h.inv.pageLength ▸ hn)
  have hlast : L.getLast? = some (s.stack.getD (F - 1) (-1)) := by
    rw [h.stack hn, List.getLast?_eq_getElem?, hlen, List.getD_eq_getElem _ _ (by omega),
      List.getElem?_eq_getElem]
  have hreply : (Policies.lru F L r).2 = .evict (s.stack.getD (F - 1) (-1)) := by
    unfold Policies.lru
    simp only [if_neg hL, if_neg (by omega : ¬ L.length < F), hlast]
  refine ⟨⟨hinv, h.next r, fun _ => ?_⟩, ?_⟩
  · rw [lruTurn_evict hF hmem h.inv.stackLength hn, h.stack hn]
    simp only [Policies.lru]
    rw [List.erase_of_not_mem hL]
    obtain ⟨k, rfl⟩ : ∃ k, F = k + 1 := ⟨F - 1, by omega⟩
    rw [List.take_succ_cons, List.dropLast_eq_take, hlen, Nat.add_sub_cancel]
  · rw [hreply, lruTurn_evict hF hmem h.inv.stackLength hn]
    exact .evict hmem hfull (List.getElem?_idxOf hbot)

/-- LRU is the policy on strings that fill its frames by distinct references. -/
theorem lru_simulates (hF : 1 ≤ F) (hσ : ∀ r ∈ σ, r ≠ -1) (hfill : FillsDistinct F σ) :
    Simulates (-1) (fun s r => some (lruTurn F s r)) Lru.page Lru.pageFault (Policies.lru F)
      (LruSim F) σ := by
  intro w r s L hw h
  have hr : r ≠ -1 := hσ r (hw.subset (by simp))
  have h1 : ∀ p ∈ w, p ≠ -1 := fun p hp => hσ p (hw.subset (List.mem_append_left _ hp))
  refine ⟨_, rfl, ?_⟩
  rw [faults_lru]
  by_cases hmem : r ∈ s.page
  · have hL : r ∈ L := (h.mem hr).mpr hmem
    refine ⟨h.hit hr hmem, by rw [if_pos hL, lruTurn_hit hmem]; rfl, ?_⟩
    simp only [Policies.lru, if_pos hL]
    rw [lruTurn_hit hmem]
    exact .hit hmem
  · have hL : r ∉ L := fun hL => hmem ((h.mem hr).mp hL)
    rw [if_neg hL]
    rcases Nat.lt_or_ge s.stackNumber F with hn | hn
    · refine ⟨h.load hfill hw h1 hn hr hmem, ?_, ?_⟩
      · rw [lruTurn_load hmem h.inv.stackLength hn]
      · simp only [Policies.lru, if_neg hL, if_pos (h.length_lt hn)]
        rw [lruTurn_load hmem h.inv.stackLength hn]
        exact .load hmem (h.inv.filled.getElem? (h.inv.pageLength ▸ hn))
    · obtain ⟨hsim, hans⟩ := h.evict hF hn hr hmem
      exact ⟨hsim, by rw [lruTurn_evict hF hmem h.inv.stackLength hn], hans⟩

/-! ### No page is replaced -/

/-- LRU is the policy on strings of at most `F` pages. -/
theorem lru_simulates_few (hF : 1 ≤ F) (hσ : ∀ r ∈ σ, r ≠ -1) (hfew : σ.toFinset.card ≤ F) :
    Simulates (-1) (fun s r => some (lruTurn F s r)) Lru.page Lru.pageFault (Policies.lru F)
      (fun w s L => Loaded F w s ∧ L = (recent w).take F ∧ w.toFinset.card ≤ F) σ := by
  rintro w r s L hw ⟨h, hview, hcard⟩
  have hr : r ≠ -1 := hσ r (hw.subset (by simp))
  have hcard' : (w ++ [r]).toFinset.card ≤ F := by
    refine (Finset.card_le_card fun p hp => ?_).trans hfew
    exact List.mem_toFinset.mpr (hw.subset (List.mem_toFinset.mp hp))
  have hL : r ∈ L ↔ r ∈ w := by rw [hview, take_recent_of_card hcard, mem_recent]
  have hnext : (Policies.lru F L r).1 = (recent (w ++ [r])).take F := by
    rw [hview]
    exact lru_take_recent F w r
  refine ⟨_, rfl, ?_⟩
  rw [faults_lru]
  by_cases hmem : r ∈ w
  · have hp : r ∈ s.page := (h.mem r hr).mp hmem
    refine ⟨⟨h.hit hF hr hmem, hnext, hcard'⟩, by rw [if_pos (hL.mpr hmem), lruTurn_hit hp]; rfl, ?_⟩
    simp only [Policies.lru, if_pos (hL.mpr hmem)]
    rw [lruTurn_hit hp]
    exact .hit hp
  · have hp : r ∉ s.page := fun hc => hmem ((h.mem r hr).mpr hc)
    have hL' : r ∉ L := fun hc => hmem (hL.mp hc)
    obtain ⟨hn, hload⟩ := h.load hr hmem hcard'
    have hlen : L.length < F := by
      rw [hview, take_recent_of_card hcard, length_recent, ← h.number]
      exact hn
    refine ⟨⟨hload, hnext, hcard'⟩, ?_, ?_⟩
    · rw [if_neg hL', lruTurn_load hp h.stackLength hn]
    · simp only [Policies.lru, if_neg hL', if_pos hlen]
      rw [lruTurn_load hp h.stackLength hn]
      exact .load hp (h.filled.getElem? (h.pageLength ▸ hn))

/-! ### A stack out of order -/

/-- A full table has a page that was used before all pages of the stack. -/
structure OutOfOrder (F : ℕ) (w : List ℤ) (s : Lru) : Prop where
  loaded : Loaded F w s
  card : w.toFinset.card = F
  older : ∃ m ∈ w, ∀ x ∈ s.stack, x ∈ w ∧ age w x < age w m

theorem OutOfOrder.full (h : OutOfOrder F w s) : F ≤ s.stackNumber :=
  (h.loaded.number.trans h.card).ge

/-- A page other than the last two references was used before them. -/
theorem older_of_two (hF : 3 ≤ F) (hcard : w.toFinset.card = F) {u : List ℤ} {x : ℤ}
    (hw : w = u ++ [x]) (hxr : x ≠ r) (hmem : r ∈ w) :
    ∃ m ∈ w ++ [r], ∀ y, y = r ∨ y = x → y ∈ w ++ [r] ∧ age (w ++ [r]) y < age (w ++ [r]) m := by
  obtain ⟨m, hm, hne⟩ : ∃ m ∈ w.toFinset, m ∉ ({r, x} : Finset ℤ) := by
    apply Finset.exists_mem_notMem_of_card_lt_card
    have := Finset.card_le_two (a := r) (b := x)
    omega
  rw [Finset.mem_insert, Finset.mem_singleton, not_or] at hne
  have hage : age (w ++ [r]) m = age u m + 1 + 1 := by
    rw [age_snoc, if_neg (Ne.symm hne.1), hw, age_snoc, if_neg (Ne.symm hne.2)]
  refine ⟨m, List.mem_append_left _ (List.mem_toFinset.mp hm), ?_⟩
  rintro y (rfl | rfl)
  · refine ⟨List.mem_append_left _ hmem, ?_⟩
    rw [hage, age_snoc, if_pos rfl]
    omega
  · refine ⟨List.mem_append_left _ (by rw [hw]; simp), ?_⟩
    rw [hage, age_snoc, if_neg (Ne.symm hxr), hw, age_snoc, if_pos rfl]
    omega

/-- A hit leaves the stack out of order. -/
theorem OutOfOrder.hit (hF : 3 ≤ F) (h : OutOfOrder F w s) (hr : r ≠ -1) (hmem : r ∈ w) :
    OutOfOrder F (w ++ [r]) (lruTurn F s r) := by
  refine ⟨h.loaded.hit (by omega) hr hmem, (card_snoc_of_mem hmem).trans h.card, ?_⟩
  rw [lruTurn_hit ((h.loaded.mem r hr).mp hmem)]
  obtain ⟨m, hm, hall⟩ := h.older
  by_cases hst : r ∈ s.stack
  · -- a page of the stack goes to its top; the older page was not it
    have hrm : r ≠ m := fun he => lt_irrefl _ (he ▸ (hall r hst).2)
    rw [stackUpdate_full h.full hst]
    refine ⟨m, List.mem_append_left _ hm, fun x hx => ?_⟩
    have hxs : x ∈ s.stack := by
      rcases List.mem_cons.mp hx with rfl | hx
      · exact hst
      · exact List.mem_of_mem_erase hx
    obtain ⟨hxw, hlt⟩ := hall x hxs
    refine ⟨List.mem_append_left _ hxw, ?_⟩
    rw [age_snoc, age_snoc, if_neg hrm]
    split <;> omega
  · -- the stack is overwritten with the last reference
    obtain ⟨u, x, hw⟩ : ∃ u x, w = u ++ [x] := by
      rcases List.eq_nil_or_concat' w with rfl | hw
      · exact absurd hmem List.not_mem_nil
      · exact hw
    obtain ⟨t, ht⟩ := h.loaded.top u x hw
    have hxr : x ≠ r := fun he => hst (by rw [ht, he]; exact List.mem_cons_self)
    have hlen := h.loaded.stackLength
    rw [ht] at hst hlen ⊢
    rw [stackUpdate_missing hlen h.full hst]
    obtain ⟨m, hm, hall⟩ := older_of_two hF h.card hw hxr hmem
    refine ⟨m, hm, fun y hy => hall y ?_⟩
    rcases List.mem_cons.mp hy with hy | hy
    · exact .inl hy
    · exact .inr (List.eq_of_mem_replicate hy)

/-- As long as only known pages are named, the stack stays out of order. -/
theorem OutOfOrder.run (hF : 3 ≤ F) (h : OutOfOrder F w (lruAfter F w)) : ∀ (v : List ℤ),
    (∀ p ∈ w, p ≠ -1) → (∀ p ∈ v, p ∈ w) → OutOfOrder F (w ++ v) (lruAfter F (w ++ v)) := by
  intro v hw
  induction v using List.reverseRecOn with
  | nil =>
    intro _
    rw [List.append_nil]
    exact h
  | append_singleton v r ih =>
    intro hv
    have hr : r ∈ w := hv r (by simp)
    have ih := ih fun p hp => hv p (List.mem_append_left _ hp)
    rw [← List.append_assoc, lruAfter_snoc]
    exact ih.hit hF (hw r hr) (List.mem_append_left _ hr)

/-- LRU keeps the invariant of the first `F` pages. -/
theorem loaded_after (hF : 1 ≤ F) (hσ : ∀ r ∈ σ, r ≠ -1) (hfew : σ.toFinset.card ≤ F) :
    Loaded F σ (lruAfter F σ) := by
  obtain ⟨s, hs, ⟨hload, -⟩, -⟩ := (lru_simulates_few hF hσ hfew).run σ [] (lruInit F) []
    List.prefix_rfl ⟨loaded_init F, by simp [recent], Nat.zero_le _⟩
  rw [foldlM_some, Option.some.injEq] at hs
  rw [lruAfter, hs]
  exact hload

/-- Frames filled by references that are not distinct. -/
theorem outOfOrder_of_repeated (hF : 1 ≤ F) (hσ : ∀ p ∈ w ++ [r], p ≠ -1) (hr : r ∉ w)
    (hcard : (w ++ [r]).toFinset.card = F) (hnd : ¬ ((w ++ [r]).reverse.take F).Nodup) :
    3 ≤ F ∧ OutOfOrder F (w ++ [r]) (lruAfter F (w ++ [r])) := by
  have hrev : (w ++ [r]).reverse.take F = r :: w.reverse.take (F - 1) := by
    obtain ⟨k, rfl⟩ : ∃ k, F = k + 1 := ⟨F - 1, by omega⟩
    rw [List.reverse_append, List.reverse_singleton, List.singleton_append, List.take_succ_cons,
      Nat.add_sub_cancel]
  constructor
  · by_contra hlt
    apply hnd
    rw [hrev, List.nodup_cons]
    refine ⟨fun hc => hr (List.mem_reverse.mp (List.mem_of_mem_take hc)), ?_⟩
    have hlen : (w.reverse.take (F - 1)).length ≤ 1 := by
      rw [List.length_take]
      omega
    rw [List.nodup_iff_injective_get]
    intro i j _
    exact Fin.ext (by omega)
  · obtain ⟨s, hs, hstack, hlen, -, -⟩ := lru_filled hF hσ hr hcard
    rw [← lruAfter] at hs
    refine ⟨loaded_after hF hσ hcard.le, hcard, ?_⟩
    rw [hs, hstack]
    -- the stack has a page twice, so it misses one of the `F` pages
    obtain ⟨m, hm, hnot⟩ : ∃ m ∈ (w ++ [r]).toFinset,
        m ∉ ((w ++ [r]).reverse.take F).toFinset := by
      apply Finset.exists_mem_notMem_of_card_lt_card
      rw [hstack] at hlen
      rw [hcard]
      refine lt_of_le_of_ne ((List.toFinset_card_le _).trans hlen.le) fun he => hnd ?_
      exact Multiset.toFinset_card_eq_card_iff_nodup.mp (he.trans hlen.symm)
    rw [List.mem_toFinset] at hm hnot
    refine ⟨m, hm, fun x hx => ⟨List.mem_reverse.mp (List.mem_of_mem_take hx), ?_⟩⟩
    have hlt := (List.mem_take_iff_idxOf_lt (List.mem_of_mem_take hx)).mp hx
    have hge := mt (List.mem_take_iff_idxOf_lt (List.mem_reverse.mpr hm)).mpr hnot
    exact Nat.lt_of_lt_of_le hlt (Nat.le_of_not_lt hge)

/-- A new page is stored in the slot of a page of the stack, although an older
one is there. -/
theorem OutOfOrder.not_served (hF : 1 ≤ F) (h : OutOfOrder F w s) (hw : ∀ p ∈ w, p ≠ -1)
    (hr : r ≠ -1) (hmem : r ∉ w) : ¬ ServedLru F w s r (lruTurn F s r) := by
  intro hserved
  have hp : r ∉ s.page := fun hc => hmem ((h.loaded.mem r hr).mpr hc)
  have hfull : -1 ∉ s.page := h.loaded.filled.full (h.loaded.pageLength ▸ h.full)
  set b := s.stack.getD (F - 1) (-1) with hb
  have hbst : b ∈ s.stack := by
    have hlen := h.loaded.stackLength
    rw [hb, List.getD_eq_getElem _ _ (by omega)]
    exact List.getElem_mem _
  obtain ⟨m, hm, hall⟩ := h.older
  obtain ⟨hbw, hlt⟩ := hall b hbst
  have hbp : b ∈ s.page := (h.loaded.mem b (hw b hbw)).mp hbw
  have hturn := lruTurn_evict hF hp h.loaded.stackLength h.full
  obtain ⟨v, hans, hold⟩ := hserved.victim (by rw [hturn]; exact Nat.succ_ne_self _) hfull
  rw [hturn] at hans
  have hv := hans.victim (List.idxOf_lt_length_iff.mpr hbp)
  rw [List.getElem?_idxOf hbp, Option.some.injEq] at hv
  have hmb : m ≠ v := fun he => lt_irrefl _ (by rw [hv, ← he] at hlt; exact hlt)
  have := hold m ((h.loaded.mem m (hw m hm)).mp hm) hmb
  rw [← hv] at this
  omega

/-! ### Main result -/

/-- A string of more than `F` pages names page number `F + 1` somewhere. -/
theorem exists_new (h : F < σ.toFinset.card) :
    ∃ w r, w ++ [r] <+: σ ∧ r ∉ w ∧ w.toFinset.card = F := by
  induction σ using List.reverseRecOn with
  | nil => exact absurd h (Nat.not_lt_zero F)
  | append_singleton σ x ih =>
    rcases Nat.lt_or_ge F σ.toFinset.card with hlt | hge
    · obtain ⟨w, r, hw, hr, hcard⟩ := ih hlt
      exact ⟨w, r, hw.trans (List.prefix_append _ _), hr, hcard⟩
    · have hx : x ∉ σ := by
        intro hx
        rw [card_snoc_of_mem hx] at h
        omega
      rw [card_snoc_of_notMem hx] at h
      exact ⟨σ, x, List.prefix_rfl, hx, by omega⟩

/-- Of two prefixes with `F` pages, the one that stops before a new page
extends the other, by pages of the other. -/
theorem extends_of_card {x : List ℤ} (hx : x <+: σ) (hw : w ++ [r] <+: σ) (hr : r ∉ w)
    (hcard : w.toFinset.card = x.toFinset.card) : ∃ v, x ++ v = w ∧ ∀ p ∈ v, p ∈ x := by
  obtain ⟨v, hv⟩ : x <+: w := by
    rcases Nat.lt_or_ge w.length x.length with hlt | hge
    · -- then the new page would be one of `x`
      have hpre : w ++ [r] <+: x := List.prefix_of_prefix_length_le hw hx (by simpa using hlt)
      have hsub : (w ++ [r]).toFinset ⊆ x.toFinset := fun p hp =>
        List.mem_toFinset.mpr (hpre.subset (List.mem_toFinset.mp hp))
      have := Finset.card_le_card hsub
      rw [card_snoc_of_notMem hr] at this
      omega
    · exact List.prefix_of_prefix_length_le hx ((List.prefix_append _ _).trans hw) hge
  refine ⟨v, hv, fun p hp => ?_⟩
  have hsub : x.toFinset ⊆ w.toFinset := fun p hp => by
    rw [← hv, List.mem_toFinset]
    exact List.mem_append_left _ (List.mem_toFinset.mp hp)
  have heq := Finset.eq_of_subset_of_card_le hsub hcard.le
  rw [← List.mem_toFinset, heq, ← hv, List.mem_toFinset]
  exact List.mem_append_right _ hp

/-- **LRU is least recently used** exactly on the strings that fill its frames
by distinct references, and on those that name at most `F` pages. -/
theorem leastRecentlyUsed_iff (hF : 1 ≤ F) (hσ : ∀ r ∈ σ, r ≠ -1) :
    LeastRecentlyUsed F σ ↔ FillsDistinct F σ ∨ σ.toFinset.card ≤ F := by
  constructor
  · intro hlru
    by_contra hno
    rw [not_or, Nat.not_le] at hno
    obtain ⟨hbad, hmany⟩ := hno
    simp only [FillsDistinct, not_forall] at hbad
    obtain ⟨t, ht, hr0, hcard0, hnd⟩ := hbad
    have htake : σ.take (t + 1) = σ.take t ++ [σ.getD t 0] := by
      rw [List.take_succ_eq_append_getElem ht, List.getD_eq_getElem _ _ ht]
    -- the frames are full before page number `F + 1` comes
    obtain ⟨w, r, hw, hr, hcard⟩ := exists_new hmany
    obtain ⟨v, hv, hknown⟩ := extends_of_card (List.take_prefix (t + 1) σ) hw hr
      (hcard.trans hcard0.symm)
    have h1 : ∀ p ∈ σ.take (t + 1), p ≠ -1 := fun p hp => hσ p (List.mem_of_mem_take hp)
    rw [htake] at hcard0 hnd h1 hv hknown
    obtain ⟨hF3, hout⟩ := outOfOrder_of_repeated hF h1 hr0 hcard0 hnd
    have hout' := hout.run hF3 v h1 hknown
    rw [hv] at hout'
    have hr1 : r ≠ -1 := hσ r (hw.subset (by simp))
    have hw1 : ∀ p ∈ w, p ≠ -1 := fun p hp => hσ p (hw.subset (List.mem_append_left _ hp))
    exact hout'.not_served hF hw1 hr1 hr (hlru.served w r hw)
  · rintro (hfill | hfew)
    · apply leastRecentlyUsed_of_simulates (lru_simulates hF hσ hfill) (lruSim_init hF)
      exact fun w s L h p hp hp1 => (h.mem hp1).mpr hp
    · apply leastRecentlyUsed_of_simulates (lru_simulates_few hF hσ hfew)
        ⟨loaded_init F, List.take_nil.symm, Nat.zero_le _⟩
      rintro w s L ⟨h, hview, hcard⟩ p hp hp1
      rw [hview, take_recent_of_card hcard, mem_recent]
      exact (h.mem p hp1).mpr hp

/-- Three frames filled by `1 2 3`, with a hit in between. -/
theorem leastRecentlyUsed_three : LeastRecentlyUsed 3 [1, 2, 1, 3, 4, 1] :=
  (leastRecentlyUsed_iff (by decide) (by decide)).mpr (.inl (by decide))

/-- Two hits on page `1` while a frame is free: page `4` then replaces `1`,
although `2` was not used since. -/
theorem not_leastRecentlyUsed_three : ¬ LeastRecentlyUsed 3 [1, 2, 1, 1, 3, 4] := by
  intro h
  obtain ⟨v, hans, hold⟩ :=
    (h.served [1, 2, 1, 1, 3] 4 List.prefix_rfl).victim (by decide) (by decide)
  rw [show (lruTurn 3 (lruAfter 3 [1, 2, 1, 1, 3]) 4).page =
    (lruAfter 3 [1, 2, 1, 1, 3]).page.set 0 4 by decide] at hans
  have hv := hans.victim (by decide)
  obtain rfl : 1 = v := Option.some.inj hv
  exact absurd (hold 2 (by decide) (by decide)) (by decide)

end Paging
end LinuxProg
