/-
# Demand paging and Belady's theorem

A cache of `F` frames serves a string of page references. On a hit nothing
moves; on a miss the page is loaded, into a free frame while there is one,
else in place of any one resident page. `Run F C σ k` says that some schedule
serves `σ` from the pages `C` with `k` faults, `Farthest F C σ k` that it can
be done evicting a page whose next use is farthest each time.

No schedule has fewer faults than one that evicts the farthest
(`farthest_le_run`). The argument compares caches: a cache pays at most one
fault more for every page that another one has and it has not
(`run_of_sdiff`), and of two caches that differ in one page, the one whose
page is used first is not worse (`run_of_exchange`).
-/
import Mathlib

namespace LinuxProg
namespace Belady

variable {α : Type*} [DecidableEq α] {F : ℕ}

/-- A schedule serves the references from the cache with so many faults. -/
inductive Run (F : ℕ) : Finset α → List α → ℕ → Prop where
  | nil (C : Finset α) : Run F C [] 0
  | hit {C : Finset α} {r : α} {σ : List α} {k : ℕ} : r ∈ C → Run F C σ k → Run F C (r :: σ) k
  | load {C : Finset α} {r : α} {σ : List α} {k : ℕ} : r ∉ C → C.card < F →
      Run F (insert r C) σ k → Run F C (r :: σ) (k + 1)
  | evict {C : Finset α} {r g : α} {σ : List α} {k : ℕ} : r ∉ C → F ≤ C.card → g ∈ C →
      Run F (insert r (C.erase g)) σ k → Run F C (r :: σ) (k + 1)

/-- The schedules that evict a page with the farthest next use; a page that
is not used again counts as used at the end. -/
inductive Farthest (F : ℕ) : Finset α → List α → ℕ → Prop where
  | nil (C : Finset α) : Farthest F C [] 0
  | hit {C : Finset α} {r : α} {σ : List α} {k : ℕ} : r ∈ C → Farthest F C σ k →
      Farthest F C (r :: σ) k
  | load {C : Finset α} {r : α} {σ : List α} {k : ℕ} : r ∉ C → C.card < F →
      Farthest F (insert r C) σ k → Farthest F C (r :: σ) (k + 1)
  | evict {C : Finset α} {r g : α} {σ : List α} {k : ℕ} : r ∉ C → F ≤ C.card → g ∈ C →
      (∀ h ∈ C, σ.idxOf h ≤ σ.idxOf g) → Farthest F (insert r (C.erase g)) σ k →
      Farthest F C (r :: σ) (k + 1)

/-- They are schedules. -/
theorem Farthest.run {C : Finset α} {σ : List α} {k : ℕ} (h : Farthest F C σ k) : Run F C σ k := by
  induction h with
  | nil C => exact .nil C
  | hit hr _ ih => exact .hit hr ih
  | load hr hc _ ih => exact .load hr hc ih
  | evict hr hc hg _ _ ih => exact .evict hr hc hg ih

/-! ### Caches against each other -/

theorem card_insert_erase {C : Finset α} {r g : α} (hr : r ∉ C) (hg : g ∈ C) :
    (insert r (C.erase g)).card = C.card := by
  have hr' : r ∉ C.erase g := fun h => hr (Finset.mem_of_mem_erase h)
  have hpos : 0 < C.card := Finset.card_pos.mpr ⟨g, hg⟩
  rw [Finset.card_insert_of_notMem hr', Finset.card_erase_of_mem hg]
  omega

/-- What a schedule can have made of its cache by one reference. -/
theorem Run.uncons {Y : Finset α} {r : α} {σ : List α} {k : ℕ} (hY : Y.card ≤ F)
    (h : Run F Y (r :: σ) k) :
    ∃ Y1 k1, Run F Y1 σ k1 ∧ Y1.card ≤ F ∧ Y1 ⊆ insert r Y ∧
      ((r ∈ Y ∧ Y1 = Y ∧ k = k1) ∨ (r ∉ Y ∧ k = k1 + 1)) := by
  cases h with
  | hit hr h => exact ⟨Y, k, h, hY, Finset.subset_insert r Y, Or.inl ⟨hr, rfl, rfl⟩⟩
  | load hr hc h =>
    refine ⟨_, _, h, ?_, subset_rfl, Or.inr ⟨hr, rfl⟩⟩
    rw [Finset.card_insert_of_notMem hr]
    exact hc
  | evict hr hc hg h =>
    refine ⟨_, _, h, ?_, Finset.insert_subset_insert r (Finset.erase_subset _ Y),
      Or.inr ⟨hr, rfl⟩⟩
    rw [card_insert_erase hr hg]
    exact hY

/-- A cache can take in `r` without missing more of what another one has: it has
a free frame, or a page that the other has not. -/
theorem exists_fault {X Y : Finset α} {r : α} (hX : X.card ≤ F) (hY : Y.card ≤ F) (hr : r ∉ X)
    (hne : X ≠ Y) :
    ∃ X1 : Finset α, X1.card ≤ F ∧ (∀ Z ⊆ insert r Y, Z \ X1 ⊆ (Y \ X).erase r) ∧
      ∀ {σ j}, Run F X1 σ j → Run F X (r :: σ) (j + 1) := by
  by_cases hfull : X.card < F
  · refine ⟨insert r X, ?_, fun Z hZ q hq => ?_, .load hr hfull⟩
    · rw [Finset.card_insert_of_notMem hr]
      exact hfull
    · simp only [Finset.mem_sdiff, Finset.mem_insert, Finset.mem_erase, not_or] at hq ⊢
      exact ⟨hq.2.1, (Finset.mem_insert.mp (hZ hq.1)).resolve_left hq.2.1, hq.2.2⟩
  · obtain ⟨g, hgX, hgY⟩ : ∃ g, g ∈ X ∧ g ∉ Y := by
      -- a full cache all of whose pages the other has is the other
      by_contra hex
      have hsub : X ⊆ Y := fun q hq => by_contra fun h => hex ⟨q, hq, h⟩
      exact hne (Finset.eq_of_subset_of_card_le hsub (by omega))
    refine ⟨insert r (X.erase g), ?_, fun Z hZ q hq => ?_, .evict hr (by omega) hgX⟩
    · rw [card_insert_erase hr hgX]
      exact hX
    · simp only [Finset.mem_sdiff, Finset.mem_insert, Finset.mem_erase, not_or, not_and] at hq ⊢
      have hqY := (Finset.mem_insert.mp (hZ hq.1)).resolve_left hq.2.1
      exact ⟨hq.2.1, hqY, hq.2.2 fun he => hgY (he ▸ hqY)⟩

/-- **A missing page costs at most one fault.** -/
theorem run_of_sdiff : ∀ {σ : List α} {X Y : Finset α} {k : ℕ}, X.card ≤ F → Y.card ≤ F →
    Run F Y σ k → ∃ k' ≤ k + (Y \ X).card, Run F X σ k'
  | [], X, Y, k, _, _, _ => ⟨0, Nat.zero_le _, .nil X⟩
  | r :: σ, X, Y, k, hX, hY, hrun => by
    obtain ⟨Y1, k1, hrun', hY1, hsub, hcost⟩ := hrun.uncons hY
    by_cases hXY : X = Y
    · subst hXY
      exact ⟨k, by omega, hrun⟩
    by_cases hrX : r ∈ X
    · -- a hit here; the other cache got at most `r`, which this one has
      have hle : (Y1 \ X).card ≤ (Y \ X).card := by
        apply Finset.card_le_card
        intro q hq
        rw [Finset.mem_sdiff] at hq ⊢
        refine ⟨?_, hq.2⟩
        rcases Finset.mem_insert.mp (hsub hq.1) with rfl | h
        · exact absurd hrX hq.2
        · exact h
      obtain ⟨k', hk', h'⟩ := run_of_sdiff hX hY1 hrun'
      exact ⟨k', by omega, .hit hrX h'⟩
    · obtain ⟨X1, hX1, hsdiff, hstep⟩ := exists_fault hX hY hrX hXY
      obtain ⟨k', hk', h'⟩ := run_of_sdiff hX1 hY1 hrun'
      have hle := Finset.card_le_card (hsdiff Y1 hsub)
      refine ⟨k' + 1, ?_, hstep h'⟩
      rcases hcost with ⟨hrY, rfl, rfl⟩ | ⟨hrY, rfl⟩
      · -- the other one hits: `r` is one page less to miss
        have hmem : r ∈ Y1 \ X := Finset.mem_sdiff.mpr ⟨hrY, hrX⟩
        have hpos : 0 < (Y1 \ X).card := Finset.card_pos.mpr ⟨r, hmem⟩
        rw [Finset.card_erase_of_mem hmem] at hle
        omega
      · have := Finset.card_erase_le (a := r) (s := Y \ X)
        omega

/-- The page in which two caches differ is referenced: the cache without it
faults and gets it. -/
theorem run_of_exchange_head {σ : List α} {Z : Finset α} {f r : α} {k : ℕ} (hr : r ∉ insert f Z)
    (hcard : (insert f Z).card ≤ F) (hcard' : (insert r Z).card ≤ F)
    (hrun : Run F (insert f Z) (r :: σ) k) : ∃ k' ≤ k, Run F (insert r Z) (r :: σ) k' := by
  obtain ⟨Y, k1, hrun', hY, hsub, ⟨hr', -⟩ | ⟨-, rfl⟩⟩ := hrun.uncons hcard
  · exact absurd hr' hr
  have hle : Y \ insert r Z ⊆ {f} := by
    intro q hq
    rw [Finset.mem_sdiff, Finset.mem_insert, not_or] at hq
    have := hsub hq.1
    simp only [Finset.mem_insert] at this
    rw [Finset.mem_singleton]
    exact (this.resolve_left hq.2.1).resolve_right hq.2.2
  obtain ⟨k', hk', h'⟩ := run_of_sdiff hcard' hY hrun'
  have := Finset.card_le_card hle
  rw [Finset.card_singleton] at this
  exact ⟨k', by omega, .hit (Finset.mem_insert_self r Z) h'⟩

/-- **The page used first is the better one to keep.** -/
theorem run_of_exchange : ∀ {σ : List α} {Z : Finset α} {e f : α} {k : ℕ}, e ∉ Z → f ∉ Z →
    (insert f Z).card ≤ F → σ.idxOf e ≤ σ.idxOf f → Run F (insert f Z) σ k →
    ∃ k' ≤ k, Run F (insert e Z) σ k'
  | [], Z, e, f, k, _, _, _, _, _ => ⟨0, Nat.zero_le _, .nil _⟩
  | r :: σ, Z, e, f, k, he, hf, hcard, hnext, hrun => by
    have hcard' : (insert e Z).card = (insert f Z).card := by
      rw [Finset.card_insert_of_notMem he, Finset.card_insert_of_notMem hf]
    by_cases hef : e = f
    · subst hef
      exact ⟨k, le_rfl, hrun⟩
    by_cases hre : r = e
    · subst hre
      refine run_of_exchange_head ?_ hcard (by omega) hrun
      rw [Finset.mem_insert, not_or]
      exact ⟨hef, he⟩
    by_cases hrf : r = f
    · -- then `f` is used first
      subst hrf
      rw [List.idxOf_cons_self, List.idxOf_cons_ne σ hre] at hnext
      omega
    · rw [List.idxOf_cons_ne σ hre, List.idxOf_cons_ne σ hrf] at hnext
      have hnext' : σ.idxOf e ≤ σ.idxOf f := by omega
      have hmem : ∀ {x}, r ≠ x → (r ∈ insert x Z ↔ r ∈ Z) := fun h => by
        rw [Finset.mem_insert, or_iff_right h]
      cases hrun with
      | hit hr h =>
        obtain ⟨k', hk', h'⟩ := run_of_exchange he hf hcard hnext' h
        exact ⟨k', hk', .hit ((hmem hre).mpr ((hmem hrf).mp hr)) h'⟩
      | load hr hc h =>
        have hrZ : r ∉ Z := fun h => hr ((hmem hrf).mpr h)
        have hnot : ∀ {x}, x ∉ Z → r ≠ x → x ∉ insert r Z := fun hx hrx => by
          rw [Finset.mem_insert, not_or]
          exact ⟨fun h => hrx h.symm, hx⟩
        rw [Finset.insert_comm] at h
        obtain ⟨k', hk', h'⟩ := run_of_exchange (hnot he hre) (hnot hf hrf)
          (by rw [Finset.insert_comm, Finset.card_insert_of_notMem hr]; exact hc) hnext' h
        rw [Finset.insert_comm] at h'
        exact ⟨k' + 1, by omega, .load (fun h => hrZ ((hmem hre).mp h)) (by omega) h'⟩
      | @evict _ _ g _ _ hr hc hg h =>
        have hrZ : r ∉ Z := fun h => hr ((hmem hrf).mpr h)
        have hrX : r ∉ insert e Z := fun h => hrZ ((hmem hre).mp h)
        by_cases hgf : g = f
        · -- both give up the page they differ in
          subst hgf
          rw [Finset.erase_insert hf] at h
          refine ⟨_, le_rfl, .evict hrX (by omega) (Finset.mem_insert_self e Z) ?_⟩
          rwa [Finset.erase_insert he]
        · have hgZ : g ∈ Z := (Finset.mem_insert.mp hg).resolve_left hgf
          have hge : g ≠ e := fun h => he (h ▸ hgZ)
          have hnot : ∀ {x}, x ∉ Z → r ≠ x → x ∉ insert r (Z.erase g) := fun hx hrx => by
            rw [Finset.mem_insert, not_or]
            exact ⟨fun h => hrx h.symm, fun h => hx (Finset.mem_of_mem_erase h)⟩
          have hswap : ∀ {x}, g ≠ x →
              insert r ((insert x Z).erase g) = insert x (insert r (Z.erase g)) := fun hgx => by
            rw [Finset.erase_insert_of_ne (Ne.symm hgx), Finset.insert_comm]
          have hcard'' : (insert f (insert r (Z.erase g))).card ≤ F := by
            rw [← hswap hgf, card_insert_erase hr hg]
            exact hcard
          rw [hswap hgf] at h
          obtain ⟨k', hk', h'⟩ := run_of_exchange (hnot he hre) (hnot hf hrf) hcard'' hnext' h
          rw [← hswap hge] at h'
          exact ⟨k' + 1, by omega, .evict hrX (by omega) (Finset.mem_insert_of_mem hgZ) h'⟩

/-! ### Evicting the farthest is optimal -/

/-- **Belady's theorem.** No schedule has fewer faults than one that evicts
the page with the farthest next use. -/
theorem farthest_le_run {σ : List α} {C : Finset α} {k : ℕ} (hopt : Farthest F C σ k) :
    ∀ {k' : ℕ}, C.card ≤ F → Run F C σ k' → k ≤ k' := by
  induction hopt with
  | nil C => exact fun _ _ => Nat.zero_le _
  | hit hr _ ih =>
    intro k' hC hrun
    cases hrun with
    | hit _ h => exact ih hC h
    | load hr' => exact absurd hr hr'
    | evict hr' => exact absurd hr hr'
  | load hr hc _ ih =>
    intro k' hC hrun
    cases hrun with
    | hit hr' => exact absurd hr' hr
    | load _ _ h =>
      have := ih (by rw [Finset.card_insert_of_notMem hr]; exact hc) h
      omega
    | evict _ hc' => omega
  | @evict C r g σ k hr hc hg hfar _ ih =>
    intro k' hC hrun
    have hcard := card_insert_erase hr hg
    cases hrun with
    | hit hr' => exact absurd hr' hr
    | load _ hc' => omega
    | @evict _ _ h _ _ _ _ hh hrun =>
      by_cases hgh : h = g
      · subst hgh
        have := ih (by omega) hrun
        omega
      · -- the two caches differ in `g`, kept here, and `h`, kept there
        set Z := insert r ((C.erase g).erase h) with hZ
        have hne : ∀ {x}, x ∈ C → r ≠ x := fun hx he => hr (he ▸ hx)
        have hX : insert r (C.erase g) = insert h Z := by
          rw [hZ, Finset.insert_comm, Finset.insert_erase (Finset.mem_erase.mpr ⟨hgh, hh⟩)]
        have hY : insert r (C.erase h) = insert g Z := by
          rw [hZ, Finset.erase_right_comm, Finset.insert_comm,
            Finset.insert_erase (Finset.mem_erase.mpr ⟨Ne.symm hgh, hg⟩)]
        have hhZ : h ∉ Z := by simp [hZ, (hne hh).symm]
        have hgZ : g ∉ Z := by simp [hZ, (hne hg).symm]
        have hcardY : (insert g Z).card ≤ F := by
          rw [← hY, card_insert_erase hr hh]
          exact hC
        rw [hY] at hrun
        obtain ⟨k'', hk'', h''⟩ := run_of_exchange hhZ hgZ hcardY (hfar h hh) hrun
        rw [← hX] at h''
        have := ih (by omega) h''
        omega

end Belady
end LinuxProg
