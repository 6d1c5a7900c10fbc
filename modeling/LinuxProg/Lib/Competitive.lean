/-
# Policies against schedules that know the future

A reference string falls into phases: each goes as far as it names at most
`F` pages (`phaseStarts` counts where the later ones begin). A policy is
conservative if a stretch that names at most `F` pages makes none of them
fault twice (`Conservative`); FIFO and LRU are (`conservative_fifo`,
`conservative_lru`). So it has at most `F` faults a phase
(`Conservative.misses_le`).

A schedule with `h ≤ F` frames, whatever it knows of the references to come,
needs `F - h + 1` faults for each new phase (`Run.phases_le`). What carries
the induction is the number of pages that are in its cache or were named in
the phase: more than `h` of them are faults already paid for. With both, a
conservative policy has at most `F / (F - h + 1)` times the faults of any
schedule, up to a constant (`Conservative.competitive`). More frames never
cost a fault (`Run.mono`).

Key definitions: `phaseStarts`, `Conservative`.
Key theorems: `Run.mono`, `Run.phases_le`, `Conservative.misses_le`,
`Conservative.competitive`, `conservative_fifo`, `conservative_lru`.
-/
import Mathlib
import LinuxProg.Lib.Belady
import LinuxProg.Lib.Policies

namespace LinuxProg
namespace Belady

open Policies

variable {α Λ : Type*} [DecidableEq α] {F h : ℕ}

/-! ### More frames -/

/-- **More frames never cost a fault**: a cache that has the pages of another
one, and room for as many, has a schedule with no more faults. -/
theorem Run.mono {C : Finset α} {σ : List α} {k : ℕ} (hF : h ≤ F) (hrun : Run h C σ k) :
    ∀ {D : Finset α}, C ⊆ D → D.card ≤ F → ∃ k' ≤ k, Run F D σ k' := by
  induction hrun with
  | nil C => exact fun {D} _ _ => ⟨0, le_rfl, .nil D⟩
  | hit hr _ ih =>
    intro D hD hcard
    obtain ⟨k', hk', h'⟩ := ih hD hcard
    exact ⟨k', hk', .hit (hD hr) h'⟩
  | @load C r σ k hr hc _ ih =>
    intro D hD hcard
    by_cases hrD : r ∈ D
    · obtain ⟨k', hk', h'⟩ := ih (Finset.insert_subset hrD hD) hcard
      exact ⟨k', by omega, .hit hrD h'⟩
    rcases Nat.lt_or_ge D.card F with hlt | hge
    · obtain ⟨k', hk', h'⟩ := ih (Finset.insert_subset_insert r hD)
        (by rw [Finset.card_insert_of_notMem hrD]; exact hlt)
      exact ⟨k' + 1, by omega, .load hrD hlt h'⟩
    · -- a full cache has a page more than one that is not
      obtain ⟨g, hgD, hgC⟩ : ∃ g ∈ D, g ∉ C :=
        Finset.exists_mem_notMem_of_card_lt_card (by omega)
      have hsub : C ⊆ D.erase g := fun p hp =>
        Finset.mem_erase.mpr ⟨fun he => hgC (he ▸ hp), hD hp⟩
      obtain ⟨k', hk', h'⟩ := ih (Finset.insert_subset_insert r hsub)
        (by rw [card_insert_erase hrD hgD]; exact hcard)
      exact ⟨k' + 1, by omega, .evict hrD hge hgD h'⟩
  | @evict C r g σ k hr hc hg _ ih =>
    intro D hD hcard
    have hsub : C.erase g ⊆ D := (Finset.erase_subset g C).trans hD
    by_cases hrD : r ∈ D
    · obtain ⟨k', hk', h'⟩ := ih (Finset.insert_subset hrD hsub) hcard
      exact ⟨k', by omega, .hit hrD h'⟩
    rcases Nat.lt_or_ge D.card F with hlt | hge
    · obtain ⟨k', hk', h'⟩ := ih (Finset.insert_subset_insert r hsub)
        (by rw [Finset.card_insert_of_notMem hrD]; exact hlt)
      exact ⟨k' + 1, by omega, .load hrD hlt h'⟩
    · obtain ⟨k', hk', h'⟩ := ih (Finset.insert_subset_insert r (Finset.erase_subset_erase g hD))
        (by rw [card_insert_erase hrD (hD hg)]; exact hcard)
      exact ⟨k' + 1, by omega, .evict hrD hge (hD hg) h'⟩

/-! ### Phases -/

/-- How many phases begin in the string, after a phase has named the pages of
`S`: one at each reference that would be a page too many. -/
def phaseStarts (F : ℕ) : Finset α → List α → ℕ
  | _, [] => 0
  | S, r :: σ =>
    if (insert r S).card ≤ F then phaseStarts F (insert r S) σ
    else phaseStarts F {r} σ + 1

/-- What a schedule makes of its cache by one reference: the page is in it. -/
theorem Run.served {C : Finset α} {r : α} {σ : List α} {k : ℕ} (hC : C.card ≤ h)
    (hrun : Run h C (r :: σ) k) :
    ∃ C1 k1, Run h C1 σ k1 ∧ C1.card ≤ h ∧ r ∈ C1 ∧ C1 ⊆ insert r C ∧
      ((r ∈ C ∧ k = k1) ∨ (r ∉ C ∧ k = k1 + 1)) := by
  cases hrun with
  | hit hr hrun => exact ⟨C, k, hrun, hC, hr, Finset.subset_insert r C, .inl ⟨hr, rfl⟩⟩
  | load hr hc hrun =>
    refine ⟨_, _, hrun, ?_, Finset.mem_insert_self r C, subset_rfl, .inr ⟨hr, rfl⟩⟩
    rw [Finset.card_insert_of_notMem hr]
    exact hc
  | evict hr hc hg hrun =>
    refine ⟨_, _, hrun, ?_, Finset.mem_insert_self r _,
      Finset.insert_subset_insert r (Finset.erase_subset _ C), .inr ⟨hr, rfl⟩⟩
    rw [card_insert_erase hr hg]
    exact hC

/-- **A schedule pays for every phase.** The pages that are in its cache or
were named in this phase are at most `h`, or the rest of them is paid for. -/
theorem Run.phases_le (hF : h ≤ F) : ∀ {σ : List α} {C S : Finset α} {k : ℕ}, C.card ≤ h →
    S.card ≤ F → Run h C σ k → (F - h + 1) * phaseStarts F S σ ≤ k + ((S ∪ C).card - h)
  | [], _, _, _, _, _, _ => by simp [phaseStarts]
  | r :: σ, C, S, k, hC, hS, hrun => by
    obtain ⟨C1, k1, hrun1, hC1, hr1, hsub, hcost⟩ := hrun.served hC
    rw [phaseStarts]
    by_cases hcard : (insert r S).card ≤ F
    · rw [if_pos hcard]
      have ih := hrun1.phases_le hF hC1 hcard
      have hle : (insert r S ∪ C1).card ≤ (insert r (S ∪ C)).card := by
        apply Finset.card_le_card
        apply Finset.union_subset
        · exact Finset.insert_subset_insert r Finset.subset_union_left
        · exact hsub.trans (Finset.insert_subset_insert r Finset.subset_union_right)
      rcases hcost with ⟨hr, rfl⟩ | ⟨hr, rfl⟩
      · rw [Finset.insert_eq_of_mem (Finset.mem_union_right S hr)] at hle
        omega
      · have := Finset.card_insert_le r (S ∪ C)
        omega
    · rw [if_neg hcard]
      -- a new phase: the cache is at most what was named in it
      have hrS : r ∉ S := fun hr => hcard (by rwa [Finset.insert_eq_of_mem hr])
      have hle : S.card ≤ (S ∪ C).card := Finset.card_le_card Finset.subset_union_left
      have hpos : 0 < C1.card := Finset.card_pos.mpr ⟨r, hr1⟩
      have ih := hrun1.phases_le hF hC1 (S := {r}) (by rw [Finset.card_singleton]; omega)
      rw [Finset.singleton_union, Finset.insert_eq_of_mem hr1] at ih
      rw [Finset.card_insert_of_notMem hrS] at hcard
      rw [Nat.mul_succ]
      rcases hcost with ⟨hr, rfl⟩ | ⟨hr, rfl⟩
      · have hlt : (insert r S).card ≤ (S ∪ C).card := Finset.card_le_card
          (Finset.insert_subset (Finset.mem_union_right S hr) Finset.subset_union_left)
        rw [Finset.card_insert_of_notMem hrS] at hlt
        omega
      · omega

/-- From an empty cache the first phase costs a fault as well. -/
theorem Run.phases_lt {r : α} {σ : List α} {k : ℕ} (hF : h ≤ F) (hrun : Run h ∅ (r :: σ) k) :
    (F - h + 1) * phaseStarts F ∅ (r :: σ) < k := by
  obtain ⟨C1, k1, hrun1, hC1, hr1, hsub, ⟨hr, -⟩ | ⟨-, rfl⟩⟩ := hrun.served (by simp)
  · exact absurd hr (Finset.notMem_empty r)
  have hpos : 0 < C1.card := Finset.card_pos.mpr ⟨r, hr1⟩
  have hone : (insert r (∅ : Finset α)).card ≤ F := by
    rw [insert_empty_eq, Finset.card_singleton]
    omega
  have hle := hrun1.phases_le hF hC1 hone
  rw [insert_empty_eq, Finset.singleton_union, Finset.insert_eq_of_mem hr1,
    Nat.sub_eq_zero_of_le hC1] at hle
  rw [phaseStarts, if_pos hone, insert_empty_eq]
  omega

/-! ### Conservative policies -/

/-- Over a stretch of references to at most `F` pages, wherever it begins, no
page faults twice. -/
def Conservative (F : ℕ) (P : Policy α Λ) (L : Λ) : Prop :=
  ∀ w u : List α, u.toFinset.card ≤ F → (P.misses (P.after L w) u).Nodup

theorem length_le_of_subset {M u : List α} (hM : M.Nodup) (hsub : M ⊆ u)
    (hu : u.toFinset.card ≤ F) : M.length ≤ F := by
  rw [← List.toFinset_card_of_nodup hM]
  refine (Finset.card_le_card fun p hp => ?_).trans hu
  rw [List.mem_toFinset] at hp ⊢
  exact hsub hp

namespace Conservative

variable {P : Policy α Λ} {L : Λ}

/-- At most one fault for each page of the stretch. -/
theorem length_misses (hP : Conservative F P L) (w : List α) {u : List α}
    (hu : u.toFinset.card ≤ F) : (P.misses (P.after L w) u).length ≤ F :=
  length_le_of_subset (hP w u hu) (P.misses_subset u _) hu

/-- The faults of this phase and of those to come. -/
theorem misses_le_phases (hF : 1 ≤ F) (hP : Conservative F P L) : ∀ (σ w u : List α),
    u.toFinset.card ≤ F →
    (P.misses (P.after L w) (u ++ σ)).length ≤ F * (phaseStarts F u.toFinset σ + 1)
  | [], w, u, hu => by
    simpa [phaseStarts] using hP.length_misses w hu
  | r :: σ, w, u, hu => by
    have hsnoc : (u ++ [r]).toFinset = insert r u.toFinset := by
      simp [List.toFinset_append]
    rw [phaseStarts]
    by_cases hcard : (insert r u.toFinset).card ≤ F
    · have ih := hP.misses_le_phases hF σ w (u ++ [r]) (by rwa [hsnoc])
      rw [hsnoc, List.append_assoc, List.singleton_append] at ih
      rwa [if_pos hcard]
    · -- the phase ends before `r`
      have ih := hP.misses_le_phases hF σ (w ++ u) [r] (by simpa using hF)
      have hphase := hP.length_misses w hu
      rw [if_neg hcard, Policy.misses_append, List.length_append, ← Policy.after_append]
      have hone : ([r] : List α).toFinset = {r} := by simp
      rw [hone, List.singleton_append] at ih
      calc (P.misses (P.after L w) u).length + (P.misses (P.after L (w ++ u)) (r :: σ)).length
          ≤ F + F * (phaseStarts F {r} σ + 1) := Nat.add_le_add hphase ih
        _ = F * (phaseStarts F {r} σ + 1 + 1) := by ring

/-- **At most `F` faults a phase.** -/
theorem misses_le (hF : 1 ≤ F) (hP : Conservative F P L) (σ : List α) :
    (P.misses L σ).length ≤ F * (phaseStarts F ∅ σ + 1) := by
  simpa [Policy.after] using hP.misses_le_phases hF σ [] [] (by simp)

/-- **A conservative policy against a schedule with no more frames.** -/
theorem competitive (hF : h ≤ F) (hP : Conservative F P L) {σ : List α} {k : ℕ}
    (hrun : Run h ∅ σ k) : (F - h + 1) * (P.misses L σ).length ≤ F * (k + (F - h)) := by
  cases σ with
  | nil => simp [Policy.misses]
  | cons r σ =>
    have hlow := hrun.phases_lt hF
    obtain ⟨C1, k1, -, hC1, hr1, -⟩ := hrun.served (by simp)
    have hpos : 0 < C1.card := Finset.card_pos.mpr ⟨r, hr1⟩
    have hup := hP.misses_le (by omega) (r :: σ)
    calc (F - h + 1) * (P.misses L (r :: σ)).length
        ≤ (F - h + 1) * (F * (phaseStarts F ∅ (r :: σ) + 1)) := Nat.mul_le_mul_left _ hup
      _ = F * ((F - h + 1) * phaseStarts F ∅ (r :: σ) + (F - h + 1)) := by ring
      _ ≤ F * (k + (F - h)) := by
        apply Nat.mul_le_mul_left
        omega

end Conservative

/-! ### FIFO and LRU -/

theorem card_snoc_le {u : List α} {r : α} (h : (u ++ [r]).toFinset.card ≤ F) :
    u.toFinset.card ≤ F := by
  refine (Finset.card_le_card ?_).trans h
  rw [List.toFinset_append]
  exact Finset.subset_union_left

/-- FIFO keeps the pages of its last `F` faults, so those of the stretch. -/
theorem conservative_fifo (hF : 1 ≤ F) : Conservative F (Policies.fifo F) ([] : List α) := by
  intro w u
  induction u using List.reverseRecOn with
  | nil => exact fun _ => List.nodup_nil
  | append_singleton u r ih =>
    intro hcard
    have hcard' : u.toFinset.card ≤ F := card_snoc_le hcard
    have hnodup := ih hcard'
    have hqueue := after_fifo hF (w ++ u)
    have hsub := (Policies.fifo F).misses_subset u ((Policies.fifo F).after [] w)
    rw [Policy.misses_append] at hqueue
    rw [Policy.misses_snoc, ← Policy.after_append, faults_fifo]
    set M := (Policies.fifo F).misses ((Policies.fifo F).after [] w) u with hM
    have hlen := length_le_of_subset hnodup hsub hcard'
    have hkept : M ⊆ (Policies.fifo F).after [] (w ++ u) := by
      rw [hqueue, List.drop_append, List.length_append]
      intro p hp
      apply List.mem_append_right
      rw [Nat.sub_eq_zero_of_le (by omega)]
      exact hp
    by_cases hr : r ∈ (Policies.fifo F).after [] (w ++ u)
    · simpa [hr] using hnodup
    · rw [if_neg hr, List.replicate_one]
      exact List.nodup_append.mpr ⟨hnodup, List.nodup_singleton r, fun p hp q hq hpq =>
        hr (hkept (List.mem_singleton.mp hq ▸ hpq ▸ hp))⟩

/-- The pages of the last references are the pages last used. -/
theorem recent_append (w u : List α) :
    recent (w ++ u) = recent u ++ (recent w).filter fun p => p ∉ u := by
  induction u using List.reverseRecOn with
  | nil => simp [recent]
  | append_singleton u r ih =>
    rw [← List.append_assoc, recent_snoc, recent_snoc, ih, List.cons_append]
    congr 1
    by_cases hr : r ∈ u
    · rw [List.erase_append_left _ (mem_recent.mpr hr)]
      congr 1
      apply List.filter_congr
      intro p _
      have : p ∈ u ++ [r] ↔ p ∈ u := by
        rw [List.mem_append, List.mem_singleton]
        exact ⟨fun h => h.elim id fun h => h ▸ hr, Or.inl⟩
      simp only [this]
    · rw [List.erase_append_right _ (fun h => hr (mem_recent.mp h)),
        List.erase_of_not_mem (fun h => hr (mem_recent.mp h)),
        ((nodup_recent w).filter _).erase_eq_filter, List.filter_filter]
      congr 1
      apply List.filter_congr
      intro p _
      by_cases hp : p = r
      · simp [hp]
      · simp [hp]

/-- LRU keeps the pages of the last references to `F` pages. -/
theorem conservative_lru : Conservative F (Policies.lru F) ([] : List α) := by
  intro w u
  induction u using List.reverseRecOn with
  | nil => exact fun _ => List.nodup_nil
  | append_singleton u r ih =>
    intro hcard
    have hcard' : u.toFinset.card ≤ F := card_snoc_le hcard
    have hsub := (Policies.lru F).misses_subset u ((Policies.lru F).after [] w)
    have hkept : u ⊆ (Policies.lru F).after [] (w ++ u) := by
      intro p hp
      rw [after_lru, recent_append, List.take_append, List.take_of_length_le]
      · exact List.mem_append_left _ (mem_recent.mpr hp)
      · rw [length_recent]
        exact hcard'
    rw [Policy.misses_snoc, ← Policy.after_append, faults_lru]
    by_cases hr : r ∈ (Policies.lru F).after [] (w ++ u)
    · simpa [hr] using ih hcard'
    · rw [if_neg hr, List.replicate_one]
      exact List.nodup_append.mpr ⟨ih hcard', List.nodup_singleton r, fun p hp q hq hpq =>
        hr (hkept (hsub (List.mem_singleton.mp hq ▸ hpq ▸ hp)))⟩

/-- **LRU with more frames faults at fewer references**: it keeps the pages
that it keeps with fewer. -/
theorem misses_lru_sublist {F' : ℕ} (hF : F ≤ F') (σ : List α) :
    ((Policies.lru F').misses [] σ).Sublist ((Policies.lru F).misses [] σ) := by
  induction σ using List.reverseRecOn with
  | nil => exact List.Sublist.refl _
  | append_singleton σ r ih =>
    rw [Policy.misses_snoc, Policy.misses_snoc, faults_lru, faults_lru, after_lru, after_lru]
    apply ih.append
    by_cases hr : r ∈ (recent σ).take F
    · have hr' : r ∈ (recent σ).take F' := (List.take_subset_take_left _ hF) hr
      simp [hr, hr']
    · rw [if_neg hr]
      split
      · exact List.nil_sublist _
      · exact List.Sublist.refl _

end Belady
end LinuxProg
